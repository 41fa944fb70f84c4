import ZbxChain.Staking.CallEffects

/-! # The money of the staking calls

A call pays out of the escrow account or not at all, so it keeps the total of the balances.
-/
namespace ZbxChain.Staking
open StateProgram

section Payments
variable {view : ExecView} {recipient : Address} {amount : ℕ}

theorem total_paidView (h : view.total ≤ maxU128) : (paidView recipient amount view).total = view.total := by
  have hescrow := wei_le_total view stakingPrecompileAddr
  have hbalance : ∀ addr (view : ExecView),
      (balanceOf addr).run ExecView.answer view = ((view.getAccount addr).balanceU128,view) := fun _ _ => rfl
  have hset : ∀ addr wei (view : ExecView), (setBalanceOf addr wei).run ExecView.answer view =
      ((),view.setAccount addr ((view.getAccount addr).setBalanceU128 wei)) := fun _ _ _ => rfl
  unfold paidView payFromEscrow
  simp only [Program.run_bind, Program.run_ite, Program.run_pure, hbalance, hset, balanceU128_getAccount h]
  split
  · rfl
  · rename_i henough
    dsimp only
    have hdebit : _ = view.total + (view.wei stakingPrecompileAddr - amount) :=
      total_setBalance view stakingPrecompileAddr (view.getAccount stakingPrecompileAddr) (by omega)
    generalize view.setAccount stakingPrecompileAddr ((view.getAccount stakingPrecompileAddr).setBalanceU128
      (view.wei stakingPrecompileAddr - amount)) = after at hdebit ⊢
    have hrecipient := wei_le_total after recipient
    have hcredit : _ = after.total + min (after.wei recipient + amount) maxU128 :=
      total_setBalance after recipient (after.getAccount recipient) (min_le_right _ _)
    rw [balanceU128_getAccount (by omega), saturatingAdd128]
    omega

end Payments

theorem keepsTotal_precompile (P : Platform) (faults : LedgerFaults) (decode : List UInt8 → Option StakingTx) :
    (precompile P faults decode).KeepsTotal := by
  intro call sender value height st view h
  have heffect : HasEffect P faults call sender value height st view
      (dispatchStakingTx P faults sender value height st call) := effect_dispatchStakingTx call
  have hrun : (((precompile P faults decode).dispatch call sender value height st).run ExecView.answer view).2 =
      ((dispatchStakingTx P faults sender value height st call).run ExecView.answer view).2 := by
    dsimp only [precompile]
    rw [Program.run_bind]
    rfl
  rw [hrun]
  unfold HasEffect at heffect
  generalize (dispatchStakingTx P faults sender value height st call).run ExecView.answer view = result
    at heffect ⊢
  obtain ⟨⟨st',answer⟩,view'⟩ := result
  dsimp only at heffect ⊢
  generalize answer.toOption.isSome = accepted at heffect
  cases heffect with
  | idle hvs hdelta hcolumns hview =>
    exact total_of_wei (by funext a; rw [ExecView.wei, ExecView.getAccount, hview]; rfl)
  | withdrawn hmatured hpaid => exact total_paidView h
  | claimed hclaim hpaid hunpaid =>
    cases accepted with
    | false => rw [hunpaid rfl]
    | true =>
      rcases hpaid rfl with ⟨hsame,-⟩ | ⟨-,hsame⟩
      · rw [hsame]
      · rw [hsame]
        exact total_paidView h
  | shared hget hpaid hunpaid =>
    cases accepted with
    | false => rw [hunpaid rfl]
    | true =>
      rw [(hpaid rfl).2]
      exact total_paidView h
  | _ => rfl

end ZbxChain.Staking
