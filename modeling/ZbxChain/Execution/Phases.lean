import ZbxChain.Execution.Conservation

/-! # The phases of a transaction

A transaction that is accepted is charged, run, given its refund, and settled. Each phase is a
function of the view before the transaction, and the executor does nothing but these.
-/
namespace ZbxChain
open StateProgram

section Debits

def SignedTransaction.maxCost (tx : SignedTransaction) : ℕ :=
  tx.tx.maxFeePerGas.toNat * tx.tx.gasLimit.toNat

def SignedTransaction.charge (tx : SignedTransaction) (header : BlockHeader) : Charge :=
  ⟨tx.effectiveGasPrice header.baseFeePerGas,tx.maxCost,tx.tx.valueU128,tx.tx.intrinsicGas⟩

structure Accepts (tx : SignedTransaction) (view : ExecView) : Prop where
  nonce : tx.tx.nonce = (view.getAccount tx.sender).nonce
  affordable : saturatingAdd128 tx.maxCost tx.tx.valueU128 ≤ (view.getAccount tx.sender).balanceU128
  intrinsic : tx.tx.intrinsicGas ≤ tx.tx.gasLimit
  nonceRoom : (view.getAccount tx.sender).nonce.toNat + 1 < 2 ^ 64

def chargedAccount (tx : SignedTransaction) (acct : AccountState) : AccountState :=
  { acct.setBalanceU128 (acct.balanceU128 - (tx.maxCost + tx.tx.valueU128) % 2 ^ 128) with
    nonce := acct.nonce + 1 }

def chargedView (tx : SignedTransaction) (view : ExecView) : ExecView :=
  view.setAccount tx.sender (chargedAccount tx (view.getAccount tx.sender))

variable {tx : SignedTransaction} {header : BlockHeader} {view view' : ExecView}

theorem incrementNonce_of_room (acct : AccountState) (h : acct.nonce.toNat + 1 < 2 ^ 64) :
    acct.incrementNonce = some { acct with nonce := acct.nonce + 1 } := if_pos h

/-- The debit, by its conditions and the view it leaves. -/
theorem runOn_debitSender_iff {charge : Charge} :
    (debitSender tx header).runOn view = (.ok charge,view') ↔
      Accepts tx view ∧ charge = tx.charge header ∧ view' = chargedView tx view := by
  unfold debitSender
  simp only [TxProgram.runOn_bind, TxProgram.runOn_lift, TxProgram.runOn_ite, TxProgram.runOn_throw,
    run_getAccount]
  constructor
  · intro h
    split_ifs at h with hnonce hbalance hintrinsic
    · cases h
    · cases h
    · cases h
    · unfold AccountState.incrementNonce at h
      split_ifs at h with hroom
      · simp only [TxProgram.runOn_bind, TxProgram.runOn_lift, TxProgram.runOn_pure, run_setAccount] at h
        cases h
        exact ⟨⟨not_not.mp hnonce,not_lt.mp hbalance,UInt64.not_lt.mp hintrinsic,hroom⟩,rfl,rfl⟩
      · cases h
  · rintro ⟨⟨hnonce,haffordable,hintrinsic,hroom⟩,rfl,rfl⟩
    unfold SignedTransaction.maxCost at haffordable
    rw [if_neg (not_not.mpr hnonce), if_neg (not_lt.mpr haffordable), if_neg (UInt64.not_lt.mpr hintrinsic),
      incrementNonce_of_room ((view.getAccount tx.sender).setBalanceU128 _) hroom]
    simp only [TxProgram.runOn_bind, TxProgram.runOn_lift, TxProgram.runOn_pure, run_setAccount]
    rfl

theorem not_accepts_of_error {e : ExecutionError}
    (h : (debitSender tx header).runOn view = (.error e,view')) : ¬Accepts tx view := by
  intro haccepts
  have hcharged : (debitSender tx header).runOn view = (.ok (tx.charge header),chargedView tx view) :=
    runOn_debitSender_iff.mpr ⟨haccepts,rfl,rfl⟩
  rw [h] at hcharged
  cases hcharged

end Debits

section Balances
variable {tx : SignedTransaction} {view : ExecView}

/-- What a charge or a refund misses, as a balance is cut to 128 bits. -/
def cutBy (wei : ℕ) : ℕ := wei - maxU128

/-- What a charge forgets, as the sum of the highest fee and the value wraps. -/
def wrappedBy (tx : SignedTransaction) : ℕ := if maxU128 < tx.maxCost + tx.tx.valueU128 then 2 ^ 128 else 0

theorem valueU128_lt (tx : Transaction) : tx.valueU128 < 2 ^ 128 := Nat.mod_lt _ (by decide)

theorem maxCost_lt (tx : SignedTransaction) : tx.maxCost < 2 ^ 128 := by
  have hfee := tx.tx.maxFeePerGas.toNat_lt
  have hlimit := tx.tx.gasLimit.toNat_lt
  calc tx.maxCost ≤ (2 ^ 64 - 1) * (2 ^ 64 - 1) := Nat.mul_le_mul (by omega) (by omega)
    _ < 2 ^ 128 := by decide

theorem wei_chargedView (h : Accepts tx view) :
    (chargedView tx view).wei tx.sender + (tx.maxCost + tx.tx.valueU128) + cutBy (view.wei tx.sender) =
      view.wei tx.sender + wrappedBy tx := by
  have hcost := maxCost_lt tx
  have hvalue := valueU128_lt tx.tx
  have haffordable := h.affordable
  have hcharged : (chargedView tx view).wei tx.sender =
      (view.getAccount tx.sender).balanceU128 - (tx.maxCost + tx.tx.valueU128) % 2 ^ 128 := by
    rw [chargedView, wei_setAccount, if_pos rfl]
    exact toNat_debit _ _
  have hbalance : (view.getAccount tx.sender).balanceU128 = min (view.wei tx.sender) maxU128 := rfl
  rw [hcharged, hbalance]
  rw [hbalance, saturatingAdd128] at haffordable
  unfold cutBy wrappedBy
  unfold maxU128 at haffordable ⊢
  split
  · omega
  · omega

theorem wei_credit (view : ExecView) (addr : Address) (wei : ℕ) :
    ((credit addr wei).run ExecView.answer view).2.wei addr + cutBy (view.wei addr + wei) =
      view.wei addr + wei := by
  have hbalance : (view.getAccount addr).balanceU128 = min (view.wei addr) maxU128 := rfl
  have hfits : saturatingAdd128 (view.getAccount addr).balanceU128 wei ≤ maxU128 := min_le_right _ _
  simp only [credit, Program.run_bind, run_getAccount, run_setAccount, wei_setAccount, if_true]
  rw [toNat_setBalanceU128 hfits, hbalance, saturatingAdd128, cutBy]
  omega

end Balances

section Plain
variable (P : Platform) (M : Machines) (tx : SignedTransaction) (header : BlockHeader) (view : ExecView)

def resolved : Target × ExecView := (resolveTarget P tx).run ExecView.answer (chargedView tx view)

def ranCode : (ExitStatus × UInt64 × List Log) × ExecView :=
  (runCode P M tx header tx.tx.intrinsicGas (resolved P tx view).1).run ExecView.answer (resolved P tx view).2

def gasTaken : UInt64 := (tx.charge header).gasUsed tx (ranCode P M tx header view).1.2.1

def runSucceeds : Bool := decide ((ranCode P M tx header view).1.1 = .succeeded)

def refundedView : ExecView :=
  ((credit tx.sender ((tx.charge header).gasRefund (gasTaken P M tx header view))).run ExecView.answer
    (ranCode P M tx header view).2).2

def settledView : ExecView :=
  ((settleValue tx tx.tx.valueU128 (resolved P tx view).1 (runSucceeds P M tx header view)).run ExecView.answer
    (refundedView P M tx header view)).2

def txResult : TxResult :=
  ⟨gasTaken P M tx header view,tx.effectiveGasPrice header.baseFeePerGas,runSucceeds P M tx header view,
    (ranCode P M tx header view).1.2.2,(resolved P tx view).1.contractAddress⟩

variable {P M tx header view}

/-- A transaction, by its phases. -/
theorem runOn_executeTx_iff {result : TxResult} {view' : ExecView} :
    (executeTx P M tx header).runOn view = (.ok result,view') ↔
      Accepts tx view ∧ result = txResult P M tx header view ∧ view' = settledView P M tx header view := by
  unfold executeTx
  rw [TxProgram.runOn_bind]
  rcases hdebit : (debitSender tx header).runOn view with ⟨e | charge,charged⟩
  · constructor
    · intro h
      cases h
    · rintro ⟨haccepts,-,-⟩
      exact absurd haccepts (not_accepts_of_error hdebit)
  · obtain ⟨haccepts,rfl,rfl⟩ := runOn_debitSender_iff.mp hdebit
    simp only [TxProgram.runOn_bind, TxProgram.runOn_lift, TxProgram.runOn_pure]
    constructor
    · intro h
      cases h
      exact ⟨haccepts,rfl,rfl⟩
    · rintro ⟨-,rfl,rfl⟩
      rfl

end Plain

section Dispatched
variable {V K : Type} (S : StakingPrecompile V K) (tx : SignedTransaction) (header : BlockHeader) (vs : V)
  (view : ExecView)

def ranDispatch : (V × Option UInt64) × ExecView :=
  (dispatchPayload S tx header tx.tx.valueU128 vs).run ExecView.answer (chargedView tx view)

def stakingGas : UInt64 := (tx.charge header).gasUsed tx ((ranDispatch S tx header vs view).1.2.getD 0)

def stakingRefunded : ExecView :=
  ((credit tx.sender ((tx.charge header).gasRefund (stakingGas S tx header vs view))).run ExecView.answer
    (ranDispatch S tx header vs view).2).2

def settleStaking (success : Bool) : StateProgram Unit :=
  if success then
    if 0 < tx.tx.valueU128 then credit stakingPrecompileAddr tx.tx.valueU128 else pure ()
  else credit tx.sender tx.tx.valueU128

def stakingSettled : ExecView :=
  ((settleStaking tx (ranDispatch S tx header vs view).1.2.isSome).run ExecView.answer
    (stakingRefunded S tx header vs view)).2

def stakingResult : TxResult :=
  ⟨stakingGas S tx header vs view,tx.effectiveGasPrice header.baseFeePerGas,
    (ranDispatch S tx header vs view).1.2.isSome,[],none⟩

variable {S tx header vs view}

theorem runOn_executeStakingTx_iff {r : V × TxResult} {view' : ExecView} :
    (executeStakingTx S tx header vs).runOn view = (.ok r,view') ↔
      Accepts tx view ∧ r = ((ranDispatch S tx header vs view).1.1,stakingResult S tx header vs view) ∧
        view' = stakingSettled S tx header vs view := by
  rw [executeStakingTx_eq, TxProgram.runOn_bind]
  rcases hdebit : (debitSender tx header).runOn view with ⟨e | charge,charged⟩
  · constructor
    · intro h
      cases h
    · rintro ⟨haccepts,-,-⟩
      exact absurd haccepts (not_accepts_of_error hdebit)
  · obtain ⟨haccepts,rfl,rfl⟩ := runOn_debitSender_iff.mp hdebit
    simp only [TxProgram.runOn_bind, TxProgram.runOn_lift, TxProgram.runOn_ite, TxProgram.runOn_pure]
    unfold stakingSettled settleStaking
    constructor
    · intro h
      refine ⟨haccepts,?_⟩
      change (if (ranDispatch S tx header vs view).1.2.isSome = true then
        if 0 < tx.tx.valueU128 then _ else _ else _) = _ at h
      split_ifs at h ⊢
      all_goals
        cases h
        exact ⟨rfl,rfl⟩
    · rintro ⟨-,rfl,rfl⟩
      change (if (ranDispatch S tx header vs view).1.2.isSome = true then
        if 0 < tx.tx.valueU128 then _ else _ else _) = _
      split_ifs
      all_goals rfl

end Dispatched

end ZbxChain
