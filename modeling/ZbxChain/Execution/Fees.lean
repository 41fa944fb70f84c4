import ZbxChain.Execution.Conservation
import ZbxChain.Execution.Phases

/-! # What a transaction costs its sender

The sender is charged the highest fee and the value at once, and later gets a refund that
saturates. In exact arithmetic the two leave the gas at the effective price; they do so in the
code as long as the price is one the sender agreed to and no balance leaves 128 bits.
-/
namespace ZbxChain
open StateProgram

section Prices
variable (tx : SignedTransaction) (baseFee : UInt64)

theorem effectiveGasPrice_le_iff :
    tx.effectiveGasPrice baseFee ≤ tx.tx.maxFeePerGas ↔ baseFee ≤ tx.tx.maxFeePerGas := by
  have hbase := baseFee.toNat_lt
  have hmax := tx.tx.maxFeePerGas.toNat_lt
  rw [UInt64.le_iff_toNat_le, UInt64.le_iff_toNat_le, SignedTransaction.effectiveGasPrice, UInt64.toNat_add,
    toNat_min64, toNat_saturatingSub64]
  omega

theorem fee_le_maxCost {header : BlockHeader} (gas : UInt64) (h : header.baseFeePerGas ≤ tx.tx.maxFeePerGas) :
    ((tx.charge header).gasUsed tx gas).toNat * (tx.effectiveGasPrice header.baseFeePerGas).toNat ≤
      tx.maxCost := by
  have hprice := (effectiveGasPrice_le_iff tx header.baseFeePerGas).mpr h
  rw [UInt64.le_iff_toNat_le] at hprice
  rw [SignedTransaction.maxCost, Nat.mul_comm]
  exact Nat.mul_le_mul hprice (gasUsed_le _ _ _)

end Prices

section Payment
variable {V K : Type} (P : Platform) (M : Machines) (S : StakingPrecompile V K) (tx : SignedTransaction)
  (header : BlockHeader) (view : ExecView)

/-- The charge and the refund are exact: the base fee is within the cap, and what balances over
128 bits cut off is what the wrap of the charge forgets; both are nothing unless money
overflows. -/
def PricedWithin (before : ℕ) (gasUsed : UInt64) : Prop :=
  header.baseFeePerGas ≤ tx.tx.maxFeePerGas ∧
    cutBy (view.wei tx.sender) + cutBy (before + (tx.charge header).gasRefund gasUsed) = wrappedBy tx

/-- The value a transaction moves away from its sender: its own value, less what its code
brings to the sender and what comes back when it is settled. -/
def movedAway (ran refunded settled : ExecView) : ℤ :=
  tx.tx.valueU128 - ((ran.wei tx.sender : ℤ) - (chargedView tx view).wei tx.sender) -
    ((settled.wei tx.sender : ℤ) - refunded.wei tx.sender)

/-- The sender pays its gas at the effective price, besides the value moved, and no more than
it agreed to. -/
def PaysExactly (after : ExecView) (moved : ℤ) (result : TxResult) : Prop :=
  (view.wei tx.sender : ℤ) - after.wei tx.sender =
      moved + result.gasUsed.toNat * (tx.effectiveGasPrice header.baseFeePerGas).toNat ∧
    tx.effectiveGasPrice header.baseFeePerGas ≤ tx.tx.maxFeePerGas

variable {tx header view}

theorem paysExactly_iff (haccepts : Accepts tx view) (ran settled : ExecView) (gas : UInt64)
    {refunded : ExecView} (hrefunded : refunded =
      ((credit tx.sender ((tx.charge header).gasRefund ((tx.charge header).gasUsed tx gas))).run ExecView.answer
        ran).2) {result : TxResult} (hgas : result.gasUsed = (tx.charge header).gasUsed tx gas) :
    PaysExactly tx header view settled (movedAway tx view ran refunded settled) result ↔
      PricedWithin tx header view (ran.wei tx.sender) result.gasUsed := by
  unfold PaysExactly PricedWithin
  rw [effectiveGasPrice_le_iff, and_comm]
  refine and_congr_right fun hbase => ?_
  have hcharged := wei_chargedView haccepts
  have hcredited := wei_credit ran tx.sender
    ((tx.charge header).gasRefund ((tx.charge header).gasUsed tx gas))
  have hfee := fee_le_maxCost tx gas hbase
  rw [← hrefunded] at hcredited
  rw [hgas]
  have hrefund : (tx.charge header).gasRefund ((tx.charge header).gasUsed tx gas) =
      tx.maxCost - ((tx.charge header).gasUsed tx gas).toNat *
        (tx.effectiveGasPrice header.baseFeePerGas).toNat := rfl
  unfold movedAway
  rw [← Nat.cast_mul]
  omega

/-- The money of the view bounds what the sender has when its refund comes. -/
theorem wei_ranCode_add_le (haccepts : Accepts tx view) (htotal : view.total ≤ maxU128)
    (hwrap : view.total < maxU128 ∨ tx.maxCost + tx.tx.valueU128 ≤ maxU128) :
    (ranCode P M tx header view).2.wei tx.sender + (tx.maxCost + tx.tx.valueU128) ≤ maxU128 := by
  have hdebited : Debited tx header view (tx.charge header) (chargedView tx view) :=
    debitSender_ok (runOn_debitSender_iff.mpr ⟨haccepts,rfl,rfl⟩)
  have hcharged := hdebited.total htotal (hdebited.fits htotal hwrap)
  have hcalled : (resolved P tx view).2.total = (chargedView tx view).total := total_resolveTarget P tx _
  have hran := total_runCode (P := P) (M := M) tx.tx.intrinsicGas tx header (resolved P tx view).1
    (resolved P tx view).2 (by omega)
  have hwei := wei_le_total (ranCode P M tx header view).2 tx.sender
  change (ranCode P M tx header view).2.total + _ + _ = _ at hran
  change _ + (tx.maxCost + tx.tx.valueU128) = _ at hcharged
  omega

/-- Where the money of the view fits 128 bits, only the base fee matters. -/
theorem pricedWithin_iff_of_total (haccepts : Accepts tx view) (htotal : view.total ≤ maxU128)
    (hwrap : view.total < maxU128 ∨ tx.maxCost + tx.tx.valueU128 ≤ maxU128) :
    PricedWithin tx header view ((ranCode P M tx header view).2.wei tx.sender) (gasTaken P M tx header view) ↔
      header.baseFeePerGas ≤ tx.tx.maxFeePerGas := by
  have hwei := wei_le_total view tx.sender
  have hran : (ranCode P M tx header view).2.wei tx.sender + (tx.maxCost + tx.tx.valueU128) ≤ maxU128 :=
    wei_ranCode_add_le P M haccepts htotal hwrap
  have hrefund : (tx.charge header).gasRefund (gasTaken P M tx header view) ≤ tx.maxCost := Nat.sub_le _ _
  refine and_iff_left ?_
  rw [wrappedBy, if_neg (by omega)]
  unfold cutBy
  omega

/-- A transaction that is executed costs its gas at the effective price, and no more per gas
than its fee cap, exactly if the base fee is within the cap and no balance is cut: on both
paths. -/
theorem fees_exact_iff (tx : SignedTransaction) (header : BlockHeader) (view : ExecView) :
    (∀ result after, (executeTx P M tx header).runOn view = (.ok result,after) →
      (PaysExactly tx header view after (movedAway tx view (ranCode P M tx header view).2
          (refundedView P M tx header view) after) result ↔
        PricedWithin tx header view ((ranCode P M tx header view).2.wei tx.sender)
          (gasTaken P M tx header view))) ∧
    ∀ vs vs' result after, (executeStakingTx S tx header vs).runOn view = (.ok (vs',result),after) →
      (PaysExactly tx header view after (movedAway tx view (ranDispatch S tx header vs view).2
          (stakingRefunded S tx header vs view) after) result ↔
        PricedWithin tx header view ((ranDispatch S tx header vs view).2.wei tx.sender)
          (stakingGas S tx header vs view)) := by
  constructor
  · intro result after h
    obtain ⟨haccepts,rfl,rfl⟩ := runOn_executeTx_iff.mp h
    exact paysExactly_iff haccepts _ _ _ rfl rfl
  · intro vs vs' result after h
    obtain ⟨haccepts,hresult,rfl⟩ := runOn_executeStakingTx_iff.mp h
    cases hresult
    exact paysExactly_iff haccepts _ _ _ rfl rfl

def transferHeader (baseFee : UInt64) : BlockHeader :=
  { (plainBlock 1 0).header with baseFeePerGas := baseFee }

def cappedTransfer : SignedTransaction := ⟨legacyTransfer 3 [],⟨0,5,6⟩,1,77⟩

theorem fees_exact_transfer :
    ∃ result after, (executeTx .integers idleMachines cappedTransfer (transferHeader 10)).runOn richView =
        (.ok result,after) ∧
      PaysExactly cappedTransfer (transferHeader 10) richView after
        (movedAway cappedTransfer richView (ranCode .integers idleMachines cappedTransfer (transferHeader 10)
          richView).2 (refundedView .integers idleMachines cappedTransfer (transferHeader 10) richView) after)
        result := by
  have hok : ((executeTx .integers idleMachines cappedTransfer (transferHeader 10)).runOn richView).1.isOk =
      true := by decide +kernel
  rcases hrun : (executeTx .integers idleMachines cappedTransfer (transferHeader 10)).runOn richView
    with ⟨e | result,after⟩
  · rw [hrun] at hok
    cases hok
  · exact ⟨result,after,rfl,((fees_exact_iff .integers idleMachines idleStaking.toStakingPrecompile
      cappedTransfer (transferHeader 10) richView).1 result after hrun).mpr
        ⟨by decide,by decide +kernel⟩⟩

/-- Under a base fee of 30 a transfer with a fee cap of 20 is executed at the price 30. -/
theorem fees_exceed_cap : ¬ ∀ (P : Platform) (M : Machines) (tx : SignedTransaction) (header : BlockHeader)
    (view : ExecView) (result : TxResult) (after : ExecView),
    (executeTx P M tx header).runOn view = (.ok result,after) →
    PaysExactly tx header view after (movedAway tx view (ranCode P M tx header view).2
      (refundedView P M tx header view) after) result := by
  intro hclaim
  have hok : ((executeTx .integers idleMachines cappedTransfer (transferHeader 30)).runOn richView).1.isOk =
      true := by decide +kernel
  rcases hrun : (executeTx .integers idleMachines cappedTransfer (transferHeader 30)).runOn richView
    with ⟨e | result,after⟩
  · rw [hrun] at hok
    cases hok
  · exact absurd (hclaim _ _ _ _ _ _ _ hrun).2 (by decide)

end Payment

end ZbxChain
