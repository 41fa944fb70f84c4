import ZbxChain.Execution.Money
import ZbxChain.Node.BlockHash
import ZbxChain.Zvm.Interpreter

/-! # Where the money of a block goes

What `ZBXBURN` takes, what goes with the accounts that are deleted, and what a creation
sends to an address that is gone: with these the execution of a transaction loses the fee of
its sender and nothing else.
-/
namespace ZbxChain
open StateProgram

section Audit
variable (P : Platform) (M : Machines)

/-- The balances of the accounts that `deleteCreated` deletes. -/
def deletedWith (created : AddressSet) : List (Address × Address) → ExecView → ℕ
  | [], _ => 0
  | (contract,_) :: rest, view =>
    if contract ∈ created then view.wei contract + deletedWith created rest (view.selfdestruct contract)
    else deletedWith created rest view

def startHost (header : BlockHeader) (t : Target) : ProductionZvmHost :=
  { ProductionZvmHost.new (.fromHeader header) with createdThisTx := t.contractAddress.toList }

def hostHandler : Program.Handler ZvmCall.Reply (ProductionZvmHost × ExecView) :=
  Program.stacked (ProductionZvmHost.answer P) ExecView.answer

/-- The run goes to the ZVM. -/
def ReachesZvm (tx : SignedTransaction) (t : Target) : Prop :=
  ¬ (tx.tx.recipient.isSome ∧ isPrecompile t.callee) ∧ ¬ (t.isPureValueTransfer ∨ t.codeToRun = []) ∧
    t.vm = .zvm

instance decidableReachesZvm (tx : SignedTransaction) (t : Target) : Decidable (ReachesZvm tx t) :=
  inferInstanceAs (Decidable (_ ∧ _ ∧ _))

def burntIn (tx : SignedTransaction) (header : BlockHeader) (intrinsic : UInt64) (t : Target)
    (view : ExecView) : ℕ :=
  if ReachesZvm tx t then (M.runZvm (zvmContext tx header intrinsic t)).tally (hostHandler P)
    (fun c s => burntBy c s.2) (startHost header t,view)
  else 0

def deletedIn (tx : SignedTransaction) (header : BlockHeader) (intrinsic : UInt64) (t : Target)
    (view : ExecView) : ℕ :=
  if ReachesZvm tx t then
    let (result,host,view) := (M.runZvm (zvmContext tx header intrinsic t)).run (hostHandler P)
      (startHost header t,view)
    if result.1 = .success then deletedWith host.createdThisTx host.pendingDestructs view else 0
  else 0

/-- The value of a creation whose address is deleted when it should be paid. -/
def unpaidValue (tx : SignedTransaction) (value : ℕ) (t : Target) (success : Bool) (view : ExecView) : ℕ :=
  match tx.tx.recipient,t.contractAddress with
  | none,some newAddr => if success && view.isDeleted newAddr then value else 0
  | _, _ => 0

def lossesOf (tx : SignedTransaction) (header : BlockHeader) (view : ExecView) : ℕ × ℕ :=
  match (debitSender tx header).runOn view with
  | (.error _,_) => (0,0)
  | (.ok charge,charged) =>
    let (target,called) := (resolveTarget P tx).run ExecView.answer charged
    let (ran,after) := (runCode P M tx header charge.intrinsic target).run ExecView.answer called
    let refund := charge.gasRefund (charge.gasUsed tx ran.2.1)
    let refunded := ((credit tx.sender refund).run ExecView.answer after).2
    (burntIn P M tx header charge.intrinsic target called,
      deletedIn P M tx header charge.intrinsic target called +
        unpaidValue tx charge.value target (ran.1 = .succeeded) refunded)

def feeCharged (tx : SignedTransaction) (gasUsed effectivePrice : UInt64) : ℕ :=
  min (tx.tx.maxFeePerGas.toNat * tx.tx.gasLimit.toNat) (gasUsed.toNat * effectivePrice.toNat)

end Audit

section Phases
variable {P : Platform} {M : Machines} {tx : SignedTransaction} {header : BlockHeader} {t : Target}
  {view : ExecView}

theorem total_deleteCreated (created : AddressSet) (pending : List (Address × Address)) (view : ExecView) :
    ((deleteCreated created pending).run ExecView.answer view).2.total + deletedWith created pending view =
      view.total := by
  induction pending generalizing view with
  | nil => simp [deleteCreated, deletedWith]
  | cons entry rest ih =>
    obtain ⟨contract,beneficiary⟩ := entry
    simp only [deleteCreated, deletedWith, Program.run_bind, Program.run_ite, run_selfdestruct]
    split
    · have hrest := ih (view.selfdestruct contract)
      have hdeleted := total_selfdestruct view contract
      omega
    · exact ih view

theorem total_hostRun {α : Type} (p : Program ZvmCall.Reply α) (host : ProductionZvmHost)
    (h : view.total ≤ maxU128) :
    (p.run (hostHandler P) (host,view)).2.2.total +
      p.tally (hostHandler P) (fun c s => burntBy c s.2) (host,view) = view.total := by
  refine (Program.run_tally (T := fun s => s.2.total) (I := fun s => s.2.total ≤ maxU128) ?_ p (host,view) h).1
  rintro c ⟨host,view⟩ hview
  have hcall := total_answer (P := P) c host hview
  exact ⟨hcall,(Nat.le.intro hcall).trans hview⟩

theorem total_drainLogs (start : ℕ) :
    ((drainLogs start).run ExecView.answer view).2.total = view.total :=
  total_of_untouched (.drainLogs start) view rfl

theorem run_runZvm (intrinsic : UInt64) {status : ZvmStatus} {used : UInt64} {host : ProductionZvmHost}
    {after : ExecView} (hr : (M.runZvm (zvmContext tx header intrinsic t)).run (hostHandler P)
      (startHost header t,view) = ((status,used),host,after)) :
    (runZvm P M tx header intrinsic t).run ExecView.answer view =
      (do
        if status = .success then deleteCreated host.createdThisTx host.pendingDestructs
        let drained ← drainLogs view.logs.length
        pure (status.exit,used,drained) : StateProgram _).run ExecView.answer after := by
  have hinterpreted : ((M.runZvm (zvmContext tx header intrinsic t)).interpret (ProductionZvmHost.answer P)
      (startHost header t)).run ExecView.answer view = (((status,used),host),after) := by
    unfold hostHandler at hr
    rw [Program.run_interpret, hr]
  unfold startHost at hinterpreted
  have hcount : logCount.run ExecView.answer view = (view.logs.length,view) := rfl
  rw [runZvm, Program.run_bind, hcount]
  simp only [Program.run_bind, hinterpreted]

theorem total_runZvm (intrinsic : UInt64) (hzvm : ReachesZvm tx t) (h : view.total ≤ maxU128) :
    ((runZvm P M tx header intrinsic t).run ExecView.answer view).2.total +
      burntIn P M tx header intrinsic t view + deletedIn P M tx header intrinsic t view = view.total := by
  have hrun := total_hostRun (P := P) (M.runZvm (zvmContext tx header intrinsic t)) (startHost header t) h
  rcases hr : (M.runZvm (zvmContext tx header intrinsic t)).run (hostHandler P) (startHost header t,view)
    with ⟨⟨status,used⟩,host,after⟩
  rw [hr] at hrun
  simp only [run_runZvm intrinsic hr, burntIn, deletedIn, if_pos hzvm, hr, Program.run_bind,
    Program.run_ite, Program.run_pure]
  split
  · have hdeleted := total_deleteCreated host.createdThisTx host.pendingDestructs after
    dsimp only at hrun ⊢
    rw [total_drainLogs]
    omega
  · dsimp only at hrun ⊢
    rwa [total_drainLogs, Nat.add_zero]

theorem runCode_of_reachesZvm (intrinsic : UInt64) (h : ReachesZvm tx t) :
    runCode P M tx header intrinsic t = runZvm P M tx header intrinsic t := by
  obtain ⟨hprecompile,hcode,hvm⟩ := h
  rw [runCode, if_neg hprecompile, if_neg hcode, if_pos hvm]

theorem view_runCode (intrinsic : UInt64) (h : ¬ ReachesZvm tx t) :
    ((runCode P M tx header intrinsic t).run ExecView.answer view).2 = view := by
  unfold runCode
  split
  · dsimp only
    split
    · rfl
    · rfl
  · rename_i hprecompile
    split
    · rfl
    · rename_i hcode
      rw [if_neg fun hvm => h ⟨hprecompile,hcode,hvm⟩]
      rfl

theorem total_runCode (intrinsic : UInt64) (tx : SignedTransaction) (header : BlockHeader) (t : Target)
    (view : ExecView) (h : view.total ≤ maxU128) :
    ((runCode P M tx header intrinsic t).run ExecView.answer view).2.total +
      burntIn P M tx header intrinsic t view + deletedIn P M tx header intrinsic t view = view.total := by
  by_cases hzvm : ReachesZvm tx t
  · rw [runCode_of_reachesZvm intrinsic hzvm, total_runZvm intrinsic hzvm h]
  · have hburnt : burntIn P M tx header intrinsic t view = 0 := if_neg hzvm
    have hdeleted : deletedIn P M tx header intrinsic t view = 0 := if_neg hzvm
    rw [view_runCode intrinsic hzvm]
    omega

theorem wei_resolveTarget (P : Platform) (tx : SignedTransaction) (view : ExecView) :
    ((resolveTarget P tx).run ExecView.answer view).2.wei = view.wei := by
  unfold resolveTarget
  split
  · dsimp only
    generalize (if decide (tx.tx.data.head? = some zvmDeployDiscriminator) = true then tx.tx.data.tail
      else tx.tx.data) = code
    generalize (if decide (tx.tx.data.head? = some zvmDeployDiscriminator) = true then VmKind.zvm
      else .evm) = vm
    simp only [Program.run_bind, Program.run_ite, run_seedCode, run_getAccount, run_setAccount,
      Program.run_pure]
    split
    · dsimp only
      have hseeded : (view.seedCode (P.keccak256 code) code).wei = view.wei :=
        wei_of_untouched (show StateAccess.touches (.seedCode (P.keccak256 code) code) = false from rfl) view
      rw [← hseeded]
      refine wei_keepBalance ?_
      rfl
    · rfl
  · rw [Program.run_bind, run_getAccount, Program.run_ite]
    split
    · simp only [Program.run_bind, run_getCode, Program.run_pure]
    · rfl

theorem total_resolveTarget (P : Platform) (tx : SignedTransaction) (view : ExecView) :
    ((resolveTarget P tx).run ExecView.answer view).2.total = view.total :=
  total_of_wei (wei_resolveTarget P tx view)

/-- An accepted debit: the sender can pay the highest cost and the value, and is charged both. -/
structure Debited (tx : SignedTransaction) (header : BlockHeader) (view : ExecView) (charge : Charge)
    (view' : ExecView) : Prop where
  charged : charge = ⟨tx.effectiveGasPrice header.baseFeePerGas,
    tx.tx.maxFeePerGas.toNat * tx.tx.gasLimit.toNat,tx.tx.valueU128,tx.tx.intrinsicGas⟩
  affordable : saturatingAdd128 charge.maxCost charge.value ≤ (view.getAccount tx.sender).balanceU128
  debited : ∃ nonce, view' = view.setAccount tx.sender { (view.getAccount tx.sender).setBalanceU128
    ((view.getAccount tx.sender).balanceU128 - (charge.maxCost + charge.value) % 2 ^ 128) with
      nonce := nonce }

theorem debitSender_ok {charge : Charge} {view' : ExecView}
    (h : (debitSender tx header).runOn view = (.ok charge,view')) : Debited tx header view charge view' := by
  unfold debitSender at h
  simp only [TxProgram.runOn_bind, TxProgram.runOn_lift, TxProgram.runOn_ite, TxProgram.runOn_throw,
    run_getAccount] at h
  split_ifs at h with hnonce hbalance hintrinsic
  · cases h
  · cases h
  · cases h
  · unfold AccountState.incrementNonce at h
    split_ifs at h with hroom
    · simp only [TxProgram.runOn_bind, TxProgram.runOn_lift, TxProgram.runOn_pure, run_setAccount] at h
      cases h
      exact ⟨rfl,not_lt.mp hbalance,_,rfl⟩
    · cases h

theorem Debited.total {charge : Charge} {view' : ExecView} (h : Debited tx header view charge view')
    (htotal : view.total ≤ maxU128) (hwrap : charge.maxCost + charge.value ≤ maxU128) :
    view'.total + (charge.maxCost + charge.value) = view.total := by
  obtain ⟨-,haffordable,nonce,rfl⟩ := h
  have hle := wei_le_total view tx.sender
  rw [balanceU128_getAccount htotal, saturatingAdd128] at haffordable
  rw [balanceU128_getAccount htotal]
  have hmod : (charge.maxCost + charge.value) % 2 ^ 128 = charge.maxCost + charge.value :=
    Nat.mod_eq_of_lt (Nat.lt_of_le_of_lt hwrap (by decide))
  have hset := total_setAccount view tx.sender { (view.getAccount tx.sender).setBalanceU128
    (view.wei tx.sender - (charge.maxCost + charge.value) % 2 ^ 128) with nonce := nonce }
  rw [hmod] at hset ⊢
  change _ = view.total + ((view.getAccount tx.sender).setBalanceU128
    (view.wei tx.sender - (charge.maxCost + charge.value))).balance.toNat at hset
  rw [toNat_setBalanceU128 (by omega)] at hset
  omega

theorem resolveTarget_creation (P : Platform) (tx : SignedTransaction) (view : ExecView)
    (hcreation : tx.tx.recipient = none) :
    ((resolveTarget P tx).run ExecView.answer view).1.contractAddress = some (createAddress P tx) := by
  unfold resolveTarget
  rw [hcreation]
  dsimp only
  generalize (if decide (tx.tx.data.head? = some zvmDeployDiscriminator) = true then tx.tx.data.tail
    else tx.tx.data) = code
  simp only [Program.run_bind, Program.run_ite, Program.run_pure]
  split
  · rfl
  · rfl

theorem unpaidValue_of_recipient {value : ℕ} {success : Bool} {dest : Address}
    (h : tx.tx.recipient = some dest) : unpaidValue tx value t success view = 0 := by
  unfold unpaidValue
  rw [h]

theorem unpaidValue_of_creation {value : ℕ} {success : Bool} {newAddr : Address}
    (h : tx.tx.recipient = none) (hnew : t.contractAddress = some newAddr) :
    unpaidValue tx value t success view = if success && view.isDeleted newAddr then value else 0 := by
  unfold unpaidValue
  rw [h, hnew]

theorem total_settleCreation {value : ℕ} {newAddr : Address} (hcreation : tx.tx.recipient = none)
    (hnew : t.contractAddress = some newAddr) (h : view.total + value ≤ maxU128) :
    ((settleValue tx value t true).run ExecView.answer view).2.total =
      if view.isDeleted newAddr then view.total else view.total + value := by
  have hle := wei_le_total view newAddr
  unfold settleValue
  rw [if_pos rfl, hcreation, hnew]
  dsimp only
  rw [Program.run_bind, run_isDeleted, Program.run_ite]
  split
  · rfl
  · simp only [Program.run_bind, run_getAccount, run_setAccount]
    rw [balanceU128_getAccount (by omega)]
    generalize hacct : (if 0 < value then (view.getAccount newAddr).setBalanceU128
      (saturatingAdd128 (view.wei newAddr) value) else view.getAccount newAddr) = acct
    have hpaid : acct.balance.toNat = view.wei newAddr + value := by
      rw [← hacct]
      split
      · have hroom : saturatingAdd128 (view.wei newAddr) value = view.wei newAddr + value :=
          min_eq_left (by omega)
        rw [hroom, toNat_setBalanceU128 (by omega)]
      · have hzero : value = 0 := by omega
        rw [hzero]
        rfl
    have hset := total_setAccount view newAddr { acct with
      vm := if t.vm = .zvm then .zvm else acct.vm }
    dsimp only at hset ⊢
    omega

theorem total_settleValue (tx : SignedTransaction) (t : Target) (view : ExecView) (value : ℕ) (success : Bool)
    (hcreation : tx.tx.recipient = none → t.contractAddress.isSome) (h : view.total + value ≤ maxU128) :
    ((settleValue tx value t success).run ExecView.answer view).2.total +
      unpaidValue tx value t success view = view.total + value := by
  cases hrecipient : tx.tx.recipient with
  | some dest =>
    rw [unpaidValue_of_recipient hrecipient]
    unfold settleValue
    rw [hrecipient]
    split
    · exact (Nat.add_zero _).trans (total_credit_of_small _ _ _ h)
    · exact (Nat.add_zero _).trans (total_credit_of_small _ _ _ h)
  | none =>
    obtain ⟨newAddr,hnew⟩ := Option.isSome_iff_exists.mp (hcreation hrecipient)
    rw [unpaidValue_of_creation hrecipient hnew]
    cases success with
    | false => exact (Nat.add_zero _).trans (total_credit_of_small _ _ _ h)
    | true =>
      rw [total_settleCreation hrecipient hnew h, Bool.true_and]
      split
      · rfl
      · rfl

theorem Debited.fits {charge : Charge} {charged : ExecView} (h : Debited tx header view charge charged)
    (htotal : view.total ≤ maxU128) (hwrap : view.total < maxU128 ∨
      tx.tx.maxFeePerGas.toNat * tx.tx.gasLimit.toNat + tx.tx.valueU128 ≤ maxU128) :
    charge.maxCost + charge.value ≤ maxU128 := by
  have hle := wei_le_total view tx.sender
  have haffordable := h.affordable
  rw [balanceU128_getAccount htotal, saturatingAdd128] at haffordable
  rw [h.charged] at haffordable ⊢
  dsimp only at haffordable ⊢
  omega

theorem Charge.refunded (charge : Charge) (gasUsed : UInt64) :
    charge.gasRefund gasUsed + min charge.maxCost (gasUsed.toNat * charge.effectivePrice.toNat) =
      charge.maxCost := by
  unfold Charge.gasRefund
  omega

theorem total_executeTx {result : TxResult} {view' : ExecView} (htotal : view.total ≤ maxU128)
    (hwrap : view.total < maxU128 ∨
      tx.tx.maxFeePerGas.toNat * tx.tx.gasLimit.toNat + tx.tx.valueU128 ≤ maxU128)
    (h : (executeTx P M tx header).runOn view = (.ok result,view')) :
    view'.total + feeCharged tx result.gasUsed result.effectivePrice + (lossesOf P M tx header view).1 +
      (lossesOf P M tx header view).2 = view.total := by
  unfold executeTx at h
  unfold lossesOf
  rw [TxProgram.runOn_bind] at h
  rcases hdebit : (debitSender tx header).runOn view with ⟨e | charge,charged⟩
  · rw [hdebit] at h
    cases h
  · rw [hdebit] at h
    have hdebited := debitSender_ok hdebit
    have hfits := hdebited.fits htotal hwrap
    have hcharged := hdebited.total htotal hfits
    have hcalled := total_resolveTarget P tx charged
    have hcreation := resolveTarget_creation P tx charged
    simp only [TxProgram.runOn_bind, TxProgram.runOn_lift, TxProgram.runOn_pure] at h
    dsimp only
    generalize (resolveTarget P tx).run ExecView.answer charged = resolved at h hcalled hcreation ⊢
    obtain ⟨target,called⟩ := resolved
    dsimp only at h hcalled hcreation ⊢
    have hran := total_runCode (M := M) (P := P) charge.intrinsic tx header target called (by omega)
    generalize (runCode P M tx header charge.intrinsic target).run ExecView.answer called = ran
      at h hran ⊢
    obtain ⟨⟨exit,used,logs⟩,after⟩ := ran
    dsimp only at h hran ⊢
    have hrefund := charge.refunded (charge.gasUsed tx used)
    have hrefunded := total_credit_of_small after tx.sender (charge.gasRefund (charge.gasUsed tx used))
      (by omega)
    have hsettled := total_settleValue tx target ((credit tx.sender (charge.gasRefund
      (charge.gasUsed tx used))).run ExecView.answer after).2 charge.value (decide (exit = .succeeded))
        (fun hnone => by rw [hcreation hnone]; rfl) (by omega)
    cases h
    rw [feeCharged]
    have hmaxCost : charge.maxCost = tx.tx.maxFeePerGas.toNat * tx.tx.gasLimit.toNat := by
      rw [hdebited.charged]
    dsimp only
    rw [← hmaxCost]
    omega

def StakingPrecompile.KeepsTotal {V K : Type} (S : StakingPrecompile V K) : Prop :=
  ∀ call sender value height state view, view.total ≤ maxU128 →
    ((S.dispatch call sender value height state).run ExecView.answer view).2.total = view.total

def dispatchPayload {V K : Type} (S : StakingPrecompile V K) (tx : SignedTransaction) (header : BlockHeader)
    (value : ℕ) (state : V) : StateProgram (V × Option UInt64) :=
  match S.decode tx.tx.data with
  | none => pure (state,none)
  | some call =>
    if S.isFileAppeal call then pure (state,none)
    else S.dispatch call tx.sender value header.number state

theorem executeStakingTx_eq {V K : Type} (S : StakingPrecompile V K) (tx : SignedTransaction)
    (header : BlockHeader) (state : V) :
    executeStakingTx S tx header state = (do
      let charge ← debitSender tx header
      let (state,dispatched) ← dispatchPayload S tx header charge.value state
      let gasUsed := charge.gasUsed tx (dispatched.getD 0)
      credit tx.sender (charge.gasRefund gasUsed)
      if dispatched.isSome then
        if 0 < charge.value then credit stakingPrecompileAddr charge.value
      else credit tx.sender charge.value
      pure (state,⟨gasUsed,charge.effectivePrice,dispatched.isSome,[],none⟩)) := rfl

theorem StakingPrecompile.KeepsTotal.dispatchPayload {V K : Type} {S : StakingPrecompile V K} (hkeeps : S.KeepsTotal)
    {value : ℕ} {state : V} (h : view.total ≤ maxU128) :
    ((dispatchPayload S tx header value state).run ExecView.answer view).2.total = view.total := by
  unfold ZbxChain.dispatchPayload
  cases S.decode tx.tx.data with
  | none => rfl
  | some call =>
    dsimp only
    split
    · rfl
    · exact hkeeps call _ _ _ _ view h

/-- A staking transaction takes its fee from the view, and nothing else. -/
theorem total_executeStakingTx {V K : Type} {S : StakingPrecompile V K} (hkeeps : S.KeepsTotal) {state : V}
    {r : V × TxResult} {view' : ExecView} (htotal : view.total ≤ maxU128)
    (hwrap : view.total < maxU128 ∨
      tx.tx.maxFeePerGas.toNat * tx.tx.gasLimit.toNat + tx.tx.valueU128 ≤ maxU128)
    (h : (executeStakingTx S tx header state).runOn view = (.ok r,view')) :
    view'.total + feeCharged tx r.2.gasUsed r.2.effectivePrice = view.total := by
  rw [executeStakingTx_eq, TxProgram.runOn_bind] at h
  rcases hdebit : (debitSender tx header).runOn view with ⟨e | charge,charged⟩
  · rw [hdebit] at h
    cases h
  · rw [hdebit] at h
    have hdebited := debitSender_ok hdebit
    have hfits := hdebited.fits htotal hwrap
    have hcharged := hdebited.total htotal hfits
    have hafter : ((dispatchPayload S tx header charge.value state).run ExecView.answer charged).2.total =
        charged.total := hkeeps.dispatchPayload (by omega)
    simp only [TxProgram.runOn_bind, TxProgram.runOn_lift, TxProgram.runOn_ite, TxProgram.runOn_pure] at h
    generalize (dispatchPayload S tx header charge.value state).run ExecView.answer charged = ran at h hafter
    obtain ⟨⟨state',dispatched⟩,after⟩ := ran
    dsimp only at h hafter
    have hrefund := charge.refunded (charge.gasUsed tx (dispatched.getD 0))
    have hrefunded := total_credit_of_small after tx.sender (charge.gasRefund (charge.gasUsed tx
      (dispatched.getD 0))) (by omega)
    have hmaxCost : charge.maxCost = tx.tx.maxFeePerGas.toNat * tx.tx.gasLimit.toNat := by
      rw [hdebited.charged]
    rw [feeCharged, ← hmaxCost]
    generalize ((credit tx.sender (charge.gasRefund (charge.gasUsed tx (dispatched.getD 0)))).run ExecView.answer
      after).2 = refunded at h hrefunded
    have hcredit : ∀ addr, ((credit addr charge.value).run ExecView.answer refunded).2.total =
        refunded.total + charge.value :=
      fun addr => total_credit_of_small refunded addr charge.value (by omega)
    split at h
    · split at h
      · cases h
        have hescrow := hcredit stakingPrecompileAddr
        dsimp only
        omega
      · cases h
        dsimp only
        omega
    · cases h
      have hback := hcredit tx.sender
      dsimp only
      omega

end Phases

section Prices

theorem tip_le_maxFee (tx : SignedTransaction) (baseFee : UInt64) :
    (saturatingSub64 (tx.effectiveGasPrice baseFee) baseFee).toNat ≤ tx.tx.maxFeePerGas.toNat := by
  have hbase := baseFee.toNat_lt
  have hmax := tx.tx.maxFeePerGas.toNat_lt
  rw [toNat_saturatingSub64, SignedTransaction.effectiveGasPrice, UInt64.toNat_add, toNat_min64,
    toNat_saturatingSub64]
  omega

theorem gasUsed_le (charge : Charge) (tx : SignedTransaction) (used : UInt64) :
    (charge.gasUsed tx used).toNat ≤ tx.tx.gasLimit.toNat := by
  rw [Charge.gasUsed, toNat_min64]
  exact min_le_right _ _

end Prices

section Blocks
variable {V K : Type} (P : Platform) (M : Machines) (S : StakingPrecompile V K) (C : Commitments)

def tipPaid (header : BlockHeader) (receipt : TransactionReceipt) : ℕ :=
  (saturatingSub64 receipt.effectiveGasPrice header.baseFeePerGas).toNat * receipt.gasUsed.toNat

def feesKept (header : BlockHeader) (txs : List SignedTransaction) (receipts : List TransactionReceipt) :
    ℕ :=
  ((txs.zip receipts).map (fun e =>
    feeCharged e.1 e.2.gasUsed e.2.effectiveGasPrice - tipPaid header e.2)).sum

def lossesAny (validators : Option V) (tx : SignedTransaction) (header : BlockHeader) (view : ExecView) : ℕ × ℕ :=
  if validators.isSome ∧ isStakingDestination tx.tx.recipient then (0,0) else lossesOf P M tx header view

def lossesThrough (block : Block) : Progress V → List SignedTransaction → ExecView → ℕ × ℕ
  | _, [], _ => (0,0)
  | progress, tx :: rest, view =>
    match (executeOne P M S C block progress tx).runOn view with
    | (.ok next,after) =>
      let (burnt,lost) := lossesThrough block next rest after
      ((lossesAny P M progress.validators tx block.header view).1 + burnt,
        (lossesAny P M progress.validators tx block.header view).2 + lost)
    | (.error _,_) => (0,0)

def lossesAll (block : Block) : Progress V → List SignedTransaction → ExecView → ℕ × ℕ
  | _, [], _ => (0,0)
  | progress, tx :: rest, view =>
    match (executeOne P M S C block progress tx).runOn view with
    | (.ok progress,after) =>
      let (burnt,lost) := lossesAll block progress rest after
      ((lossesOf P M tx block.header view).1 + burnt,(lossesOf P M tx block.header view).2 + lost)
    | (.error _,_) => (0,0)

end Blocks

section Blocks
variable {V K : Type} {P : Platform} {M : Machines} {S : StakingPrecompile V K} {C : Commitments}
  {tx : SignedTransaction} {header : BlockHeader} {view view' : ExecView}

def ChargedWithin (header : BlockHeader) (tx : SignedTransaction) (result : TxResult) : Prop :=
  result.effectivePrice = tx.effectiveGasPrice header.baseFeePerGas ∧
    result.gasUsed.toNat ≤ tx.tx.gasLimit.toNat

theorem charged_executeTx (tx : SignedTransaction) :
    (executeTx P M tx header).Yields (ChargedWithin header tx) := by
  unfold executeTx
  refine .bind (yields_debitSender tx header) fun charge hcharge => ?_
  refine .bind .any fun target _ => .bind .any fun ran _ => ?_
  exact .bind .any fun _ _ => .bind .any fun _ _ => .pure ⟨by rw [hcharge.1],gasUsed_le _ _ _⟩

theorem charged_executeStakingTx (tx : SignedTransaction) (state : V) :
    (executeStakingTx S tx header state).Yields fun r => ChargedWithin header tx r.2 := by
  rw [executeStakingTx_eq]
  refine .bind (yields_debitSender tx header) fun charge hcharge => .bind .any fun dispatched _ => ?_
  have hwithin : ChargedWithin header tx ⟨charge.gasUsed tx (dispatched.2.getD 0),charge.effectivePrice,
      dispatched.2.isSome,[],none⟩ := ⟨by rw [hcharge.1],gasUsed_le _ _ _⟩
  refine .bind .any fun _ _ => ?_
  split
  · split
    · exact .bind .any fun _ _ => .pure hwithin
    · exact .pure hwithin
  · exact .bind .any fun _ _ => .pure hwithin

theorem tip_le_fee {result : TxResult} (h : ChargedWithin header tx result) :
    validatorFee header result ≤ feeCharged tx result.gasUsed result.effectivePrice := by
  obtain ⟨hprice,hgas⟩ := h
  have htip := tip_le_maxFee tx header.baseFeePerGas
  have hover : (saturatingSub64 result.effectivePrice header.baseFeePerGas).toNat ≤
      result.effectivePrice.toNat := by
    rw [toNat_saturatingSub64]
    exact Nat.sub_le _ _
  unfold validatorFee feeCharged
  refine le_min ?_ ?_
  · rw [hprice]
    exact Nat.mul_le_mul htip hgas
  · rw [Nat.mul_comm]
    exact Nat.mul_le_mul_left _ hover

theorem executeAny_cases {validators : Option V} {r : Option V × TxResult}
    (h : (executeAny P M S tx header validators).runOn view = (.ok r,view')) :
    (∃ state result, validators = some state ∧ isStakingDestination tx.tx.recipient = true ∧
        r = (some result.1,result.2) ∧ (executeStakingTx S tx header state).runOn view = (.ok result,view')) ∨
      (¬(validators.isSome ∧ isStakingDestination tx.tx.recipient) ∧
        ∃ result, r = (validators,result) ∧ (executeTx P M tx header).runOn view = (.ok result,view')) := by
  have hplain : ∀ kept : Option V, (do
        let result ← executeTx P M tx header
        pure (kept,result) : TxProgram (Option V × TxResult)).runOn view = (.ok r,view') →
      ∃ result, r = (kept,result) ∧ (executeTx P M tx header).runOn view = (.ok result,view') := by
    intro kept hrun
    rw [TxProgram.runOn_bind] at hrun
    rcases hexecuted : (executeTx P M tx header).runOn view with ⟨e | result,after⟩
    · rw [hexecuted] at hrun
      cases hrun
    · rw [hexecuted] at hrun
      cases hrun
      exact ⟨result,rfl,rfl⟩
  unfold executeAny at h
  cases validators with
  | none => exact .inr ⟨(fun hboth => by cases hboth.1),hplain none h⟩
  | some state =>
    dsimp only at h
    split at h
    · rename_i hstaking
      rw [TxProgram.runOn_bind] at h
      rcases hexecuted : (executeStakingTx S tx header state).runOn view with ⟨e | result,after⟩
      · rw [hexecuted] at h
        cases h
      · rw [hexecuted] at h
        cases h
        exact .inl ⟨state,result,rfl,hstaking,rfl,hexecuted⟩
    · rename_i hother
      exact .inr ⟨fun hboth => hother hboth.2,hplain (some state) h⟩

theorem total_executeAny {validators : Option V} (hkeeps : validators.isSome → S.KeepsTotal)
    {r : Option V × TxResult} (htotal : view.total ≤ maxU128)
    (hwrap : view.total < maxU128 ∨
      tx.tx.maxFeePerGas.toNat * tx.tx.gasLimit.toNat + tx.tx.valueU128 ≤ maxU128)
    (h : (executeAny P M S tx header validators).runOn view = (.ok r,view')) :
    r.1.isSome = validators.isSome ∧ ChargedWithin header tx r.2 ∧
      view'.total + feeCharged tx r.2.gasUsed r.2.effectivePrice +
        (lossesAny P M validators tx header view).1 + (lossesAny P M validators tx header view).2 =
          view.total := by
  obtain ⟨state,result,rfl,hstaking,rfl,hexecuted⟩ | ⟨hother,result,rfl,hexecuted⟩ := executeAny_cases h
  · refine ⟨rfl,charged_executeStakingTx tx state view result view' hexecuted,?_⟩
    rw [lossesAny, if_pos ⟨rfl,hstaking⟩]
    exact total_executeStakingTx (hkeeps rfl) htotal hwrap hexecuted
  · refine ⟨rfl,charged_executeTx tx view result view' hexecuted,?_⟩
    rw [lossesAny, if_neg hother]
    exact total_executeTx htotal hwrap hexecuted

theorem total_executeOne {block : Block} {progress progress' : Progress V}
    (hkeeps : progress.validators.isSome → S.KeepsTotal) (htotal : view.total ≤ maxU128)
    (hwrap : view.total < maxU128 ∨
      tx.tx.maxFeePerGas.toNat * tx.tx.gasLimit.toNat + tx.tx.valueU128 ≤ maxU128)
    (h : (executeOne P M S C block progress tx).runOn view = (.ok progress',view')) :
    ∃ receipt, progress'.validators.isSome = progress.validators.isSome ∧
      progress'.receipts = progress.receipts ++ [receipt] ∧
      view'.total + (feeCharged tx receipt.gasUsed receipt.effectiveGasPrice -
        tipPaid block.header receipt) + (lossesAny P M progress.validators tx block.header view).1 +
          (lossesAny P M progress.validators tx block.header view).2 = view.total := by
  unfold executeOne at h
  simp only [TxProgram.runOn_bind, TxProgram.runOn_lift, TxProgram.runOn_pure] at h
  rcases hexecuted : (executeAny P M S tx block.header progress.validators).runOn view with ⟨e | r,after⟩
  · rw [hexecuted] at h
    cases h
  · rw [hexecuted] at h
    obtain ⟨hsome,hcharged,hafter⟩ := total_executeAny hkeeps htotal hwrap hexecuted
    have htip := tip_le_fee hcharged
    have hpaid := total_credit_of_small after block.header.coinbase (validatorFee block.header r.2)
      (by omega)
    cases h
    refine ⟨_,hsome,rfl,?_⟩
    dsimp only [receiptOf, tipPaid]
    rw [hpaid]
    change _ + (_ - validatorFee block.header r.2) + _ + _ = _
    omega

def NoWrap (block : Block) (view : ExecView) : Prop :=
  view.total < maxU128 ∨ ∀ tx ∈ block.body.transactions,
    tx.tx.maxFeePerGas.toNat * tx.tx.gasLimit.toNat + tx.tx.valueU128 ≤ maxU128

/-- The money of a list of transactions: fees, burns and losses leave it. -/
theorem total_executeAll {block : Block} (txs : List SignedTransaction) {progress progress' : Progress V}
    (hkeeps : progress.validators.isSome → S.KeepsTotal) (htotal : view.total ≤ maxU128)
    (hwrap : view.total < maxU128 ∨ ∀ tx ∈ txs,
      tx.tx.maxFeePerGas.toNat * tx.tx.gasLimit.toNat + tx.tx.valueU128 ≤ maxU128)
    (h : (executeAll P M S C block progress txs).runOn view = (.ok progress',view')) :
    ∃ receipts, progress'.receipts = progress.receipts ++ receipts ∧
      view'.total + feesKept block.header txs receipts + (lossesThrough P M S C block progress txs view).1 +
        (lossesThrough P M S C block progress txs view).2 = view.total := by
  induction txs generalizing progress view with
  | nil =>
    have hlosses : lossesThrough P M S C block progress [] view = (0,0) := rfl
    have hfees : feesKept block.header [] [] = 0 := rfl
    cases h
    refine ⟨[],(List.append_nil _).symm,?_⟩
    rw [hlosses, hfees]
    omega
  | cons tx rest ih =>
    unfold executeAll at h
    unfold lossesThrough
    rw [TxProgram.runOn_bind] at h
    rcases hone : (executeOne P M S C block progress tx).runOn view with ⟨e | next,after⟩
    · rw [hone] at h
      cases h
    · rw [hone] at h
      dsimp only at h ⊢
      obtain ⟨receipt,hnext,hreceipts,hstep⟩ := total_executeOne hkeeps htotal
        (hwrap.imp_right fun hall => hall tx (List.mem_cons_self ..)) hone
      have hle : after.total ≤ view.total := by omega
      obtain ⟨receipts,hrest,htail⟩ := ih (fun hsome => hkeeps (hnext ▸ hsome)) (hle.trans htotal)
        (hwrap.imp (fun hlt => lt_of_le_of_lt hle hlt)
          (fun hall tx' htx => hall tx' (List.mem_cons_of_mem _ htx))) h
      refine ⟨receipt :: receipts,?_,?_⟩
      · rw [hrest, hreceipts, List.append_assoc]
        rfl
      · have hfees : feesKept block.header (tx :: rest) (receipt :: receipts) =
          (feeCharged tx receipt.gasUsed receipt.effectiveGasPrice - tipPaid block.header receipt) +
            feesKept block.header rest receipts := rfl
        rw [hfees]
        omega

theorem lossesThrough_none {block : Block} (txs : List SignedTransaction) {progress : Progress V}
    (hnone : progress.validators = none) :
    lossesThrough P M S C block progress txs view = lossesAll P M S C block progress txs view := by
  induction txs generalizing progress view with
  | nil => rfl
  | cons tx rest ih =>
    have hplain : lossesAny P M progress.validators tx block.header view = lossesOf P M tx block.header view := by
      rw [hnone, lossesAny, if_neg (fun hboth => by cases hboth.1)]
    unfold lossesThrough lossesAll
    rw [hplain]
    rcases hone : (executeOne P M S C block progress tx).runOn view with ⟨e | next,after⟩
    · rfl
    · have hnext : next.validators = none := by
        unfold executeOne executeAny at hone
        rw [hnone] at hone
        simp only [TxProgram.runOn_bind, TxProgram.runOn_lift, TxProgram.runOn_pure] at hone
        rcases hexecuted : (executeTx P M tx block.header).runOn view with ⟨e | result,view'⟩
        · rw [hexecuted] at hone
          cases hone
        · rw [hexecuted] at hone
          cases hone
          rfl
      dsimp only
      rw [ih hnext]

/-- The view to which the block reward is added. -/
def beforeReward (P : Platform) (M : Machines) (S : StakingPrecompile V K) (C : Commitments) (block : Block)
    (view : ExecView) : ExecView :=
  ((executeAll P M S C block ⟨none,0,[]⟩ block.body.transactions).runOn view).2

def lossesOfBlock (P : Platform) (M : Machines) (S : StakingPrecompile V K) (C : Commitments) (block : Block)
    (view : ExecView) : ℕ × ℕ :=
  lossesAll P M S C block ⟨none,0,[]⟩ block.body.transactions view

/-- What of the reward does not fit into the balance of the coinbase. -/
def rewardCut (P : Platform) (M : Machines) (S : StakingPrecompile V K) (C : Commitments) (block : Block)
    (view : ExecView) : ℕ :=
  (beforeReward P M S C block view).wei block.header.coinbase + blockRewardAt block.number - maxU128

def rewardCutAfter (P : Platform) (M : Machines) (S : StakingPrecompile V K) (C : Commitments) (block : Block)
    (validators : Option V) (view : ExecView) : ℕ :=
  ((executeAll P M S C block ⟨validators,0,[]⟩ block.body.transactions).runOn view).2.wei block.header.coinbase +
    blockRewardAt block.number - maxU128

theorem runBlock_ok {block : Block} {validators : Option V} {progress : Progress V}
    (h : (runBlock P M S C block validators).runOn view = (.ok progress,view')) :
    ∃ after, (executeAll P M S C block ⟨validators,0,[]⟩ block.body.transactions).runOn view = (.ok progress,after) ∧
      view' = if 0 < blockRewardAt block.number then
        ((credit block.header.coinbase (blockRewardAt block.number)).run ExecView.answer after).2 else after := by
  unfold runBlock at h
  rw [TxProgram.runOn_ite] at h
  split at h
  · cases h
  · rw [TxProgram.runOn_bind] at h
    rcases hall : (executeAll P M S C block ⟨validators,0,[]⟩ block.body.transactions).runOn view
      with ⟨e | last,after⟩
    · rw [hall] at h
      cases h
    · rw [hall] at h
      simp only [TxProgram.runOn_ite, TxProgram.runOn_bind, TxProgram.runOn_lift, TxProgram.runOn_pure] at h
      split at h
      · rename_i hreward
        cases h
        exact ⟨_,rfl,(if_pos hreward).symm⟩
      · rename_i hzero
        cases h
        exact ⟨_,rfl,(if_neg hzero).symm⟩

section Rewarded
variable {block : Block} {validators : Option V} {progress : Progress V}
  (hkeeps : validators.isSome → S.KeepsTotal) (htotal : view.total ≤ maxU128) (hwrap : NoWrap block view)
  (h : (runBlock P M S C block validators).runOn view = (.ok progress,view'))
include hkeeps htotal hwrap h

/-- The money of a block, with its reward, with or without validators. -/
theorem total_runBlockAny :
    view'.total + feesKept block.header block.body.transactions progress.receipts +
      (lossesThrough P M S C block ⟨validators,0,[]⟩ block.body.transactions view).1 +
        (lossesThrough P M S C block ⟨validators,0,[]⟩ block.body.transactions view).2 +
          rewardCutAfter P M S C block validators view = view.total + blockRewardAt block.number := by
  obtain ⟨after,hall,rfl⟩ := runBlock_ok h
  obtain ⟨receipts,hreceipts,hsum⟩ := total_executeAll block.body.transactions hkeeps htotal hwrap hall
  have hcut : rewardCutAfter P M S C block validators view =
      after.wei block.header.coinbase + blockRewardAt block.number - maxU128 := by
    rw [rewardCutAfter, hall]
  have hle := wei_le_total after block.header.coinbase
  have hcredit := total_credit after block.header.coinbase (blockRewardAt block.number) (by omega)
  rw [hcut, hreceipts, List.nil_append]
  split
  · omega
  · omega

/-- The coinbase has no more than all accounts before the block. -/
theorem rewardCutAfter_le :
    rewardCutAfter P M S C block validators view ≤ view.total + blockRewardAt block.number - maxU128 := by
  obtain ⟨after,hall,-⟩ := runBlock_ok h
  obtain ⟨receipts,-,hsum⟩ := total_executeAll block.body.transactions hkeeps htotal hwrap hall
  have hle := wei_le_total after block.header.coinbase
  rw [rewardCutAfter, hall]
  dsimp only
  omega

theorem wei_runBlock_le (addr : Address) : view'.wei addr ≤ maxU128 := by
  obtain ⟨after,hall,rfl⟩ := runBlock_ok h
  obtain ⟨receipts,-,hsum⟩ := total_executeAll block.body.transactions hkeeps htotal hwrap hall
  have hafter : after.wei addr ≤ maxU128 := by
    have hle := wei_le_total after addr
    omega
  split
  · simp only [credit, Program.run_bind, run_getAccount, run_setAccount, wei_setAccount]
    split
    · have hcut : saturatingAdd128 (after.getAccount block.header.coinbase).balanceU128
          (blockRewardAt block.number) ≤ maxU128 := min_le_right _ _
      rw [toNat_setBalanceU128 hcut]
      exact hcut
    · exact hafter
  · exact hafter

end Rewarded

theorem total_runBlock {block : Block} {progress : Progress V} (htotal : view.total ≤ maxU128)
    (hwrap : NoWrap block view)
    (h : (runBlock P M S C block none).runOn view = (.ok progress,view')) :
    view'.total + feesKept block.header block.body.transactions progress.receipts +
      (lossesOfBlock P M S C block view).1 + (lossesOfBlock P M S C block view).2 +
        rewardCut P M S C block view = view.total + blockRewardAt block.number := by
  unfold lossesOfBlock
  rw [← lossesThrough_none block.body.transactions rfl]
  exact total_runBlockAny (fun hsome => by cases hsome) htotal hwrap h

end Blocks

section Conserved

/-- The money of a block is conserved exactly if no deleted account held any, no creation
lost its value, and the reward fits into the balance of the coinbase. -/
theorem value_conserved_iff {V K : Type} (P : Platform) (M : Machines) (S : StakingPrecompile V K)
    (C : Commitments) (block : Block) (view after : ExecView) (progress : Progress V)
    (htotal : view.total < 2 ^ 128) (hwrap : NoWrap block view)
    (h : (runBlock P M S C block none).runOn view = (.ok progress,after)) :
    after.total + feesKept block.header block.body.transactions progress.receipts +
        (lossesOfBlock P M S C block view).1 = view.total + blockRewardAt block.number ↔
      (lossesOfBlock P M S C block view).2 = 0 ∧ rewardCut P M S C block view = 0 := by
  have hmoney := total_runBlock (Nat.le_of_lt_succ htotal) hwrap h
  omega

theorem value_conserved_transfer : ∃ progress after,
    (runBlock .integers idleMachines idleStaking.toStakingPrecompile zeroCommitments
      (transferBlock 1 ⟨0,5,6⟩) none).runOn richView = (.ok progress,after) ∧
    after.total + feesKept (transferBlock 1 ⟨0,5,6⟩).header (transferBlock 1 ⟨0,5,6⟩).body.transactions
        progress.receipts + (lossesOfBlock .integers idleMachines idleStaking.toStakingPrecompile
          zeroCommitments (transferBlock 1 ⟨0,5,6⟩) richView).1 =
      richView.total + blockRewardAt (transferBlock 1 ⟨0,5,6⟩).number := by
  have htotal : richView.total = 1000000000 := total_seedAccount_new _ _
  have hok : ((runBlock .integers idleMachines idleStaking.toStakingPrecompile zeroCommitments
      (transferBlock 1 ⟨0,5,6⟩) none).runOn richView).1.isOk = true := by decide +kernel
  rcases hrun : (runBlock .integers idleMachines idleStaking.toStakingPrecompile zeroCommitments
    (transferBlock 1 ⟨0,5,6⟩) none).runOn richView with ⟨e | progress,after⟩
  · rw [hrun] at hok
    cases hok
  · refine ⟨progress,after,rfl,(value_conserved_iff .integers idleMachines
      idleStaking.toStakingPrecompile zeroCommitments _ richView after progress ?_ ?_ hrun).mpr
        ⟨by decide +kernel,by decide +kernel⟩⟩
    · rw [htotal]
      decide
    · refine Or.inl ?_
      rw [htotal]
      decide

def zvmMachines : Machines :=
  { idleMachines with runZvm := Zvm.runForExecutor .integers Zvm.noPrecompiles }

/-- A creation with value 5, whose code is `CALLER SELFDESTRUCT`. -/
def vanishingCreation : Block :=
  { header := { (plainBlock 1 0).header with gasLimit := 100000 }
    body := ⟨[⟨{ legacyTransfer 3 [] with
      gasLimit := 100000
      recipient := none
      data := [0x5A,0x33,0xFF] },⟨0,5,6⟩,1,77⟩],[]⟩ }

/-- The value of a creation that destroys itself is gone. -/
theorem value_not_conserved : ¬ ∀ (P : Platform) (M : Machines) (S : StakingPrecompile Unit Unit)
    (C : Commitments) (block : Block) (view after : ExecView) (progress : Progress Unit),
    view.total < 2 ^ 128 → (runBlock P M S C block none).runOn view = (.ok progress,after) →
    after.total + feesKept block.header block.body.transactions progress.receipts +
      (lossesOfBlock P M S C block view).1 = view.total + blockRewardAt block.number := by
  intro hclaim
  have htotal : richView.total = 1000000000 := total_seedAccount_new _ _
  have hok : ((runBlock .integers zvmMachines idleStaking.toStakingPrecompile zeroCommitments
      vanishingCreation none).runOn richView).1.isOk = true := by decide +kernel
  have hlost : (lossesOfBlock .integers zvmMachines idleStaking.toStakingPrecompile zeroCommitments
      vanishingCreation richView).2 = 5 := by decide +kernel
  rcases hrun : (runBlock .integers zvmMachines idleStaking.toStakingPrecompile zeroCommitments
    vanishingCreation none).runOn richView with ⟨e | progress,after⟩
  · rw [hrun] at hok
    cases hok
  · have hmoney := total_runBlock (show richView.total ≤ maxU128 by rw [htotal]; decide)
      (Or.inl (by rw [htotal]; decide)) hrun
    have hconserved := hclaim _ _ _ _ _ _ _ _ (by rw [htotal]; decide) hrun
    omega

end Conserved

end ZbxChain
