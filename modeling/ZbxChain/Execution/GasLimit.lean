import ZbxChain.Execution.Phases

/-! # The gas of a block

A block is checked against the protocol's gas limit, but the gas of its transactions is never
checked against the limit in its header: the loop only adds up. A transaction takes its
intrinsic gas at least and its own limit at most.
-/
namespace ZbxChain
open StateProgram

section Sums

def gasSum (receipts : List TransactionReceipt) : ℕ := (receipts.map (fun r => r.gasUsed.toNat)).sum

def RunningSums (receipts : List TransactionReceipt) : Prop :=
  ∀ k r, receipts[k]? = some r → r.cumulativeGasUsed.toNat = gasSum (receipts.take (k + 1))

variable {receipts rest : List TransactionReceipt} {r : TransactionReceipt}

@[simp] theorem gasSum_nil : gasSum [] = 0 := rfl

@[simp] theorem gasSum_append : gasSum (receipts ++ rest) = gasSum receipts + gasSum rest := by
  simp [gasSum]

@[simp] theorem gasSum_singleton : gasSum [r] = r.gasUsed.toNat := by simp [gasSum]

theorem runningSums_nil : RunningSums [] := by simp [RunningSums]

theorem RunningSums.of_append (h : RunningSums (receipts ++ rest)) : RunningSums receipts := by
  intro k r hr
  obtain ⟨hk,-⟩ := List.getElem?_eq_some_iff.mp hr
  have hsum := h k r (by rw [List.getElem?_append_left hk, hr])
  rwa [List.take_append_of_le_length hk] at hsum

theorem runningSums_snoc : RunningSums (receipts ++ [r]) ↔
    RunningSums receipts ∧ r.cumulativeGasUsed.toNat = gasSum receipts + r.gasUsed.toNat := by
  constructor
  · intro h
    refine ⟨h.of_append,?_⟩
    have hlast := h receipts.length r (by simp)
    rw [List.take_of_length_le (by simp)] at hlast
    simpa using hlast
  · rintro ⟨h,hr⟩ k r' hr'
    rcases Nat.lt_trichotomy k receipts.length with hk | rfl | hk
    · rw [List.getElem?_append_left hk] at hr'
      rw [List.take_append_of_le_length hk]
      exact h k r' hr'
    · obtain rfl : r = r' := by simpa using hr'
      rw [List.take_of_length_le (by simp)]
      simpa using hr
    · rw [List.getElem?_eq_none (by simp; omega)] at hr'
      cases hr'

end Sums

section Steps
variable {V K : Type} {P : Platform} {M : Machines} {S : StakingPrecompile V K} {C : Commitments}
  {tx : SignedTransaction} {header : BlockHeader} {view view' : ExecView}

theorem toNat_gasUsed (gas : UInt64) : ((tx.charge header).gasUsed tx gas).toNat =
    min (tx.tx.intrinsicGas.toNat + gas.toNat) tx.tx.gasLimit.toNat := by
  have hlimit := tx.tx.gasLimit.toNat_lt
  rw [Charge.gasUsed, toNat_min64, toNat_saturatingAdd64]
  dsimp only [SignedTransaction.charge]
  omega

theorem gas_executeAny {validators : Option V} {r : Option V × TxResult}
    (h : (executeAny P M S tx header validators).runOn view = (.ok r,view')) :
    tx.tx.intrinsicGas.toNat ≤ r.2.gasUsed.toNat ∧ r.2.gasUsed.toNat ≤ tx.tx.gasLimit.toNat := by
  have hbetween : ∀ gas, Accepts tx view → tx.tx.intrinsicGas.toNat ≤ ((tx.charge header).gasUsed tx gas).toNat ∧
      ((tx.charge header).gasUsed tx gas).toNat ≤ tx.tx.gasLimit.toNat := by
    intro gas haccepts
    have hintrinsic := UInt64.le_iff_toNat_le.mp haccepts.intrinsic
    rw [toNat_gasUsed]
    omega
  obtain ⟨state,result,rfl,-,rfl,hexecuted⟩ | ⟨-,result,rfl,hexecuted⟩ := executeAny_cases h
  · obtain ⟨haccepts,rfl,-⟩ := runOn_executeStakingTx_iff.mp hexecuted
    exact hbetween _ haccepts
  · obtain ⟨haccepts,rfl,-⟩ := runOn_executeTx_iff.mp hexecuted
    exact hbetween _ haccepts

theorem gas_executeOne {block : Block} {progress next : Progress V}
    (h : (executeOne P M S C block progress tx).runOn view = (.ok next,view')) :
    ∃ r, next.receipts = progress.receipts ++ [r] ∧
      (tx.tx.intrinsicGas.toNat ≤ r.gasUsed.toNat ∧ r.gasUsed.toNat ≤ tx.tx.gasLimit.toNat) ∧
      next.cumulativeGas = progress.cumulativeGas + r.gasUsed ∧ r.cumulativeGasUsed = next.cumulativeGas := by
  unfold executeOne at h
  simp only [TxProgram.runOn_bind, TxProgram.runOn_lift, TxProgram.runOn_pure] at h
  rcases hexecuted : (executeAny P M S tx block.header progress.validators).runOn view with ⟨e | r,after⟩
  · rw [hexecuted] at h
    cases h
  · rw [hexecuted] at h
    cases h
    exact ⟨_,rfl,gas_executeAny hexecuted,rfl,rfl⟩

theorem counter_executeAll {block : Block} (txs : List SignedTransaction) {progress last : Progress V}
    (hcounter : RunningSums progress.receipts → progress.cumulativeGas.toNat = gasSum progress.receipts)
    (h : (executeAll P M S C block progress txs).runOn view = (.ok last,view'))
    (hsums : RunningSums last.receipts) : last.cumulativeGas.toNat = gasSum last.receipts := by
  induction txs generalizing progress view with
  | nil =>
    cases h
    exact hcounter hsums
  | cons tx rest ih =>
    unfold executeAll at h
    rw [TxProgram.runOn_bind] at h
    rcases hone : (executeOne P M S C block progress tx).runOn view with ⟨e | next,after⟩
    · rw [hone] at h
      cases h
    · rw [hone] at h
      refine ih (fun hnext => ?_) h
      obtain ⟨r,hreceipts,-,-,hlast⟩ := gas_executeOne hone
      rw [hreceipts] at hnext ⊢
      rw [← hlast, (runningSums_snoc.mp hnext).2]
      simp

theorem sums_executeAll {block : Block} (txs : List SignedTransaction) {progress last : Progress V}
    (h : (executeAll P M S C block progress txs).runOn view = (.ok last,view')) :
    gasSum progress.receipts + (txs.map (fun tx => tx.tx.intrinsicGas.toNat)).sum ≤ gasSum last.receipts ∧
      (RunningSums progress.receipts → progress.cumulativeGas.toNat = gasSum progress.receipts →
        gasSum progress.receipts + (txs.map (fun tx => tx.tx.gasLimit.toNat)).sum < 2 ^ 64 →
        RunningSums last.receipts ∧ last.cumulativeGas.toNat = gasSum last.receipts ∧
          gasSum last.receipts ≤ gasSum progress.receipts + (txs.map (fun tx => tx.tx.gasLimit.toNat)).sum) := by
  induction txs generalizing progress view with
  | nil =>
    cases h
    exact ⟨le_rfl,fun hsums hcounter _ => ⟨hsums,hcounter,le_rfl⟩⟩
  | cons tx rest ih =>
    unfold executeAll at h
    rw [TxProgram.runOn_bind] at h
    rcases hone : (executeOne P M S C block progress tx).runOn view with ⟨e | next,after⟩
    · rw [hone] at h
      cases h
    · rw [hone] at h
      obtain ⟨r,hreceipts,⟨hleast,hmost⟩,hadded,hlast⟩ := gas_executeOne hone
      have hsum : gasSum next.receipts = gasSum progress.receipts + r.gasUsed.toNat := by
        rw [hreceipts]
        simp
      obtain ⟨hlower,hupper⟩ := ih h
      rw [hsum] at hlower hupper
      simp only [List.map_cons, List.sum_cons]
      refine ⟨by omega,fun hsums hcounter hroom => ?_⟩
      have hnext : next.cumulativeGas.toNat = gasSum progress.receipts + r.gasUsed.toNat := by
        rw [hadded, UInt64.toNat_add, hcounter]
        omega
      have hright : RunningSums next.receipts := by
        rw [hreceipts, runningSums_snoc]
        exact ⟨hsums,by rw [hlast, hnext]⟩
      obtain ⟨hlasts,hcount,hle⟩ := hupper hright hnext (by omega)
      exact ⟨hlasts,hcount,by omega⟩

end Steps

section AcceptedBlocks
variable {V K : Type} (P : Platform) (M : Machines) (S : StakingPrecompile V K) (C : Commitments)

def Block.gasLimits (block : Block) : ℕ := (block.body.transactions.map (fun tx => tx.tx.gasLimit.toNat)).sum

def Block.intrinsicGas (block : Block) : ℕ :=
  (block.body.transactions.map (fun tx => tx.tx.intrinsicGas.toNat)).sum

/-- The gas stays within the limit of the header, and the receipts carry its running sums. -/
def GasRespected (block : Block) (used : UInt64) (receipts : List TransactionReceipt) : Prop :=
  used ≤ block.header.gasLimit ∧ RunningSums receipts

theorem gasRespected_runBlock {block : Block} {validators : Option V} {view after : ExecView} {progress : Progress V}
    (h : (runBlock P M S C block validators).runOn view = (.ok progress,after)) :
    (block.gasLimits ≤ block.header.gasLimit.toNat → GasRespected block progress.cumulativeGas progress.receipts) ∧
      (GasRespected block progress.cumulativeGas progress.receipts →
        block.intrinsicGas ≤ block.header.gasLimit.toNat) := by
  unfold runBlock at h
  rw [TxProgram.runOn_ite] at h
  split at h
  · cases h
  · rw [TxProgram.runOn_bind] at h
    rcases hall : (executeAll P M S C block ⟨validators,0,[]⟩ block.body.transactions).runOn view
      with ⟨e | last,ended⟩
    · rw [hall] at h
      cases h
    · rw [hall] at h
      obtain ⟨hlower,hupper⟩ := sums_executeAll block.body.transactions hall
      have hprogress : progress.cumulativeGas = last.cumulativeGas ∧ progress.receipts = last.receipts := by
        simp only [TxProgram.runOn_ite, TxProgram.runOn_bind, TxProgram.runOn_lift, TxProgram.runOn_pure] at h
        split at h
        · cases h
          exact ⟨rfl,rfl⟩
        · cases h
          exact ⟨rfl,rfl⟩
      rw [hprogress.1, hprogress.2]
      have hlimit := block.header.gasLimit.toNat_lt
      unfold Block.gasLimits Block.intrinsicGas
      simp only [gasSum_nil, Nat.zero_add] at hlower hupper
      refine ⟨fun hfits => ?_,fun hrespected => ?_⟩
      · obtain ⟨hsums,hcount,hle⟩ := hupper runningSums_nil rfl (by omega)
        exact ⟨UInt64.le_iff_toNat_le.mpr (by omega),hsums⟩
      · have hcount := counter_executeAll block.body.transactions (fun _ => rfl) hall hrespected.2
        have hle := UInt64.le_iff_toNat_le.mp hrespected.1
        omega

/-- An accepted block stays within its gas limit, with the running sums of its receipts right,
if the gas limits of its transactions add up to no more; it does so only if their intrinsic gas
does not. -/
theorem gas_limit_respected (crateRlp : RlpItem → List UInt8) (block : Block) (view : ExecView) :
    (∀ result, executeBlock P M S C crateRlp block view = .ok result →
      (block.gasLimits ≤ block.header.gasLimit.toNat → GasRespected block result.gasUsed result.receipts) ∧
        (GasRespected block result.gasUsed result.receipts → block.intrinsicGas ≤ block.header.gasLimit.toNat)) ∧
    ∀ validators progress after, (runBlock P M S C block validators).runOn view = (.ok progress,after) →
      (block.gasLimits ≤ block.header.gasLimit.toNat →
        GasRespected block progress.cumulativeGas progress.receipts) ∧
        (GasRespected block progress.cumulativeGas progress.receipts →
          block.intrinsicGas ≤ block.header.gasLimit.toNat) := by
  refine ⟨?_,fun validators progress after h => gasRespected_runBlock P M S C h⟩
  intro result h
  unfold executeBlock at h
  rcases hrun : (runBlock P M S C block none).runOn view with ⟨e | progress,after⟩
  · rw [hrun] at h
    cases h
  · rw [hrun] at h
    cases h
    exact gasRespected_runBlock P M S C hrun

def plainTransfer (nonce : UInt64) : Transaction :=
  { legacyTransfer 3 [] with
    nonce := nonce
    recipient := some 99 }

def twoTransfers (gasLimit : UInt64) : Block :=
  { header := { (plainBlock 1 0).header with gasLimit := gasLimit }
    body := ⟨[⟨plainTransfer 0,⟨0,5,6⟩,1,77⟩,⟨plainTransfer 1,⟨0,5,6⟩,1,78⟩],[]⟩ }

/-- Two transfers fit in a block whose limit is the sum of theirs. -/
theorem gas_limit_respected_transfers :
    ∃ result, executeBlock .integers idleMachines idleStaking.toStakingPrecompile zeroCommitments RlpItem.rlp
        (twoTransfers 60000) richView = .ok result ∧
      GasRespected (twoTransfers 60000) result.gasUsed result.receipts := by
  have hok : (executeBlock .integers idleMachines idleStaking.toStakingPrecompile zeroCommitments RlpItem.rlp
      (twoTransfers 60000) richView).isOk = true := by decide +kernel
  rcases hrun : executeBlock .integers idleMachines idleStaking.toStakingPrecompile zeroCommitments RlpItem.rlp
    (twoTransfers 60000) richView with e | result
  · rw [hrun] at hok
    cases hok
  · exact ⟨result,rfl,((gas_limit_respected .integers idleMachines idleStaking.toStakingPrecompile
      zeroCommitments RlpItem.rlp (twoTransfers 60000) richView).1 result hrun).1 (by decide)⟩

/-- Two transfers are accepted in a block whose limit is enough for one of them. -/
theorem gas_limit_not_respected : ¬ ∀ (P : Platform) (M : Machines) (S : StakingPrecompile Unit Unit)
    (C : Commitments) (crateRlp : RlpItem → List UInt8) (block : Block) (view : ExecView)
    (result : ExecutionResult), executeBlock P M S C crateRlp block view = .ok result →
    GasRespected block result.gasUsed result.receipts := by
  intro hclaim
  have hused : ((executeBlock .integers idleMachines idleStaking.toStakingPrecompile zeroCommitments RlpItem.rlp
      (twoTransfers 30000) richView).toOption.map (fun result => result.gasUsed)) = some 42000 := by decide +kernel
  rcases hrun : executeBlock .integers idleMachines idleStaking.toStakingPrecompile zeroCommitments RlpItem.rlp
    (twoTransfers 30000) richView with e | result
  · rw [hrun] at hused
    cases hused
  · rw [hrun] at hused
    have hgas : result.gasUsed = 42000 := Option.some.inj hused
    have hlimit := (hclaim _ _ _ _ _ _ _ _ hrun).1
    rw [hgas] at hlimit
    exact absurd hlimit (by decide)

end AcceptedBlocks

end ZbxChain
