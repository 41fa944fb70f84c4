import ZbxChain.Staking.DeferredWrites
import ZbxChain.Staking.Tombstones

/-! # The two ledgers of the delegations: the aggregates of the validators, and the rows -/
namespace ZbxChain.Staking
open StateProgram

def ValidatorSet.delegatedTo (vs : ValidatorSet) (addr : Address) : ℕ :=
  ((vs.get addr).map Validator.delegatedStake).getD 0

def ValidatorSet.totalStakes (vs : ValidatorSet) : ℕ :=
  (vs.validators.values.map (fun v => v.selfStake + v.delegatedStake)).sum

namespace StakingState

/-- What `get_delegation` reads. -/
def row (st : StakingState) (key : DelegationKey) : ℕ :=
  (st.delta.getDelegation .none st.columns key).toOption.getD 0

/-- The aggregate of every address, which is zero if no validator is there, is the sum of the
rows. -/
def LedgersAgree (st : StakingState) : Prop := ∀ addr, st.vs.delegatedTo addr = ∑ d : Address, st.row (addr,d)

end StakingState

section Rows
variable {st : StakingState} {faults : LedgerFaults} {key : DelegationKey} {n : ℕ}

theorem row_eq (st : StakingState) (key : DelegationKey) :
    st.row key = (st.delta.delegations.lookup key).getD (st.columns.getDelegation key) := by
  unfold StakingState.row StakingDelta.getDelegation
  cases st.delta.delegations.lookup key with
  | none => rfl
  | some v => rfl

theorem row_of_read (h : st.delta.getDelegation faults st.columns key = .ok n) : st.row key = n := by
  rw [row_eq]
  unfold StakingDelta.getDelegation at h
  cases hrow : st.delta.delegations.lookup key with
  | some v =>
    rw [hrow] at h
    cases h
    rfl
  | none =>
    rw [hrow] at h
    unfold stored at h
    cases hfault : faults.getDelegation key with
    | some e =>
      rw [hfault] at h
      cases h
    | none =>
      rw [hfault] at h
      cases h
      rfl

theorem row_put (st : StakingState) {st' : StakingState} (hcolumns : st'.columns = st.columns)
    (hdelta : st'.delta.delegations = (st.delta.putDelegation key n).delegations) (k : DelegationKey) :
    st'.row k = if k = key then n else st.row k := by
  rw [row_eq, row_eq, hdelta, hcolumns]
  simp only [StakingDelta.putDelegation]
  split
  · rename_i heq
    rw [heq, AList.lookup_insert, Option.getD_some]
  · rename_i hne
    rw [AList.lookup_insert_ne hne]

theorem row_commit (st : StakingState) (key : DelegationKey) :
    ({ st with columns := st.columns.applyStakingDelta st.delta, delta := .new } : StakingState).row key =
      st.row key := by
  rw [row_eq, row_eq]
  exact getDelegation_applyStakingDelta st.columns st.delta key

end Rows

section Calls
variable {P : Platform} {faults : LedgerFaults} {call : StakingTx} {sender : Address} {sentValue : ℕ}
  {currentHeight : UInt64} {st st' : StakingState} {view view' : ExecView} {accepted : Bool}
  {vs vs' : ValidatorSet}

theorem delegatedTo_of_sameField (h : SameField Validator.delegatedStake vs vs') (a : Address) :
    vs'.delegatedTo a = vs.delegatedTo a := by
  rw [ValidatorSet.delegatedTo, ValidatorSet.delegatedTo, h a]

theorem delegate_ok {validator : Address} {amount : ℕ} (h : vs.delegate validator amount = .ok vs') :
    ∃ v, vs.get validator = some v ∧ vs' = vs.modify validator (fun v =>
      { v with delegatedStake := saturatingAdd128 v.delegatedStake amount }) := by
  unfold ValidatorSet.delegate at h
  cases hget : vs.get validator with
  | none =>
    rw [hget] at h
    cases h
  | some v =>
    rw [hget] at h
    dsimp only at h
    split at h
    all_goals cases h
    all_goals exact ⟨v,rfl,rfl⟩

theorem undelegate_ok {validator : Address} {amount : ℕ} (h : vs.undelegate validator amount = .ok vs') :
    ∃ v, vs.get validator = some v ∧ amount ≤ v.delegatedStake ∧ vs' = vs.modify validator (fun v =>
      { v with delegatedStake := v.delegatedStake - amount }) := by
  unfold ValidatorSet.undelegate at h
  cases hget : vs.get validator with
  | none =>
    rw [hget] at h
    cases h
  | some v =>
    rw [hget] at h
    dsimp only at h
    split at h
    · cases h
    · rename_i hcovered
      cases h
      exact ⟨v,rfl,not_lt.mp hcovered,rfl⟩

theorem registerWithPop_ok {blsPubkey : BlsPubKey} {blsPop : BlsSignature} {selfStake : ℕ}
    {commissionBps : UInt16} (h : vs.registerWithPop P sender blsPubkey blsPop selfStake commissionBps = .ok vs') :
    ∃ v : Validator, vs.get sender = none ∧ vs' = { vs with validators := vs.validators.insert sender v } ∧
      v.selfStake = selfStake ∧ v.delegatedStake = 0 ∧ v.pendingRewards = 0 ∧ v.delegatorRewardPool = 0 ∧
      v.commissionBps.toNat ≤ 2000 := by
  unfold ValidatorSet.registerWithPop ValidatorSet.register at h
  split at h
  · cases h
  · split at h
    · cases h
    · rename_i hfresh
      split at h
      · cases h
      · cases h
        refine ⟨_,by simpa using hfresh,rfl,rfl,rfl,rfl,rfl,?_⟩
        dsimp only
        split
        · assumption
        · decide

theorem delegations_deleteUnbondingEntries (delta : StakingDelta) (delegator : Address)
    (entries : List (UInt64 × Address)) :
    (delta.deleteUnbondingEntries delegator entries).delegations = delta.delegations := by
  unfold StakingDelta.deleteUnbondingEntries
  induction entries generalizing delta with
  | nil => rfl
  | cons e entries ih => exact ih (delta.deleteUnbondingEntry (e.1,delegator,e.2))

theorem sum_rows {key : DelegationKey} {n : ℕ}
    (hrow : ∀ k, st'.row k = if k = key then n else st.row k) (addr : Address) :
    ∑ d : Address, st'.row (addr,d) + (if addr = key.1 then st.row key else 0) =
      ∑ d : Address, st.row (addr,d) + (if addr = key.1 then n else 0) := by
  obtain ⟨validator,delegator⟩ := key
  by_cases haddr : addr = validator
  · subst haddr
    have hsum := sum_change (f := fun d => st.row (addr,d)) (g := fun d => st'.row (addr,d)) delegator
      fun d hd => by rw [hrow, if_neg (fun heq => hd (Prod.ext_iff.mp heq).2)]
    rw [if_pos rfl, if_pos rfl, hsum, hrow, if_pos rfl]
  · have hsame : ∀ d, st'.row (addr,d) = st.row (addr,d) := fun d => by
      rw [hrow, if_neg (fun heq => haddr (Prod.ext_iff.mp heq).1)]
    simp only [hsame, if_neg haddr]

theorem row_le_delegatedTo (h : st.LedgersAgree) (key : DelegationKey) :
    st.row key ≤ st.vs.delegatedTo key.1 := by
  rw [h key.1]
  exact Finset.single_le_sum (f := fun d => st.row (key.1,d)) (fun _ _ => Nat.zero_le _)
    (Finset.mem_univ key.2)

theorem StakingState.LedgersAgree.of_same (h : st.LedgersAgree)
    (hvs : ∀ a, st'.vs.delegatedTo a = st.vs.delegatedTo a) (hrow : ∀ key, st'.row key = st.row key) :
    st'.LedgersAgree := by
  intro addr
  rw [hvs, h addr]
  exact Finset.sum_congr rfl fun d _ => (hrow (addr,d)).symm

theorem StakingState.LedgersAgree.change (h : st.LedgersAgree) (key : DelegationKey) {n : ℕ}
    (hrow : ∀ k, st'.row k = if k = key then n else st.row k)
    (hvs : ∀ a, st'.vs.delegatedTo a + (if a = key.1 then st.row key else 0) =
      st.vs.delegatedTo a + (if a = key.1 then n else 0)) : st'.LedgersAgree := by
  intro addr
  have hsum := sum_rows hrow addr
  have hdelegated := hvs addr
  rw [h addr] at hdelegated
  omega

theorem delegatedTo_modify (vs : ValidatorSet) (validator : Address) (f : Validator → Validator) (a : Address) :
    (vs.modify validator f).delegatedTo a =
      if a = validator then ((vs.get validator).map (fun v => (f v).delegatedStake)).getD 0
      else vs.delegatedTo a := by
  unfold ValidatorSet.delegatedTo
  rw [get_modify]
  split
  · rw [Option.map_map]
    rfl
  · rfl

/-- The call of a delegation that the books keep and the validators refuse. -/
def WritesToTombstone (faults : LedgerFaults) (call : StakingTx) (sender : Address) (sentValue : ℕ)
    (st : StakingState) : Prop :=
  ∃ validator prior v, call = .delegate validator sentValue ∧ 0 < sentValue ∧
    st.delta.getDelegation faults st.columns (validator,sender) = .ok prior ∧
    st.vs.get validator = some v ∧ v.status = .tombstoned

/-- Every other call changes both ledgers alike. -/
theorem agree_callEffect (h : CallEffect P faults call sender sentValue currentHeight st view st' accepted view')
    (hwrites : ¬ WritesToTombstone faults call sender sentValue st)
    (hroom : ∀ a, st'.vs.delegatedTo a < maxU128) (hagree : st.LedgersAgree) : st'.LedgersAgree := by
  cases h with
  | idle hvs hdelta hcolumns =>
    exact hagree.of_same (fun a => by rw [hvs]) fun key => by rw [row_eq, row_eq, hdelta, hcolumns]
  | registered h =>
    obtain ⟨v,hfresh,rfl,-,hzero,-⟩ := registerWithPop_ok h
    refine hagree.of_same (fun a => ?_) fun _ => rfl
    unfold ValidatorSet.delegatedTo ValidatorSet.get
    by_cases ha : a = sender
    · subst ha
      have hnone : st.vs.validators.lookup a = none := hfresh
      rw [AList.lookup_insert, hnone, Option.map_some, Option.getD_some, hzero]
      rfl
    · rw [AList.lookup_insert_ne ha]
  | @delegated validator prior vs' _ hread h =>
    obtain ⟨v,hget,rfl⟩ := delegate_ok h
    have hrow := row_of_read hread
    have hdelegated : st.vs.delegatedTo validator = v.delegatedStake := by
      rw [ValidatorSet.delegatedTo, hget]
      rfl
    have hless := row_le_delegatedTo hagree (validator,sender)
    have hafter := hroom validator
    dsimp only at hafter hless
    rw [delegatedTo_modify, if_pos rfl, hget, Option.map_some, Option.getD_some] at hafter
    dsimp only at hafter
    unfold saturatingAdd128 at hafter
    refine hagree.change (validator,sender) (row_put st rfl rfl) fun a => ?_
    dsimp only
    rw [delegatedTo_modify, hget, Option.map_some, Option.getD_some]
    dsimp only
    unfold saturatingAdd128
    split
    · rename_i heq
      rw [heq]
      omega
    · rfl
  | written hcall hpositive hread hget hstatus =>
    exact absurd ⟨_,_,_,hcall,hpositive,hread,hget,hstatus⟩ hwrites
  | @undelegated validator amount prior existing unlock vs' hread hprior _ h =>
    obtain ⟨v,hget,hcovered,rfl⟩ := undelegate_ok h
    have hrow := row_of_read hread
    have hdelegated : st.vs.delegatedTo validator = v.delegatedStake := by
      rw [ValidatorSet.delegatedTo, hget]
      rfl
    refine hagree.change (validator,sender) (row_put st rfl rfl) fun a => ?_
    dsimp only
    rw [delegatedTo_modify, hget, Option.map_some, Option.getD_some]
    dsimp only
    split
    · rename_i heq
      rw [heq]
      omega
    · rfl
  | withdrawn =>
    refine hagree.of_same (fun _ => rfl) fun key => ?_
    rw [row_eq, row_eq]
    dsimp only
    rw [delegations_deleteUnbondingEntries]
  | claimed h =>
    exact hagree.of_same (delegatedTo_of_sameField (sameField_claimRewards steady_delegatedStake h)) fun _ => rfl
  | shared hget =>
    exact hagree.of_same (delegatedTo_of_sameField (sameField_insert hget (steady_delegatedStake.share _ _)))
      fun _ => rfl

theorem row_callEffect (h : CallEffect P faults call sender sentValue currentHeight st view st' accepted view')
    {addr d : Address} (hd : d ≠ sender) : st'.row (addr,d) = st.row (addr,d) := by
  have hother : ∀ {validator : Address}, (addr,d) ≠ (validator,sender) := fun heq => hd (Prod.ext_iff.mp heq).2
  cases h with
  | idle hvs hdelta hcolumns => rw [row_eq, row_eq, hdelta, hcolumns]
  | delegated | written | undelegated =>
    rw [row_eq, row_eq]
    simp only [StakingDelta.putDelegation, StakingDelta.putUnbondingEntry, AList.lookup_insert_ne hother]
  | withdrawn =>
    rw [row_eq, row_eq]
    dsimp only
    rw [delegations_deleteUnbondingEntries]
  | registered | claimed | shared => rfl

end Calls

def StakingEvent.sender : StakingEvent → Option Address
  | .transaction _ tx _ => some tx.sender
  | _ => none

section Runs
variable (P : Platform) (sha3 : List UInt8 → H256) (bincode : EquivocationEvidence → List UInt8)
  (fault : ℕ → Option String) (decode : List UInt8 → Option StakingTx)

/-- A transaction that is executed and delegates to a tombstoned validator. -/
def DelegatesToTombstone (s : StakingChain) : StakingEvent → Prop
  | .transaction faults tx header => ∃ charge charged call,
    (debitSender tx header).runOn s.view = (.ok charge,charged) ∧ decode tx.tx.data = some call ∧
      WritesToTombstone faults call tx.sender charge.value s.books.state
  | _ => False

variable {P sha3 bincode fault decode}

theorem delegatedTo_le_totalStakes (vs : ValidatorSet) (a : Address) : vs.delegatedTo a ≤ vs.totalStakes := by
  unfold ValidatorSet.delegatedTo
  cases hget : vs.get a with
  | none => exact Nat.zero_le _
  | some v =>
    have hmem : v.selfStake + v.delegatedStake ∈ vs.validators.values.map (fun v => v.selfStake + v.delegatedStake) :=
      List.mem_map_of_mem (AList.mem_values.mpr ⟨a,hget⟩)
    have hle := List.single_le_sum (fun _ _ => Nat.zero_le _) _ hmem
    rw [Option.map_some, Option.getD_some, ValidatorSet.totalStakes]
    omega

theorem agree_onPipeline {α : Type} {books : StakingBooks} {m : PipelineM α}
    (hm : Stateful.Keeps (OnValidators (SameField Validator.delegatedStake)) m)
    (h : books.state.LedgersAgree) : (books.onPipeline m).2.state.LedgersAgree :=
  h.of_same (delegatedTo_of_sameField (hm books.pipeline)) fun _ => rfl

theorem agree_dispatchCall {faults : LedgerFaults} {call : StakingTx} {sender : Address} {sentValue : ℕ}
    {height : UInt64} {books books' : StakingBooks} {view view' : ExecView}
    {answer : Except StakingError UInt64}
    (hrun : (dispatchCall P faults fault call sender sentValue height books).run ExecView.answer view =
      ((books',answer),view'))
    (hwrites : ¬ WritesToTombstone faults call sender sentValue books.state)
    (hroom : ∀ a, books'.state.vs.delegatedTo a < maxU128) (h : books.state.LedgersAgree) :
    books'.state.LedgersAgree := by
  cases call with
  | fileAppeal evidenceId =>
    cases hrun
    exact agree_onPipeline (kept_dispatchFileAppealTx evidenceId sender sentValue height) h
  | _ =>
    simp only [dispatchCall, Program.run_bind, Program.run_pure] at hrun
    cases hrun
    exact agree_callEffect (effect_dispatchStakingTx _) hwrites hroom h

theorem agree_stakingStep {s : StakingChain} {e : StakingEvent} (hstep : ¬ DelegatesToTombstone decode s e)
    (hroom : (stakingStep P sha3 bincode fault decode s e).1.books.state.vs.totalStakes < 2 ^ 127)
    (h : s.books.state.LedgersAgree) :
    (stakingStep P sha3 bincode fault decode s e).1.books.state.LedgersAgree := by
  cases e with
  | transaction faults tx header =>
    unfold stakingStep at hroom ⊢
    rcases hrun : (executeStakingTx (precompileWithPipeline P faults fault decode) tx header s.books).runOn
      s.view with ⟨error | ⟨books',result⟩,view'⟩
    · simp only [hrun]
      exact h
    · simp only [hrun] at hroom ⊢
      obtain ⟨charge,charged,hdebited,refund,dispatched,-,hcase⟩ := transacted_of_ok hrun
      rcases hcase with ⟨-,rfl,-⟩ | ⟨call,answer,hdecode,hcall,-⟩
      · exact h
      · refine agree_dispatchCall hcall (fun hwrites => hstep ⟨charge,charged,call,hdebited,hdecode,hwrites⟩)
          (fun a => ?_) h
        have hle := delegatedTo_le_totalStakes books'.state.vs a
        unfold maxU128
        omega
  | rewards height proposer fees =>
    exact h.of_same (delegatedTo_of_sameField (sameField_distributeBlockReward steady_delegatedStake _ _ _))
      fun _ => rfl
  | ingest ev submitter currentBlock currentEpoch offenderStake =>
    exact agree_onPipeline (kept_ingestEquivocation ev submitter currentBlock currentEpoch offenderStake) h
  | tick currentBlock =>
    exact agree_onPipeline (kept_tickFinalize (slashes_sameField steady_delegatedStake) currentBlock) h
  | overturn evidenceId =>
    exact agree_onPipeline (kept_overturnAndRefund (slashes_sameField steady_delegatedStake) evidenceId) h
  | elect => exact h.of_same (delegatedTo_of_sameField (sameField_electActiveSet steady_delegatedStake)) fun _ => rfl
  | commit => exact h.of_same (fun _ => rfl) (row_commit s.books.state)

theorem agree_genesis (totalValidators : UInt64) (view : ExecView) :
    (StakingChain.genesis totalValidators view).books.state.LedgersAgree := by
  intro addr
  exact (Finset.sum_eq_zero fun d _ => rfl).symm

theorem row_stakingStep {s : StakingChain} {e : StakingEvent} {addr d : Address} (hd : e.sender ≠ some d) :
    (stakingStep P sha3 bincode fault decode s e).1.books.state.row (addr,d) = s.books.state.row (addr,d) := by
  cases e with
  | transaction faults tx header =>
    have hother : d ≠ tx.sender := fun heq => hd (congrArg some heq.symm)
    unfold stakingStep
    rcases hrun : (executeStakingTx (precompileWithPipeline P faults fault decode) tx header s.books).runOn
      s.view with ⟨error | ⟨books',result⟩,view'⟩
    · simp only [hrun]
    · simp only [hrun]
      obtain ⟨charge,charged,-,refund,dispatched,-,hcase⟩ := transacted_of_ok hrun
      rcases hcase with ⟨-,rfl,-⟩ | ⟨call,answer,-,hcall,-⟩
      · rfl
      · cases call with
        | fileAppeal evidenceId =>
          cases hcall
          rfl
        | _ =>
          simp only [dispatchCall, Program.run_bind, Program.run_pure] at hcall
          cases hcall
          exact row_callEffect (effect_dispatchStakingTx _) hother
  | commit => exact row_commit s.books.state (addr,d)
  | rewards | ingest | tick | overturn | elect => rfl

end Runs

/-- In a run in which nobody delegates to a tombstoned validator, the aggregate of every
validator is the sum of its rows, and a row is changed by its own delegator only. -/
theorem delegation_ledgers_agree (P : Platform) (sha3 : List UInt8 → H256)
    (bincode : EquivocationEvidence → List UInt8) (fault : ℕ → Option String)
    (decode : List UInt8 → Option StakingTx) (totalValidators : UInt64) (view : ExecView)
    (events : List StakingEvent)
    (hsteps : ∀ e ∈ Machine.history (stakingStep P sha3 bincode fault decode)
      (.genesis totalValidators view) events, ¬ DelegatesToTombstone decode e.before e.call)
    (hstakes : ∀ e ∈ Machine.history (stakingStep P sha3 bincode fault decode)
      (.genesis totalValidators view) events,
        (stakingStep P sha3 bincode fault decode e.before e.call).1.books.state.vs.totalStakes < 2 ^ 127) :
    (∀ addr v, (Machine.final (stakingStep P sha3 bincode fault decode) (.genesis totalValidators view)
        events).books.state.vs.get addr = some v →
      v.delegatedStake = ∑ d : Address, (Machine.final (stakingStep P sha3 bincode fault decode)
        (.genesis totalValidators view) events).books.state.row (addr,d)) ∧
    ∀ e ∈ Machine.history (stakingStep P sha3 bincode fault decode) (.genesis totalValidators view) events,
      ∀ addr d, e.call.sender ≠ some d →
        (stakingStep P sha3 bincode fault decode e.before e.call).1.books.state.row (addr,d) =
          e.before.books.state.row (addr,d) := by
  have hrun := Machine.state_invariant (stakingStep P sha3 bincode fault decode)
    (G := fun s e => ¬ DelegatesToTombstone decode s e ∧
      (stakingStep P sha3 bincode fault decode s e).1.books.state.vs.totalStakes < 2 ^ 127)
    (I := fun s => s.books.state.LedgersAgree) (agree_genesis totalValidators view)
    (fun s e hagree hok => agree_stakingStep hok.1 hok.2 hagree) events
    fun e he => ⟨hsteps e he,hstakes e he⟩
  refine ⟨fun addr v hget => ?_,fun e _ addr d hd => row_stakingStep hd⟩
  rw [← hrun.2 addr, ValidatorSet.delegatedTo, hget]
  rfl

def demoCalls : List UInt8 → Option StakingTx
  | [0] => some (registration 7)
  | [1] => some (.delegate 7 5)
  | _ => none

def agreeingEvents : List StakingEvent :=
  [stakingCall 7 0 (BitVec.ofNat 256 minSelfStake) [0],stakingCall 9 0 5 [1],.commit,.elect]

theorem delegation_ledgers_agree_two_stakers :
    (∀ addr v, (Machine.final (stakingStep .integers Platform.integers.keccak256 (fun _ => []) (fun _ => none)
        demoCalls) (.genesis 0 stakersView) agreeingEvents).books.state.vs.get addr = some v →
      v.delegatedStake = ∑ d : Address, (Machine.final (stakingStep .integers Platform.integers.keccak256
        (fun _ => []) (fun _ => none) demoCalls) (.genesis 0 stakersView) agreeingEvents).books.state.row
          (addr,d)) ∧
    ∀ e ∈ Machine.history (stakingStep .integers Platform.integers.keccak256 (fun _ => []) (fun _ => none)
      demoCalls) (.genesis 0 stakersView) agreeingEvents,
      ∀ addr d, e.call.sender ≠ some d →
        (stakingStep .integers Platform.integers.keccak256 (fun _ => []) (fun _ => none) demoCalls e.before
          e.call).1.books.state.row (addr,d) = e.before.books.state.row (addr,d) := by
  apply delegation_ledgers_agree .integers Platform.integers.keccak256 (fun _ => []) (fun _ => none) demoCalls 0
    stakersView agreeingEvents
  · have hstatus : ∀ e ∈ Machine.history (stakingStep .integers Platform.integers.keccak256 (fun _ => [])
        (fun _ => none) demoCalls) (.genesis 0 stakersView) agreeingEvents,
        (e.before.books.state.vs.get 7).map Validator.status ≠ some .tombstoned := by decide +kernel
    intro e he htomb
    cases hevent : e.call with
    | transaction faults tx header =>
      rw [hevent] at htomb
      obtain ⟨charge,charged,call,-,hdecode,validator,prior,v,rfl,-,-,hget,hdead⟩ := htomb
      have hseven : validator = 7 := by
        unfold demoCalls at hdecode
        split at hdecode
        · cases hdecode
        · injection hdecode with hsame
          injection hsame with hvalidator
          exact hvalidator.symm
        · cases hdecode
      apply hstatus e he
      rw [← hseven, hget, Option.map_some, hdead]
    | rewards | ingest | tick | overturn | elect | commit =>
      rw [hevent] at htomb
      exact htomb
  · decide +kernel

def disagreeingEvents : List StakingEvent :=
  [stakingCall 7 0 (BitVec.ofNat 256 minSelfStake) [0],.ingest doubleVote 8 0 0 0,.ingest doubleVote 8 1 0 0,
    .tick 200000,stakingCall 9 0 5 [1]]

/-- The row of a delegation that was refused is not in the aggregate. -/
theorem delegation_ledgers_disagree : ¬ ∀ (P : Platform) (sha3 : List UInt8 → H256)
    (bincode : EquivocationEvidence → List UInt8) (fault : ℕ → Option String)
    (decode : List UInt8 → Option StakingTx) (totalValidators : UInt64) (view : ExecView)
    (events : List StakingEvent),
    (∀ e ∈ Machine.history (stakingStep P sha3 bincode fault decode) (.genesis totalValidators view) events,
      (stakingStep P sha3 bincode fault decode e.before e.call).1.books.state.vs.totalStakes < 2 ^ 127) →
    ∀ addr v, (Machine.final (stakingStep P sha3 bincode fault decode) (.genesis totalValidators view)
        events).books.state.vs.get addr = some v →
      v.delegatedStake = ∑ d : Address, (Machine.final (stakingStep P sha3 bincode fault decode)
        (.genesis totalValidators view) events).books.state.row (addr,d) := by
  intro h
  have hagree := h .integers Platform.integers.keccak256 (fun _ => []) (fun _ => none) demoCalls 0 stakersView
    disagreeingEvents (by decide +kernel) 7
  generalize hfinal : Machine.final (stakingStep .integers Platform.integers.keccak256 (fun _ => [])
    (fun _ => none) demoCalls) (.genesis 0 stakersView) disagreeingEvents = s at hagree
  have hvalidator : (s.books.state.vs.get 7).map Validator.delegatedStake = some 0 := by
    rw [← hfinal]
    decide +kernel
  have hrow : s.books.state.row (7,9) = 5 := by
    rw [← hfinal]
    decide +kernel
  obtain ⟨v,hget,hzero⟩ := Option.map_eq_some_iff.mp hvalidator
  have hle := Finset.single_le_sum (f := fun d => s.books.state.row (7,d)) (fun _ _ => Nat.zero_le _)
    (Finset.mem_univ (9 : Address))
  have hsum := hagree v hget
  omega

end ZbxChain.Staking
