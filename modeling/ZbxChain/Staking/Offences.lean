import ZbxChain.Staking.LostSlashes

/-! # Offences and their slash records

A record is found again by the hash of its offender, of the block in which it was submitted and
of the type of its evidence. The offence itself is not in the hash, neither the round and the
phase nor the two blocks that were voted for.
-/
namespace ZbxChain.Staking
open SlashingPipeline Stateful Machine

def idInput (offender : Address) (submitBlock : UInt64) (evidenceType : EvidenceType) : List UInt8 :=
  offender.asBytes ++ (beBytes64 submitBlock).reverse ++ [evidenceType.discriminant]

theorem idInput_inj {offender : Address} {block block' : UInt64} {evidenceType : EvidenceType} :
    idInput offender block evidenceType = idInput offender block' evidenceType ↔ block = block' := by
  simp only [idInput, List.append_left_inj, List.append_right_inj, List.reverse_inj]
  exact ⟨Bytes.bytesBE_uint64_inj,fun h => by rw [h]⟩

structure IngestCall where
  fault : ℕ → Option String
  ev : EquivocationEvidence
  submitter : Address
  currentBlock : UInt64
  currentEpoch : UInt64
  offenderStake : ℕ

namespace IngestCall

def event (call : IngestCall) : SlashingEvent :=
  .ingest call.fault call.ev call.submitter call.currentBlock call.currentEpoch call.offenderStake

def idInput (call : IngestCall) : List UInt8 := Staking.idInput call.ev.validator call.currentBlock .doubleSign

end IngestCall

def SameOffence (ev ev' : EquivocationEvidence) : Prop :=
  ev.validator = ev'.validator ∧ ev.round = ev'.round ∧ ev.phase = ev'.phase ∧
    (ev.voteA.data.blockHash = ev'.voteA.data.blockHash ∧ ev.voteB.data.blockHash = ev'.voteB.data.blockHash ∨
      ev.voteA.data.blockHash = ev'.voteB.data.blockHash ∧ ev.voteB.data.blockHash = ev'.voteA.data.blockHash)

section Ingest
variable (P : Platform) (sha3 : List UInt8 → H256) (bincode : EquivocationEvidence → List UInt8)

def ingestStep (s : SlashingState) (call : IngestCall) : SlashingState × SlashingAnswer :=
  slashingStep P sha3 bincode s call.event

abbrev IngestEntry := Entry SlashingState IngestCall SlashingAnswer

/-- The evidence has gone into the record: the call answers with its id, or has changed it. -/
def Yields (e : IngestEntry) (id : H256) : Prop :=
  e.output = .ingested (.ok id) ∨
    ∃ r, (ingestStep P sha3 bincode e.before e.call).1.1.registry.getRecord id = some r ∧
      e.before.1.registry.getRecord id ≠ some r

def TakesHold (e : IngestEntry) : Prop :=
  e.call.ev.verify P = true ∧ e.call.fault e.before.1.operations = none

def OneSlashEach (entries : List IngestEntry) : Prop :=
  ∀ e ∈ entries, ∀ e' ∈ entries, ∀ id id', Yields P sha3 bincode e id → Yields P sha3 bincode e' id' →
    e.call.ev.validator = e'.call.ev.validator → (SameOffence e.call.ev e'.call.ev ↔ id = id')

end Ingest

section Records
variable {P : Platform} {sha3 : List UInt8 → H256} {bincode : EquivocationEvidence → List UInt8}
  {fault : ℕ → Option String} {p : SlashingPipeline}

theorem Submitted.touched {reg reg' : SlashingRegistryV2} {id : H256} {outcome : SubmitOutcome}
    (h : Submitted reg id outcome reg') :
    outcome.recordId = id ∧ (∀ id', id' ≠ id → reg'.getRecord id' = reg.getRecord id') ∧
      (outcome = .alreadyRecorded id ∧ reg' = reg ∨
        (outcome = .newRecord id ∨ outcome = .coWitnessAdded id) ∧ reg'.getRecord id ≠ reg.getRecord id) ∧
      ∃ r, reg'.getRecord id = some r := by
  cases h with
  | @newRecord r hid hfresh hpending hmark =>
    have hr : ({ reg with records := reg.records.insert id r } : SlashingRegistryV2).getRecord id = some r :=
      AList.lookup_insert _
    refine ⟨rfl,fun id' hne => AList.lookup_insert_ne hne,Or.inr ⟨Or.inl rfl,?_⟩,r,hr⟩
    rw [hr, hfresh]
    exact Option.some_ne_none r
  | @coWitness r submitter hr hpending =>
    have hr' := getRecord_update hr (fun r => { r with reporters := r.reporters ++ [submitter] })
    refine ⟨rfl,fun id' hne => (AList.lookup_modify _ _ _ _).trans (if_neg hne),Or.inr ⟨Or.inr rfl,?_⟩,_,hr'⟩
    rw [hr', hr]
    intro heq
    have hreporters := congrArg SlashEvidenceRecord.reporters (Option.some.inj heq)
    simp at hreporters
  | @recorded r hr => exact ⟨rfl,fun _ _ => rfl,Or.inl ⟨rfl,rfl⟩,r,hr⟩

/-- What an evidence does to the registry, whatever fails: nothing where it does not take hold. -/
theorem ends_ingest (ev : EquivocationEvidence) (submitter : Address) (currentBlock currentEpoch : UInt64)
    (offenderStake : ℕ) :
    let id := sha3 (idInput ev.validator currentBlock .doubleSign)
    Ends (ingestEquivocation P sha3 bincode fault ev submitter currentBlock currentEpoch offenderStake) p
      (fun id' p' => (ev.verify P = true ∧ fault p.operations = none) ∧ id' = id ∧
        ∀ id', id' ≠ id → p'.registry.getRecord id' = p.registry.getRecord id')
      (fun _ p' => if ev.verify P = true ∧ fault p.operations = none then
          (∃ r, p'.registry.getRecord id = some r ∧ p.registry.getRecord id ≠ some r) ∧
            ∀ id', id' ≠ id → p'.registry.getRecord id' = p.registry.getRecord id'
        else p'.registry = p.registry) := by
  intro id
  unfold ingestEquivocation
  by_cases hverify : ev.verify P = true
  · simp only [hverify, Bool.not_true, Bool.false_eq_true, if_false, ends_bind, true_and]
    unfold putEvidence
    rw [ends_bind]
    refine ends_storageOp (fun hfault => ?_) fun e hfault => by rw [if_neg hfault]; rfl
    simp only [hfault, if_true, ends_modify, true_and, ends_onRegistry]
    cases hsubmit : p.registry.submitEvidence sha3 (evidenceToDoubleSign ev) submitter currentBlock
      currentEpoch offenderStake with
    | error e =>
      exfalso
      unfold SlashingRegistryV2.submitEvidence at hsubmit
      simp only [evidenceToDoubleSign, SlashEvidenceV2.offender] at hsubmit
      split at hsubmit
      · split at hsubmit
        · cases hsubmit
        · split at hsubmit
          · cases hsubmit
          · cases hsubmit
      · cases hsubmit
    | ok answer =>
      obtain ⟨outcome,reg⟩ := answer
      have hsubmitted : Submitted p.registry id outcome reg := submitted_submitEvidence rfl hsubmit
      obtain ⟨hid,hothers,hchanged,r,hr⟩ := hsubmitted.touched
      simp only [SlashingPipeline.counted, hsubmit, ends_currentRecord, hid, hr]
      have hput : ∀ {record : SlashEvidenceRecord} {p₂ : SlashingPipeline}, p₂.registry = reg →
          reg.getRecord id ≠ p.registry.getRecord id →
          Ends (do putRecord fault record; putBond fault id submitter ⟨0,.whistleblower⟩; return id) p₂
            (fun id' p' => id' = id ∧ ∀ id', id' ≠ id → p'.registry.getRecord id' = p.registry.getRecord id')
            (fun _ p' => (∃ r, p'.registry.getRecord id = some r ∧ p.registry.getRecord id ≠ some r) ∧
              ∀ id', id' ≠ id → p'.registry.getRecord id' = p.registry.getRecord id') := by
        intro record p₂ hreg hne
        rw [hr] at hne
        have hafter : ∀ p' : SlashingPipeline, p'.registry = reg →
            (∃ r, p'.registry.getRecord id = some r ∧ p.registry.getRecord id ≠ some r) ∧
              ∀ id', id' ≠ id → p'.registry.getRecord id' = p.registry.getRecord id' := by
          rintro p' rfl
          exact ⟨⟨r,hr,hne.symm⟩,hothers⟩
        simp only [ends_bind, ends_pure]
        refine ends_putRecord ?_ fun _ => hafter _ hreg
        refine ends_putBond (fun p₃ h₃ => ⟨trivial,(hafter p₃ (h₃.registry.trans hreg)).2⟩)
          fun _ p₃ h₃ => hafter p₃ (h₃.registry.trans hreg)
      rcases hchanged with ⟨rfl,rfl⟩ | ⟨rfl | rfl,hne⟩
      · exact ⟨rfl,hothers⟩
      · exact hput rfl hne
      · exact hput rfl hne
  · simp [hverify]

/-- An evidence that takes hold goes into the record of its validator and its block. -/
theorem yields_iff (s : SlashingState) (call : IngestCall) (id : H256) :
    Yields P sha3 bincode ⟨s,call,(ingestStep P sha3 bincode s call).2⟩ id ↔
      TakesHold P ⟨s,call,(ingestStep P sha3 bincode s call).2⟩ ∧ id = sha3 call.idInput := by
  unfold Yields TakesHold ingestStep slashingStep IngestCall.event
  dsimp only
  rcases hrun : (ingestEquivocation P sha3 bincode call.fault call.ev call.submitter call.currentBlock
    call.currentEpoch call.offenderStake).exec s.1 with ⟨e | id',p'⟩
  · have hends := (ends_ingest call.ev call.submitter call.currentBlock call.currentEpoch
      call.offenderStake).of_error hrun
    simp only [SlashingAnswer.ingested.injEq, reduceCtorEq, false_or]
    by_cases htakes : call.ev.verify P = true ∧ call.fault s.1.operations = none
    · rw [if_pos htakes] at hends
      constructor
      · rintro ⟨r,hr,hne⟩
        refine ⟨htakes,?_⟩
        by_contra hid
        rw [hends.2 id hid] at hr
        exact hne hr
      · rintro ⟨-,rfl⟩
        exact hends.1
    · rw [if_neg htakes] at hends
      rw [hends]
      simp only [htakes, false_and, iff_false, not_exists, not_and, not_not]
      exact fun r hr => hr
  · obtain ⟨htakes,hid,hothers⟩ := (ends_ingest call.ev call.submitter call.currentBlock call.currentEpoch
      call.offenderStake).of_ok hrun
    constructor
    · rintro (houtput | ⟨r,hr,hne⟩)
      · simp only [SlashingAnswer.ingested.injEq, Except.ok.injEq] at houtput
        exact ⟨htakes,houtput.symm.trans hid⟩
      · refine ⟨htakes,?_⟩
        by_contra hne'
        rw [hothers id hne'] at hr
        exact hne hr
    · rintro ⟨-,rfl⟩
      exact Or.inl (by rw [hid]; rfl)

end Records

/-- Where no ids collide, each offence has its slash if, and only if, a validator's evidences
are of one offence just when they are submitted in one block. -/
theorem one_slash_each_iff (P : Platform) (sha3 : List UInt8 → H256) (bincode : EquivocationEvidence → List UInt8)
    (s : SlashingState) (calls : List IngestCall)
    (hsha3 : Set.InjOn sha3 {input | ∃ call ∈ calls, input = call.idInput}) :
    OneSlashEach P sha3 bincode (history (ingestStep P sha3 bincode) s calls) ↔
      ∀ e ∈ history (ingestStep P sha3 bincode) s calls, ∀ e' ∈ history (ingestStep P sha3 bincode) s calls,
        TakesHold P e → TakesHold P e' → e.call.ev.validator = e'.call.ev.validator →
        (SameOffence e.call.ev e'.call.ev ↔ e.call.currentBlock = e'.call.currentBlock) := by
  have hyields : ∀ e ∈ history (ingestStep P sha3 bincode) s calls, ∀ id,
      Yields P sha3 bincode e id ↔ TakesHold P e ∧ id = sha3 e.call.idInput := by
    rintro ⟨before,call,output⟩ he id
    obtain rfl : output = (ingestStep P sha3 bincode before call).2 := output_eq _ he
    exact yields_iff before call id
  have hids : ∀ e ∈ history (ingestStep P sha3 bincode) s calls, ∀ e' ∈ history (ingestStep P sha3 bincode) s calls,
      e.call.ev.validator = e'.call.ev.validator →
      (sha3 e.call.idInput = sha3 e'.call.idInput ↔ e.call.currentBlock = e'.call.currentBlock) := by
    intro e he e' he' hvalidator
    rw [hsha3.eq_iff ⟨e.call,call_mem _ he,rfl⟩ ⟨e'.call,call_mem _ he',rfl⟩, IngestCall.idInput,
      IngestCall.idInput, hvalidator, idInput_inj]
  constructor
  · intro honce e he e' he' htakes htakes' hvalidator
    rw [honce e he e' he' _ _ ((hyields e he _).mpr ⟨htakes,rfl⟩) ((hyields e' he' _).mpr ⟨htakes',rfl⟩) hvalidator]
    exact hids e he e' he' hvalidator
  · intro hblocks e he e' he' id id' hid hid' hvalidator
    obtain ⟨htakes,rfl⟩ := (hyields e he id).mp hid
    obtain ⟨htakes',rfl⟩ := (hyields e' he' id').mp hid'
    rw [hblocks e he e' he' htakes htakes' hvalidator]
    exact (hids e he e' he' hvalidator).symm

def doubleVoteIn (round : UInt64) (blockA blockB : H256) : EquivocationEvidence :=
  let vote (blockHash : H256) : ZbxChain.Vote :=
    let data : VoteData := ⟨blockHash,round,0,0⟩
    ⟨data,7,Platform.integers.sign 1 (data.signingHash .integers)⟩
  ⟨7,round,0,vote blockA,vote blockB,1⟩

def submittedAt (ev : EquivocationEvidence) (currentBlock : UInt64) : IngestCall :=
  ⟨fun _ => none,ev,8,currentBlock,0,minSelfStake⟩

theorem injOn_pair {sha3 : List UInt8 → H256} {call call' : IngestCall}
    (h : sha3 call.idInput = sha3 call'.idInput → call.idInput = call'.idInput) :
    Set.InjOn sha3 {input | ∃ c ∈ [call,call'], input = c.idInput} := by
  rintro _ ⟨c,hc,rfl⟩ _ ⟨c',hc',rfl⟩ heq
  simp only [List.mem_cons, List.not_mem_nil, or_false] at hc hc'
  rcases hc with rfl | rfl
  · rcases hc' with rfl | rfl
    · rfl
    · exact h heq
  · rcases hc' with rfl | rfl
    · exact (h heq.symm).symm
    · rfl

theorem one_slash_each_two_rounds :
    OneSlashEach .integers Platform.integers.keccak256 (fun _ => [])
      (history (ingestStep .integers Platform.integers.keccak256 (fun _ => [])) (.start activeValidators 100)
        [submittedAt (doubleVoteIn 1 1 2) 1,submittedAt (doubleVoteIn 2 3 4) 2]) ↔
      ∀ e ∈ history (ingestStep .integers Platform.integers.keccak256 (fun _ => [])) (.start activeValidators 100)
        [submittedAt (doubleVoteIn 1 1 2) 1,submittedAt (doubleVoteIn 2 3 4) 2],
      ∀ e' ∈ history (ingestStep .integers Platform.integers.keccak256 (fun _ => [])) (.start activeValidators 100)
        [submittedAt (doubleVoteIn 1 1 2) 1,submittedAt (doubleVoteIn 2 3 4) 2],
        TakesHold .integers e → TakesHold .integers e' → e.call.ev.validator = e'.call.ev.validator →
        (SameOffence e.call.ev e'.call.ev ↔ e.call.currentBlock = e'.call.currentBlock) :=
  one_slash_each_iff .integers Platform.integers.keccak256 (fun _ => []) (.start activeValidators 100)
    [submittedAt (doubleVoteIn 1 1 2) 1,submittedAt (doubleVoteIn 2 3 4) 2]
    (injOn_pair fun heq => absurd heq (by decide +kernel))

/-- One double vote that is reported in two blocks is slashed twice. -/
theorem offence_slashed_twice : ¬ ∀ (P : Platform) (sha3 : List UInt8 → H256)
    (bincode : EquivocationEvidence → List UInt8) (s : SlashingState) (calls : List IngestCall),
    Set.InjOn sha3 {input | ∃ call ∈ calls, input = call.idInput} →
    OneSlashEach P sha3 bincode (history (ingestStep P sha3 bincode) s calls) := by
  intro h
  have hids : Platform.integers.keccak256 (submittedAt (doubleVoteIn 1 1 2) 1).idInput ≠
      Platform.integers.keccak256 (submittedAt (doubleVoteIn 1 1 2) 2).idInput := by decide +kernel
  have honce := h .integers Platform.integers.keccak256 (fun _ => []) (.start activeValidators 100)
    [submittedAt (doubleVoteIn 1 1 2) 1,submittedAt (doubleVoteIn 1 1 2) 2]
    (injOn_pair fun heq => absurd heq hids)
  have hverify : (doubleVoteIn 1 1 2).verify .integers = true := by decide +kernel
  refine hids ((honce _ List.mem_cons_self _ (List.mem_cons_of_mem _ List.mem_cons_self) _ _
    ((yields_iff _ _ _).mpr ⟨⟨hverify,rfl⟩,rfl⟩) ((yields_iff _ _ _).mpr ⟨⟨hverify,rfl⟩,rfl⟩) rfl).mp ?_)
  exact ⟨rfl,rfl,rfl,Or.inl ⟨rfl,rfl⟩⟩

end ZbxChain.Staking
