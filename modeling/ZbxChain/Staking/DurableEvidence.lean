import ZbxChain.Staking.Offences

/-! # Evidence that is accepted, and what is on disk of it

The registry takes an evidence before its record is written. Where the write fails the call
does too, but the submitter is in the record from then on, and a second call of its finds
nothing left to write.
-/
namespace ZbxChain.Staking
open SlashingPipeline Stateful Machine

/-- `get_record`, where the disk can be read. -/
def EvidenceStore.getRecord (store : EvidenceStore) (id : H256) : Option SlashEvidenceRecord :=
  store.records.lookup id

/-- The record takes no more from this submitter: it is closed, or has the submitter already. -/
def SlashingRegistryV2.listed (reg : SlashingRegistryV2) (id : H256) (submitter : Address) : Bool :=
  match reg.getRecord id with
  | none => false
  | some r => r.status ≠ .pending || r.submittedBy = submitter || submitter ∈ r.reporters

section Submissions
variable {sha3 : List UInt8 → H256} {reg : SlashingRegistryV2}

theorem exists_of_listed {id : H256} {submitter : Address} (h : reg.listed id submitter = true) :
    ∃ r, reg.getRecord id = some r := by
  unfold SlashingRegistryV2.listed at h
  cases hr : reg.getRecord id with
  | none =>
    rw [hr] at h
    cases h
  | some r => exact ⟨r,rfl⟩

/-- Both copies have a record, with the same slash and the same reporters. -/
def Agree (memory disk : Option SlashEvidenceRecord) : Prop :=
  ∃ r d, memory = some r ∧ disk = some d ∧ d.offender = r.offender ∧ d.status = r.status ∧
    d.reporters = r.reporters ∧ d.finalSlashWei = r.finalSlashWei

theorem Agree.of_some {r : SlashEvidenceRecord} {disk : Option SlashEvidenceRecord}
    (h : disk = some r) : Agree (some r) disk := ⟨r,r,rfl,h,rfl,rfl,rfl,rfl⟩

/-- The record in memory is new to the disk, or has reporters that the disk does not. -/
def Ahead (memory disk : Option SlashEvidenceRecord) : Prop :=
  ∃ r, memory = some r ∧ ∀ d, disk = some d → d.reporters.length < r.reporters.length

theorem Ahead.not_agree {memory disk : Option SlashEvidenceRecord} (h : Ahead memory disk) : ¬ Agree memory disk := by
  rintro ⟨r,d,hr,hd,-,-,hreporters,-⟩
  obtain ⟨r',hr',hless⟩ := h
  obtain rfl := Option.some.inj (hr.symm.trans hr')
  have hlength := hless d hd
  rw [hreporters] at hlength
  exact lt_irrefl _ hlength

/-- A record that is new, or has one more reporter. -/
structure Enters (reg reg' : SlashingRegistryV2) (id : H256) (r : SlashEvidenceRecord) : Prop where
  record : reg'.getRecord id = some r
  others : ∀ id', id' ≠ id → reg'.getRecord id' = reg.getRecord id'
  longer : Ahead (some r) (reg.getRecord id)
  keyed : (∀ r, reg.getRecord id = some r → r.id = id) → r.id = id

variable (sha3 reg) in
/-- A submission answers that it is recorded, or enters its submitter. -/
theorem submitEvidence_cases {evidence : SlashEvidenceV2} {offender : Address} (submittedBy : Address)
    (currentBlock currentEpoch : UInt64) (offenderStake : ℕ) (hoffender : evidence.offender = some offender) :
    let id := computeIdForOffender sha3 offender currentBlock evidence.evidenceType
    (reg.listed id submittedBy = true ∧
      reg.submitEvidence sha3 evidence submittedBy currentBlock currentEpoch offenderStake =
        .ok (.alreadyRecorded id,reg)) ∨
    (reg.listed id submittedBy = false ∧ ∃ outcome reg' r, (outcome = .newRecord id ∨ outcome = .coWitnessAdded id) ∧
      reg.submitEvidence sha3 evidence submittedBy currentBlock currentEpoch offenderStake = .ok (outcome,reg') ∧
      Enters reg reg' id r) := by
  intro id
  unfold SlashingRegistryV2.submitEvidence SlashingRegistryV2.listed
  rw [hoffender]
  dsimp only
  cases hr : reg.getRecord id with
  | none =>
    refine Or.inr ⟨rfl,_,_,_,Or.inl rfl,rfl,AList.lookup_insert _,fun id' hne => AList.lookup_insert_ne hne,?_,?_⟩
    · exact ⟨_,rfl,fun d hd => by cases hr.symm.trans hd⟩
    · exact fun _ => rfl
  | some r =>
    dsimp only
    by_cases hclosed : r.status ≠ .pending
    · exact Or.inl ⟨by simp [hclosed],by rw [if_pos hclosed]⟩
    · rw [if_neg hclosed]
      by_cases hlisted : r.submittedBy = submittedBy ∨ submittedBy ∈ r.reporters
      · exact Or.inl ⟨by simpa [hclosed] using hlisted,by rw [if_pos hlisted]⟩
      · rw [if_neg hlisted]
        refine Or.inr ⟨by simpa [hclosed] using hlisted,_,_,_,Or.inr rfl,rfl,
          getRecord_update hr _,fun id' hne => (AList.lookup_modify _ _ _ _).trans (if_neg hne),?_,?_⟩
        · refine ⟨_,rfl,fun d hd => ?_⟩
          obtain rfl := Option.some.inj (hr.symm.trans hd)
          simp
        · exact fun hkeyed => hkeyed r hr

end Submissions

section Calls
variable (P : Platform) (sha3 : List UInt8 → H256) (bincode : EquivocationEvidence → List UInt8)

instance (e : IngestEntry) : Decidable (TakesHold P e) := inferInstanceAs (Decidable (_ ∧ _))

def Repeated (e : IngestEntry) : Prop :=
  TakesHold P e ∧ e.before.1.registry.listed (sha3 e.call.idInput) e.call.submitter = true

def Entered (e : IngestEntry) : Prop :=
  TakesHold P e ∧ e.before.1.registry.listed (sha3 e.call.idInput) e.call.submitter = false

instance (e : IngestEntry) : Decidable (Entered P sha3 e) := inferInstanceAs (Decidable (_ ∧ _))

/-- Whether a call gets a record written, where it comes to it. -/
def recordWrite (id : H256) (e : IngestEntry) : Option Bool :=
  if Entered P sha3 e ∧ sha3 e.call.idInput = id then some (e.call.fault (e.before.1.operations + 1)).isNone
  else none

/-- What the last write of the record has come to, where there was one. -/
def lastWrite (past : List IngestEntry) (id : H256) : Option Bool :=
  (past.filterMap (recordWrite P sha3 id)).getLast?

inductive Ingested (e : IngestEntry) (p' : SlashingPipeline) : Except StakingError H256 → Prop
  | refused {err : StakingError} (h : ¬ TakesHold P e) (hsame : SameRecords e.before.1 p') : Ingested e p' (.error err)
  | repeated (h : Repeated P sha3 e) (hsame : SameRecords e.before.1 p') : Ingested e p' (.ok (sha3 e.call.idInput))
  | unwritten {err : StakingError} {r : SlashEvidenceRecord} (h : Entered P sha3 e)
      (hfault : e.call.fault (e.before.1.operations + 1) ≠ none)
      (henters : Enters e.before.1.registry p'.registry (sha3 e.call.idInput) r)
      (hdisk : p'.store.records = e.before.1.store.records) : Ingested e p' (.error err)
  | written {r : SlashEvidenceRecord} {result : Except StakingError H256} (h : Entered P sha3 e)
      (hfault : e.call.fault (e.before.1.operations + 1) = none)
      (henters : Enters e.before.1.registry p'.registry (sha3 e.call.idInput) r)
      (hdisk : p'.store.records = e.before.1.store.records.insert r.id r)
      (hresult : ∀ id, result = .ok id → id = sha3 e.call.idInput) : Ingested e p' result

variable {P sha3 bincode}

theorem ends_written {e : IngestEntry} {p : SlashingPipeline} {r : SlashEvidenceRecord} (h : Entered P sha3 e)
    (henters : Enters e.before.1.registry p.registry (sha3 e.call.idInput) r)
    (hdisk : p.store.records = e.before.1.store.records) (hcount : p.operations = e.before.1.operations + 1) :
    Ends (do
        putRecord e.call.fault r
        putBond e.call.fault (sha3 e.call.idInput) e.call.submitter ⟨0,.whistleblower⟩
        return sha3 e.call.idInput) p
      (fun id p' => Ingested P sha3 e p' (.ok id)) (fun err p' => Ingested P sha3 e p' (.error err)) := by
  unfold putRecord
  simp only [ends_bind, ends_modify, ends_pure]
  refine ends_storageOp (fun hfault => ?_) fun err hfault => ?_
  · rw [hcount] at hfault
    have hsaved : ∀ {p' result}, SameRecords (p.saved r) p' →
        (∀ id, result = .ok id → id = sha3 e.call.idInput) → Ingested P sha3 e p' result := by
      intro p' result hsame hresult
      refine .written h hfault (hsame.registry ▸ henters) ?_ hresult
      rw [hsame.records, ← hdisk]
      rfl
    refine ends_putBond (fun p' hsame => hsaved hsame fun id hid => ?_) fun err p' hsame => hsaved hsame fun id hid => ?_
    · exact (Except.ok.inj hid).symm
    · cases hid
  · rw [hcount] at hfault
    exact .unwritten h hfault henters hdisk

variable (P sha3 bincode) in
/-- A call is refused, repeats what is recorded, or enters its submitter, and then the record
is written or not. -/
theorem ends_ingested (e : IngestEntry) :
    Ends (ingestEquivocation P sha3 bincode e.call.fault e.call.ev e.call.submitter e.call.currentBlock
        e.call.currentEpoch e.call.offenderStake) e.before.1
      (fun id p' => Ingested P sha3 e p' (.ok id)) (fun err p' => Ingested P sha3 e p' (.error err)) := by
  unfold ingestEquivocation
  by_cases hverify : e.call.ev.verify P = true
  · simp only [hverify, Bool.not_true, Bool.false_eq_true, if_false, ends_bind]
    unfold putEvidence
    rw [ends_bind]
    refine ends_storageOp (fun hfault => ?_) fun err hfault => .refused (fun h => hfault h.2) ⟨rfl,rfl,rfl⟩
    have htakes : TakesHold P e := ⟨hverify,hfault⟩
    simp only [ends_modify, ends_onRegistry]
    have hoffender : (evidenceToDoubleSign e.call.ev).offender = some e.call.ev.validator := rfl
    rcases submitEvidence_cases sha3 e.before.1.registry e.call.submitter e.call.currentBlock
      e.call.currentEpoch e.call.offenderStake hoffender with ⟨hlisted,hrun⟩ | ⟨hlisted,outcome,reg',r,houtcome,hrun,henters⟩
    · obtain ⟨r,hr⟩ := exists_of_listed hlisted
      simp only [counted, hrun, ends_currentRecord, SubmitOutcome.recordId]
      rw [hr]
      exact .repeated ⟨htakes,hlisted⟩ ⟨rfl,rfl,rfl⟩
    · have hid : outcome.recordId = sha3 e.call.idInput := by
        rcases houtcome with rfl | rfl
        · rfl
        · rfl
      have hrecord : reg'.getRecord (sha3 e.call.idInput) = some r := henters.record
      simp only [counted, hrun, ends_currentRecord, hid, hrecord]
      rcases houtcome with rfl | rfl
      · exact ends_written ⟨htakes,hlisted⟩ henters rfl rfl
      · exact ends_written ⟨htakes,hlisted⟩ henters rfl rfl
  · simp only [hverify]
    exact .refused (fun h => hverify h.1) (.refl _)

variable (P sha3 bincode) in
theorem ingested_step (s : SlashingState) (call : IngestCall) :
    ∃ result, (ingestStep P sha3 bincode s call).2 = .ingested result ∧
      Ingested P sha3 ⟨s,call,(ingestStep P sha3 bincode s call).2⟩ (ingestStep P sha3 bincode s call).1.1 result := by
  have hends := ends_ingested P sha3 bincode ⟨s,call,(ingestStep P sha3 bincode s call).2⟩
  rcases hrun : (ingestEquivocation P sha3 bincode call.fault call.ev call.submitter call.currentBlock
    call.currentEpoch call.offenderStake).exec s.1 with ⟨err | id,p'⟩
  · have hstep : ingestStep P sha3 bincode s call = ((p',s.2),.ingested (.error err)) := by
      simp [ingestStep, slashingStep, IngestCall.event, hrun]
    exact ⟨.error err,by rw [hstep],by simpa only [hstep] using hends.of_error hrun⟩
  · have hstep : ingestStep P sha3 bincode s call = ((p',s.2),.ingested (.ok id)) := by
      simp [ingestStep, slashingStep, IngestCall.event, hrun]
    exact ⟨.ok id,by rw [hstep],by simpa only [hstep] using hends.of_ok hrun⟩

end Calls

section Runs
variable {P : Platform} {sha3 : List UInt8 → H256} {bincode : EquivocationEvidence → List UInt8}
  {past : List IngestEntry} {s : SlashingState}

theorem Repeated.not_entered {e : IngestEntry} (h : Repeated P sha3 e) : ¬ Entered P sha3 e := by
  intro hentered
  have hlisted := h.2
  rw [hentered.2] at hlisted
  cases hlisted

theorem recordWrite_of_not_entered {e : IngestEntry} (h : ¬ Entered P sha3 e) (id : H256) :
    recordWrite P sha3 id e = none := if_neg fun hboth => h hboth.1

theorem lastWrite_append_none {e : IngestEntry} {id : H256} (h : recordWrite P sha3 id e = none) :
    lastWrite P sha3 (past ++ [e]) id = lastWrite P sha3 past id := by
  unfold lastWrite
  rw [List.filterMap_append, List.filterMap_cons_none h, List.filterMap_nil, List.append_nil]

theorem lastWrite_append_some {e : IngestEntry} {id : H256} {saved : Bool}
    (h : recordWrite P sha3 id e = some saved) : lastWrite P sha3 (past ++ [e]) id = some saved := by
  unfold lastWrite
  rw [List.filterMap_append, List.filterMap_cons_some h, List.filterMap_nil, List.getLast?_concat]

/-- The disk has the record as the memory does, unless its last write has failed. -/
structure Copied (P : Platform) (sha3 : List UInt8 → H256) (past : List IngestEntry) (p : SlashingPipeline)
    (id : H256) : Prop where
  failed : lastWrite P sha3 past id = some false → Ahead (p.registry.getRecord id) (p.store.getRecord id)
  saved : lastWrite P sha3 past id ≠ some false → p.store.getRecord id = p.registry.getRecord id

theorem Copied.keep {p p' : SlashingPipeline} {id : H256} (h : Copied P sha3 past p id) {e : IngestEntry}
    (hwrite : recordWrite P sha3 id e = none) (hmemory : p'.registry.getRecord id = p.registry.getRecord id)
    (hdisk : p'.store.getRecord id = p.store.getRecord id) : Copied P sha3 (past ++ [e]) p' id := by
  constructor
  · rw [lastWrite_append_none hwrite, hmemory, hdisk]
    exact h.failed
  · rw [lastWrite_append_none hwrite, hmemory, hdisk]
    exact h.saved

theorem Copied.ahead {p : SlashingPipeline} {id : H256} (h : Copied P sha3 past p id) {r : SlashEvidenceRecord}
    (hlonger : Ahead (some r) (p.registry.getRecord id)) : Ahead (some r) (p.store.getRecord id) := by
  by_cases hfailed : lastWrite P sha3 past id = some false
  · obtain ⟨r₀,hr₀,hless₀⟩ := h.failed hfailed
    obtain ⟨_,hr,hless⟩ := hlonger
    cases hr
    exact ⟨r,rfl,fun d hd => (hless₀ d hd).trans (hless r₀ hr₀)⟩
  · rwa [h.saved hfailed]

theorem Copied.step {e : IngestEntry} {p' : SlashingPipeline} {result : Except StakingError H256}
    (h : ∀ id, Copied P sha3 past e.before.1 id)
    (hkeyed : ∀ id r, e.before.1.registry.getRecord id = some r → r.id = id)
    (hcall : Ingested P sha3 e p' result) (id : H256) : Copied P sha3 (past ++ [e]) p' id := by
  have hsame : ¬ Entered P sha3 e → SameRecords e.before.1 p' → Copied P sha3 (past ++ [e]) p' id :=
    fun hnot hrecords => (h id).keep (recordWrite_of_not_entered hnot id)
      (congrArg (SlashingRegistryV2.getRecord · id) hrecords.registry) (congrArg (AList.lookup id) hrecords.records)
  cases hcall with
  | refused hnot hrecords => exact hsame (fun hentered => hnot hentered.1) hrecords
  | repeated hrepeated hrecords => exact hsame hrepeated.not_entered hrecords
  | @unwritten err r hentered hfault henters hdisk =>
    by_cases hid : id = sha3 e.call.idInput
    · subst hid
      have hwrite : recordWrite P sha3 (sha3 e.call.idInput) e = some false := by
        rw [recordWrite, if_pos ⟨hentered,rfl⟩, Option.some_inj, Option.isNone_eq_false_iff]
        exact Option.isSome_iff_ne_none.mpr hfault
      refine ⟨fun _ => ?_,fun hne => absurd (lastWrite_append_some hwrite) hne⟩
      rw [henters.record, EvidenceStore.getRecord, hdisk]
      exact (h _).ahead henters.longer
    · exact (h id).keep (if_neg fun hboth => hid hboth.2.symm) (henters.others id hid)
        (congrArg (AList.lookup id) hdisk)
  | @written r _ hentered hfault henters hdisk hresult =>
    have hr : r.id = sha3 e.call.idInput := henters.keyed (hkeyed _)
    rw [hr] at hdisk
    by_cases hid : id = sha3 e.call.idInput
    · subst hid
      have hwrite : recordWrite P sha3 (sha3 e.call.idInput) e = some true := by
        rw [recordWrite, if_pos ⟨hentered,rfl⟩, hfault]
        rfl
      refine ⟨fun hfailed => ?_,fun _ => ?_⟩
      · rw [lastWrite_append_some hwrite] at hfailed
        cases hfailed
      · rw [henters.record, EvidenceStore.getRecord, hdisk, AList.lookup_insert]
    · refine (h id).keep (if_neg fun hboth => hid hboth.2.symm) (henters.others id hid) ?_
      rw [EvidenceStore.getRecord, EvidenceStore.getRecord, hdisk, AList.lookup_insert_ne hid]

end Runs

section Durability
variable (P : Platform) (sha3 : List UInt8 → H256) (bincode : EquivocationEvidence → List UInt8)

/-- The record is on disk as it is in memory, and a restart finds it there. -/
structure Kept (s : SlashingState) (id : H256) : Prop where
  stored : Agree (s.1.registry.getRecord id) (s.1.store.getRecord id)
  restarted : ∀ totalValidators, Agree (s.1.registry.getRecord id)
    ((slashingStep P sha3 bincode s (.restart totalValidators)).1.1.registry.getRecord id)

/-- Whenever a call answers with an id, the record is kept. -/
def Durable (s : SlashingState) (calls : List IngestCall) : Prop :=
  ∀ e ∈ history (ingestStep P sha3 bincode) s calls, ∀ id, e.output = .ingested (.ok id) →
    Kept P sha3 bincode (ingestStep P sha3 bincode e.before e.call).1 id

/-- No call repeats an evidence after the last write of its record has failed. -/
def RepeatsSaved (s : SlashingState) (calls : List IngestCall) : Prop :=
  ∀ past e rest, history (ingestStep P sha3 bincode) s calls = past ++ e :: rest → Repeated P sha3 e →
    lastWrite P sha3 past (sha3 e.call.idInput) ≠ some false

def restarted (validators : ValidatorSet) (totalValidators : UInt64) (events : List SlashingEvent)
    (totalValidators' : UInt64) : SlashingState :=
  (slashingStep P sha3 bincode (final (slashingStep P sha3 bincode) (.start validators totalValidators) events)
    (.restart totalValidators')).1

variable {P sha3 bincode} {past : List IngestEntry} {s : SlashingState}

theorem kept_of_saved {id : H256} (hs : s.copies.InStep) (hsaved : s.1.store.getRecord id = s.1.registry.getRecord id)
    (hsome : ∃ r, s.1.registry.getRecord id = some r) : Kept P sha3 bincode s id := by
  obtain ⟨r,hr⟩ := hsome
  rw [hr] at hsaved
  refine ⟨hr ▸ .of_some hsaved,fun totalValidators => hr ▸ .of_some ?_⟩
  obtain ⟨-,-,hmemory⟩ := rebuilt_restart P sha3 bincode hs totalValidators
  exact (hmemory id).trans hsaved

/-- A call that answers is durable, unless it repeats what was not written. -/
theorem durable_call_iff (hs : s.copies.InStep) (h : ∀ id, Copied P sha3 past s.1 id) (call : IngestCall) :
    (∀ id, (ingestStep P sha3 bincode s call).2 = .ingested (.ok id) →
        Kept P sha3 bincode (ingestStep P sha3 bincode s call).1 id) ↔
      (Repeated P sha3 ⟨s,call,(ingestStep P sha3 bincode s call).2⟩ →
        lastWrite P sha3 past (sha3 call.idInput) ≠ some false) := by
  have hs' : (ingestStep P sha3 bincode s call).1.copies.InStep := inStep_slashingStep hs call.event
  obtain ⟨result,hout,hcall⟩ := ingested_step P sha3 bincode s call
  rw [hout]
  cases hcall with
  | refused hnot hrecords => exact ⟨fun _ hrepeated => absurd hrepeated.1 hnot,fun _ => nofun⟩
  | repeated hrepeated hrecords =>
    have hmemory : ∀ id, (ingestStep P sha3 bincode s call).1.1.registry.getRecord id = s.1.registry.getRecord id :=
      fun id => congrArg (SlashingRegistryV2.getRecord · id) hrecords.registry
    have hdisk : ∀ id, (ingestStep P sha3 bincode s call).1.1.store.getRecord id = s.1.store.getRecord id :=
      fun id => congrArg (AList.lookup id) hrecords.records
    constructor
    · intro hdurable _ hfailed
      have hagree := (hdurable _ rfl).stored
      rw [hmemory, hdisk] at hagree
      exact ((h _).failed hfailed).not_agree hagree
    · rintro hlast id hid
      obtain rfl : sha3 call.idInput = id := by simpa using hid
      refine kept_of_saved hs' ?_ ?_
      · rw [hmemory, hdisk]
        exact (h _).saved (hlast hrepeated)
      · rw [hmemory]
        exact exists_of_listed hrepeated.2
  | unwritten hentered hfault henters hdisk =>
    exact ⟨fun _ hrepeated => absurd hentered hrepeated.not_entered,fun _ => nofun⟩
  | @written r _ hentered hfault henters hdisk hresult =>
    refine ⟨fun _ hrepeated => absurd hentered hrepeated.not_entered,fun _ id hid => ?_⟩
    obtain rfl := hresult id (SlashingAnswer.ingested.inj hid)
    have hr : r.id = sha3 call.idInput := henters.keyed (hs.keyed _)
    refine kept_of_saved hs' ?_ ⟨r,henters.record⟩
    rw [henters.record, EvidenceStore.getRecord, hdisk, hr, AList.lookup_insert]

theorem tracked_run (hs : s.copies.InStep) (hsaved : ∀ id, s.1.store.getRecord id = s.1.registry.getRecord id)
    (calls : List IngestCall) :
    (final (ingestStep P sha3 bincode) s calls).copies.InStep ∧
      ∀ id, Copied P sha3 (history (ingestStep P sha3 bincode) s calls)
        (final (ingestStep P sha3 bincode) s calls).1 id := by
  have hstart : ∀ id, Copied P sha3 [] s.1 id := fun id => ⟨nofun,fun _ => hsaved id⟩
  refine trace_invariant (ingestStep P sha3 bincode) (G := fun _ _ => True)
    (J := fun past s => s.copies.InStep ∧ ∀ id, Copied P sha3 past s.1 id) ⟨hs,hstart⟩ ?_ calls fun _ _ => trivial
  rintro past s call ⟨hs,h⟩ -
  obtain ⟨result,-,hcall⟩ := ingested_step P sha3 bincode s call
  exact ⟨inStep_slashingStep hs call.event,Copied.step h hs.keyed hcall⟩

theorem durable_iff_of_saved (hs : s.copies.InStep)
    (hsaved : ∀ id, s.1.store.getRecord id = s.1.registry.getRecord id) (calls : List IngestCall) :
    Durable P sha3 bincode s calls ↔ RepeatsSaved P sha3 bincode s calls := by
  constructor
  · rintro hdurable past ⟨before,call,output⟩ rest hcut hrepeated
    obtain ⟨xs,rfl,hbefore,hout⟩ := history_cut _ hcut
    obtain ⟨hsxs,hxs⟩ := tracked_run hs hsaved xs
    dsimp only at hbefore hout
    subst hout
    rw [← hbefore] at hsxs hxs
    refine (durable_call_iff hsxs hxs call).mp (hdurable ⟨before,call,_⟩ ?_) hrepeated
    rw [hcut]
    exact List.mem_append_right _ List.mem_cons_self
  · rintro hsaves ⟨before,call,output⟩ he id hid
    obtain ⟨past,rest,hcut⟩ := List.append_of_mem he
    obtain ⟨xs,rfl,hbefore,hout⟩ := history_cut _ hcut
    obtain ⟨hsxs,hxs⟩ := tracked_run hs hsaved xs
    dsimp only at hbefore hout hid
    subst hout
    rw [← hbefore] at hsxs hxs
    exact (durable_call_iff hsxs hxs call).mpr (hsaves _ _ _ hcut) id hid

theorem saved_restarted (P : Platform) (sha3 : List UInt8 → H256) (bincode : EquivocationEvidence → List UInt8)
    (validators : ValidatorSet) (totalValidators : UInt64) (events : List SlashingEvent) (totalValidators' : UInt64) :
    let s := restarted P sha3 bincode validators totalValidators events totalValidators'
    s.copies.InStep ∧ ∀ id, s.1.store.getRecord id = s.1.registry.getRecord id := by
  have hold := inStep_final P sha3 bincode validators totalValidators events
  refine ⟨inStep_slashingStep hold (.restart totalValidators'),fun id => ?_⟩
  obtain ⟨hstore,-,hmemory⟩ := rebuilt_restart P sha3 bincode hold totalValidators'
  refine Eq.trans ?_ (hmemory id).symm
  rw [EvidenceStore.getRecord, restarted, hstore]

/-- After a start, evidence is durable in the runs that repeat none after a failed write, and in
no others. -/
theorem durable_iff (P : Platform) (sha3 : List UInt8 → H256) (bincode : EquivocationEvidence → List UInt8)
    (validators : ValidatorSet) (totalValidators : UInt64) (events : List SlashingEvent) (totalValidators' : UInt64)
    (calls : List IngestCall) :
    Durable P sha3 bincode (restarted P sha3 bincode validators totalValidators events totalValidators') calls ↔
      RepeatsSaved P sha3 bincode (restarted P sha3 bincode validators totalValidators events totalValidators')
        calls := by
  obtain ⟨hs,hsaved⟩ := saved_restarted P sha3 bincode validators totalValidators events totalValidators'
  exact durable_iff_of_saved hs hsaved calls

/-- The write of the record is the third operation of the store, after the start and the evidence. -/
def unwrittenCall : IngestCall :=
  { submittedAt (doubleVoteIn 1 1 2) 1 with fault := fun n => if n = 2 then some "disk full" else none }

/-- A reporter who tries again after a failed write is told that all is recorded. -/
theorem repeated_not_durable : ¬ Durable .integers Platform.integers.keccak256 (fun _ => [])
    (restarted .integers Platform.integers.keccak256 (fun _ => []) activeValidators 100 [] 100)
    [unwrittenCall,submittedAt (doubleVoteIn 1 1 2) 1] := by
  obtain ⟨hs,hsaved⟩ := saved_restarted .integers Platform.integers.keccak256 (fun _ => []) activeValidators 100 [] 100
  rw [durable_iff_of_saved hs hsaved]
  intro hsaves
  refine hsaves [_] _ [] rfl ⟨⟨?_,rfl⟩,?_⟩ ?_
  · decide +kernel
  · decide +kernel
  · decide +kernel

end Durability

end ZbxChain.Staking
