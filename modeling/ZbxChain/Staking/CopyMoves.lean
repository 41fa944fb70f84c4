import ZbxChain.Staking.RecordCopies

/-! # What the pipeline does to the copies of its records

Every operation of the pipeline moves the copies, whichever operations of the store fail in it,
and a restart puts the disk in the place of the memory. Only a tick may burn a record again, and
only where it replays a burn that its guard lets through.
-/
namespace ZbxChain.Staking
open SlashingPipeline Stateful Relation

namespace SlashingPipeline

/-- The pipeline after an operation of the store that failed. -/
def counted (p : SlashingPipeline) : SlashingPipeline := { p with operations := p.operations + 1 }

def saved (p : SlashingPipeline) (record : SlashEvidenceRecord) : SlashingPipeline :=
  { p with
    store := { p.store with records := p.store.records.insert record.id record }
    operations := p.operations + 1 }

structure SameRecords (p p' : SlashingPipeline) : Prop where
  registry : p'.registry = p.registry
  records : p'.store.records = p.store.records
  validators : p'.validators = p.validators

section Operations
variable {P : Platform} {bincode : EquivocationEvidence → List UInt8} {fault : ℕ → Option String}
  {p : SlashingPipeline} {α : Type}

theorem SameRecords.refl (p : SlashingPipeline) : SameRecords p p := ⟨rfl,rfl,rfl⟩

theorem SameRecords.trans {p' p'' : SlashingPipeline} (h : SameRecords p p') (h' : SameRecords p' p'') :
    SameRecords p p'' :=
  ⟨h'.registry.trans h.registry,h'.records.trans h.records,h'.validators.trans h.validators⟩

theorem SameRecords.copies {p' : SlashingPipeline} (h : SameRecords p p') (burns : List Burn) :
    SlashingState.copies (p',burns) = SlashingState.copies (p,burns) := by
  simp [SlashingState.copies, h.registry, h.records]

theorem ends_storageOp {context : String} {Q : Unit → SlashingPipeline → Prop}
    {E : StakingError → SlashingPipeline → Prop} (hQ : fault p.operations = none → Q () p.counted)
    (hE : ∀ e, fault p.operations ≠ none → E e p.counted) : Ends (storageOp fault context) p Q E := by
  unfold storageOp
  simp only [ends_bind, ends_get, ends_modify]
  cases hfault : fault p.operations with
  | none => exact hQ hfault
  | some e => exact hE _ (by simp [hfault])

theorem ends_putRecord {record : SlashEvidenceRecord} {Q : Unit → SlashingPipeline → Prop}
    {E : StakingError → SlashingPipeline → Prop} (hQ : Q () (p.saved record)) (hE : ∀ e, E e p.counted) :
    Ends (putRecord fault record) p Q E := by
  unfold putRecord
  rw [ends_bind]
  exact ends_storageOp (fun _ => hQ) fun e _ => hE e

theorem ends_putBond {recordId : H256} {reporter : Address} {bond : BondEntry}
    {Q : Unit → SlashingPipeline → Prop} {E : StakingError → SlashingPipeline → Prop}
    (hQ : ∀ p', SameRecords p p' → Q () p') (hE : ∀ e p', SameRecords p p' → E e p') :
    Ends (putBond fault recordId reporter bond) p Q E := by
  unfold putBond
  rw [ends_bind]
  exact ends_storageOp (fun _ => hQ _ ⟨rfl,rfl,rfl⟩) fun e _ => hE e _ ⟨rfl,rfl,rfl⟩

theorem ends_deleteBond {recordId : H256} {reporter : Address} {Q : Unit → SlashingPipeline → Prop}
    {E : StakingError → SlashingPipeline → Prop} (hQ : ∀ p', SameRecords p p' → Q () p')
    (hE : ∀ e p', SameRecords p p' → E e p') : Ends (deleteBond fault recordId reporter) p Q E := by
  unfold deleteBond
  rw [ends_bind]
  exact ends_storageOp (fun _ => hQ _ ⟨rfl,rfl,rfl⟩) fun e _ => hE e _ ⟨rfl,rfl,rfl⟩

theorem ends_putEvidence {ev : EquivocationEvidence} {Q : Unit → SlashingPipeline → Prop}
    {E : StakingError → SlashingPipeline → Prop} (hQ : ∀ p', SameRecords p p' → Q () p')
    (hE : ∀ e p', SameRecords p p' → E e p') : Ends (putEvidence P bincode fault ev) p Q E := by
  unfold putEvidence
  rw [ends_bind]
  exact ends_storageOp (fun _ => hQ _ ⟨rfl,rfl,rfl⟩) fun e _ => hE e _ ⟨rfl,rfl,rfl⟩

theorem ends_loadAllRecords {Q : List SlashEvidenceRecord → SlashingPipeline → Prop}
    {E : StakingError → SlashingPipeline → Prop}
    (hQ : fault p.operations = none → Q p.store.allRecords p.counted)
    (hE : ∀ e, fault p.operations ≠ none → E e p.counted) : Ends (loadAllRecords fault) p Q E := by
  unfold loadAllRecords
  rw [ends_bind]
  exact ends_storageOp hQ hE

theorem ends_listBonds {recordId : H256} {Q : List (Address × BondEntry) → SlashingPipeline → Prop}
    {E : StakingError → SlashingPipeline → Prop} (hQ : ∀ bonds p', SameRecords p p' → Q bonds p')
    (hE : ∀ e p', SameRecords p p' → E e p') : Ends (listBondsForRecord fault recordId) p Q E := by
  unfold listBondsForRecord
  rw [ends_bind]
  exact ends_storageOp (fun _ => hQ _ _ ⟨rfl,rfl,rfl⟩) fun e _ => hE e _ ⟨rfl,rfl,rfl⟩

@[simp] theorem ends_onRegistry {f : SlashingRegistryV2 → Except StakingError (α × SlashingRegistryV2)}
    {Q : α → SlashingPipeline → Prop} {E : StakingError → SlashingPipeline → Prop} :
    Ends (onRegistry f) p Q E ↔ match f p.registry with
      | .error e => E e p
      | .ok (a,registry) => Q a { p with registry := registry } := by
  unfold Ends
  rw [exec_onRegistry]
  rcases f p.registry with _ | ⟨_,_⟩
  · rfl
  · rfl

@[simp] theorem ends_currentRecord {id : H256} {missing : String}
    {Q : SlashEvidenceRecord → SlashingPipeline → Prop} {E : StakingError → SlashingPipeline → Prop} :
    Ends (currentRecord id missing) p Q E ↔ match p.registry.getRecord id with
      | none => E (.persistence missing) p
      | some record => Q record p := by
  unfold currentRecord
  simp only [ends_bind, ends_get]
  cases p.registry.getRecord id with
  | none => rfl
  | some record => rfl

end Operations

end SlashingPipeline

/-- The answers of `submit_evidence`, each with what it has done to the records. -/
inductive Submitted (reg : SlashingRegistryV2) (id : H256) : SubmitOutcome → SlashingRegistryV2 → Prop
  | newRecord {r : SlashEvidenceRecord} (hid : r.id = id) (hfresh : reg.getRecord id = none)
      (hpending : r.status = .pending) (hmark : r.burnApplied = false) :
      Submitted reg id (.newRecord id) { reg with records := reg.records.insert id r }
  | coWitness {r : SlashEvidenceRecord} {submitter : Address} (hr : reg.getRecord id = some r)
      (hpending : r.status = .pending) :
      Submitted reg id (.coWitnessAdded id)
        (reg.update id (fun r => { r with reporters := r.reporters ++ [submitter] }))
  | recorded {r : SlashEvidenceRecord} (hr : reg.getRecord id = some r) :
      Submitted reg id (.alreadyRecorded id) reg

theorem submitted_submitEvidence {sha3 : List UInt8 → H256} {reg reg' : SlashingRegistryV2}
    {evidence : SlashEvidenceV2} {submittedBy offender : Address} {currentBlock currentEpoch : UInt64}
    {offenderStake : ℕ} {outcome : SubmitOutcome} (hoffender : evidence.offender = some offender)
    (h : reg.submitEvidence sha3 evidence submittedBy currentBlock currentEpoch offenderStake =
      .ok (outcome,reg')) :
    Submitted reg (computeIdForOffender sha3 offender currentBlock evidence.evidenceType) outcome reg' := by
  unfold SlashingRegistryV2.submitEvidence at h
  rw [hoffender] at h
  dsimp only at h
  cases hr : reg.getRecord (computeIdForOffender sha3 offender currentBlock evidence.evidenceType) with
  | none =>
    simp only [hr, Except.ok.injEq, Prod.mk.injEq] at h
    obtain ⟨rfl,rfl⟩ := h
    refine .newRecord ?_ hr ?_ ?_
    · rfl
    · rfl
    · rfl
  | some existing =>
    simp only [hr] at h
    split at h
    · cases h
      exact .recorded hr
    · rename_i hpending
      split at h
      · cases h
        exact .recorded hr
      · cases h
        exact .coWitness hr (not_not.mp hpending)

/-- Moves of the copies from state to state, where they were in step. -/
def Moved (reburns : Prop) (appeals : Set H256) (s s' : SlashingState) : Prop :=
  RecordMoves reburns appeals s.copies s'.copies

section Moves
variable {P : Platform} {sha3 : List UInt8 → H256} {bincode : EquivocationEvidence → List UInt8}
  {fault : ℕ → Option String} {p p' : SlashingPipeline} {burns : List Burn} {reburns : Prop}
  {appeals : Set H256}

theorem Moved.of_same (h : SameRecords p p') : Moved reburns appeals (p,burns) (p',burns) := by
  rw [Moved, h.copies]
  exact .refl

theorem Moved.trans {s s' s'' : SlashingState} (h : Moved reburns appeals s s') (h' : Moved reburns appeals s' s'') :
    Moved reburns appeals s s'' := Relation.ReflTransGen.trans h h'

theorem SlashingPipeline.SameRecords.moved {p'' : SlashingPipeline} (h : SameRecords p p')
    (hmoved : Moved reburns appeals (p',burns) (p'',burns)) : Moved reburns appeals (p,burns) (p'',burns) := by
  rwa [Moved, h.copies] at hmoved

theorem SlashingPipeline.SameRecords.inStep (h : SameRecords p p') (hp : (SlashingState.copies (p,burns)).InStep) :
    (SlashingState.copies (p',burns)).InStep := by rwa [h.copies]

theorem moved_saved {id : H256} {r : SlashEvidenceRecord} (hp : (SlashingState.copies (p,burns)).InStep)
    (hr : p.registry.getRecord id = some r)
    (hburnt : r.status = .confirmed → (SlashingState.copies (p,burns)).Burnt id) :
    Moved reburns appeals (p,burns) (p.saved r,burns) := by
  obtain rfl := hp.keyed id r hr
  exact .single (.save hr hburnt)

/-- An evidence that is accepted has a record in memory. -/
theorem moved_ingest (hp : (SlashingState.copies (p,burns)).InStep) (ev : EquivocationEvidence)
    (submitter : Address) (currentBlock currentEpoch : UInt64) (offenderStake : ℕ) :
    Ends (ingestEquivocation P sha3 bincode fault ev submitter currentBlock currentEpoch offenderStake) p
      (fun id p' => Moved False ∅ (p,burns) (p',burns) ∧ ∃ r, p'.registry.getRecord id = some r)
      (fun _ p' => Moved False ∅ (p,burns) (p',burns)) := by
  unfold ingestEquivocation
  split
  · exact .of_same (.refl p)
  · simp only [ends_bind]
    refine ends_putEvidence (fun p₁ h₁ => ?_) fun _ p₁ h₁ => .of_same h₁
    have hp₁ := h₁.inStep hp
    rw [ends_onRegistry]
    cases hsubmit : p₁.registry.submitEvidence sha3 (evidenceToDoubleSign ev) submitter currentBlock
      currentEpoch offenderStake with
    | error e => exact .of_same h₁
    | ok answer =>
      obtain ⟨outcome,reg⟩ := answer
      have hsubmitted := submitted_submitEvidence rfl hsubmit
      dsimp only
      generalize computeIdForOffender sha3 ev.validator currentBlock _ = id at hsubmitted
      -- a record that is pending in memory goes to the store, and a bond with it
      have hput : ∀ {r : SlashEvidenceRecord} {p₂ : SlashingPipeline},
          Moved False ∅ (p₁,burns) (p₂,burns) → p₂.registry.getRecord id = some r → r.status = .pending →
          Ends (do putRecord fault r; putBond fault id submitter ⟨0,.whistleblower⟩; return id) p₂
            (fun id p' => Moved False ∅ (p,burns) (p',burns) ∧ ∃ r, p'.registry.getRecord id = some r)
            (fun _ p' => Moved False ∅ (p,burns) (p',burns)) := by
        intro r p₂ hmoved hr hpending
        have hp₂ := hp₁.moves hmoved
        have hall := h₁.moved hmoved
        simp only [ends_bind, ends_pure]
        refine ends_putRecord ?_ fun e => hall.trans (.of_same ⟨rfl,rfl,rfl⟩)
        have hsaved := hall.trans (moved_saved hp₂ hr (by simp [hpending]))
        refine ends_putBond (fun p₃ h₃ => ⟨hsaved.trans (.of_same h₃),r,?_⟩) fun _ p₃ h₃ => hsaved.trans (.of_same h₃)
        rw [h₃.registry]
        exact hr
      cases hsubmitted with
      | @newRecord r hid hfresh hpending hmark =>
        subst hid
        have hmoved : Moved False ∅ (p₁,burns) ({ p₁ with
            registry := { p₁.registry with records := p₁.registry.records.insert r.id r } },burns) :=
          .single (.submit hfresh hpending hmark)
        have hr : ({ p₁.registry with records := p₁.registry.records.insert r.id r } :
            SlashingRegistryV2).getRecord r.id = some r := AList.lookup_insert _
        rw [ends_currentRecord, SubmitOutcome.recordId]
        simp only [hr]
        exact hput hmoved hr hpending
      | @coWitness r who hr hpending =>
        have hmoved : Moved False ∅ (p₁,burns) ({ p₁ with
            registry := p₁.registry.update id (fun r => { r with reporters := r.reporters ++ [who] }) },burns) :=
          .single (.change _ hr ⟨rfl,rfl,rfl,rfl⟩ .refl (fun h => Or.inl h) fun _ => rfl)
        have hr' : (p₁.registry.update id (fun r => { r with reporters := r.reporters ++ [who] })).getRecord id =
            some { r with reporters := r.reporters ++ [who] } :=
          (AList.lookup_modify _ _ _ _).trans (by rw [if_pos rfl]; exact congrArg (Option.map _) hr)
        rw [ends_currentRecord, SubmitOutcome.recordId]
        simp only [hr']
        exact hput hmoved hr' hpending
      | @recorded r hr =>
        rw [ends_currentRecord, SubmitOutcome.recordId]
        simp only [hr, ends_pure]
        exact ⟨.of_same h₁,r,rfl⟩

theorem getRecord_update {reg : SlashingRegistryV2} {id : H256} {r : SlashEvidenceRecord}
    (hr : reg.getRecord id = some r) (f : SlashEvidenceRecord → SlashEvidenceRecord) :
    (reg.update id f).getRecord id = some (f r) :=
  (AList.lookup_modify _ _ _ _).trans (by rw [if_pos rfl]; exact congrArg (Option.map f) hr)

theorem moved_fileAppeal (hp : (SlashingState.copies (p,burns)).InStep) (evidenceId : H256) (sender : Address)
    (sentValueWei : ℕ) (currentHeight : UInt64) :
    Ends (dispatchFileAppealTx fault evidenceId sender sentValueWei currentHeight) p
      (fun _ p' => Moved False {evidenceId} (p,burns) (p',burns) ∧
        ∃ d, p'.store.records.lookup evidenceId = some d ∧ d.status = .appealed)
      (fun _ p' => Moved False {evidenceId} (p,burns) (p',burns)) := by
  unfold dispatchFileAppealTx
  split
  · exact .of_same (.refl p)
  · simp only [ends_bind, ends_onRegistry, SlashingRegistryV2.fileAppealForTx, SlashingRegistryV2.fileAppeal]
    cases hr : p.registry.getRecord evidenceId with
    | none => exact .of_same (.refl p)
    | some r =>
      dsimp only
      by_cases hsender : r.offender = sender
      · subst hsender
        by_cases hpending : r.status = .pending
        · by_cases hclosed : r.appealDeadline < currentHeight
          · simp only [hpending, hclosed, ne_eq, not_true_eq_false, if_true, if_false]
            exact .of_same (.refl p)
          · simp only [hpending, hclosed, ne_eq, not_true_eq_false, if_false, ends_pure]
            have hmoved : Moved False {evidenceId} (p,burns) ({ p with
                registry := p.registry.update evidenceId (fun r => { r with status := .appealed }) },burns) :=
              .single (.change _ hr ⟨rfl,rfl,rfl,rfl⟩ (.single (by rw [hpending]; exact .appeal))
                (fun _ => Or.inr (Or.inr rfl)) fun _ => rfl)
            refine ends_putBond (fun p₁ h₁ => ?_) fun _ p₁ h₁ => hmoved.trans (.of_same h₁)
            have hflipped := hmoved.trans (.of_same h₁)
            have hr₁ : p₁.registry.getRecord evidenceId = some { r with status := .appealed } := by
              rw [h₁.registry]
              exact getRecord_update hr _
            refine ends_putRecord ⟨?_,{ r with status := .appealed },?_,rfl⟩
              fun e => hflipped.trans (.of_same ⟨rfl,rfl,rfl⟩)
            · exact hflipped.trans (moved_saved (hp.moves hflipped) hr₁ (by simp))
            · obtain rfl := hp.keyed evidenceId r hr
              exact AList.lookup_insert _
        · simp only [hpending, ne_eq, not_true_eq_false, not_false_eq_true, if_true, if_false]
          exact .of_same (.refl p)
      · simp only [hsender, ne_eq, not_false_eq_true, if_true]
        exact .of_same (.refl p)

/-- A slash that is overturned was under appeal, and so it was not burnt. -/
theorem moved_overturn (hp : (SlashingState.copies (p,burns)).InStep) (evidenceId : H256) :
    Ends (overturnAndRefund fault evidenceId) p
      (fun answer p' => Moved False ∅ (p,burns) (p',burns) ∧
        answer.recordId = evidenceId ∧ answer.refundedWei = 0 ∧
        (∃ r, p.registry.getRecord evidenceId = some r ∧ r.status = .appealed) ∧
        ∃ d, p'.store.records.lookup evidenceId = some d ∧ d.status = .overturned)
      (fun _ p' => Moved False ∅ (p,burns) (p',burns)) := by
  unfold overturnAndRefund
  simp only [ends_bind, ends_get]
  cases hr : p.registry.getRecord evidenceId with
  | none => exact .of_same (.refl p)
  | some r =>
    dsimp only
    split
    · exact .of_same (.refl p)
    · rename_i happealed
      rw [not_not] at happealed
      have hunmarked : r.burnApplied = false := hp.unmarked evidenceId r (Or.inl hr) (by simp [happealed])
      simp only [ends_bind]
      refine ends_listBonds (fun bonds p₁ h₁ => ?_) fun _ p₁ h₁ => .of_same h₁
      unfold refundAndMark
      simp only [ends_bind, ends_get, ends_modify, ends_onRegistry, SlashingRegistryV2.overturnSlash,
        ends_currentRecord]
      have hr₁ : p₁.registry.getRecord evidenceId = some r := by
        rw [h₁.registry]
        exact hr
      simp only [hr₁, happealed, ne_eq, not_true_eq_false, if_false, getRecord_update hr₁]
      generalize ValidatorSet.modify p₁.validators r.offender _ = validators
      have hflipped : Moved False ∅ (p,burns) ({ p₁ with
          validators := validators
          registry := p₁.registry.update evidenceId (fun r => { r with status := .overturned }) },burns) :=
        h₁.moved (.single (.change _ hr₁ ⟨rfl,rfl,rfl,rfl⟩ (.single (by rw [happealed]; exact .overturn))
          (by simp [happealed]) fun _ => rfl))
      refine ends_putRecord ?_ fun e => hflipped.trans (.of_same ⟨rfl,rfl,rfl⟩)
      have hsaved := hflipped.trans (moved_saved (hp.moves hflipped) (getRecord_update hr₁ _) (by simp))
      generalize hp₂ : SlashingPipeline.saved _ _ = p₂ at hsaved ⊢
      have hd : p₂.store.records.lookup evidenceId = some { r with status := .overturned } := by
        rw [← hp₂]
        obtain rfl := hp.keyed evidenceId r hr
        exact AList.lookup_insert _
      refine (Ends.mapM (J := fun _ p' => SameRecords p₂ p') (E := fun _ p' => SameRecords p₂ p') (.refl p₂)
        fun bond _ p' h' => ?_).imp (fun _ p' h' => ?_) fun _ p' h' => hsaved.trans (.of_same h')
      · rw [ends_ignoring]
        exact ends_deleteBond (fun p'' h'' => h'.trans h'') fun _ p'' h'' => h'.trans h''
      · rw [ends_pure]
        refine ⟨hsaved.trans (.of_same h'),rfl,?_,⟨r,rfl,happealed⟩,_,by rw [h'.records]; exact hd,rfl⟩
        simp [hunmarked]

theorem moved_rejectAppeal (evidenceId : H256) :
    Ends (onRegistry (fun reg => reg.rejectAppeal evidenceId)) p
      (fun _ p' => Moved False ∅ (p,burns) (p',burns)) (fun _ p' => Moved False ∅ (p,burns) (p',burns)) := by
  rw [ends_onRegistry]
  unfold SlashingRegistryV2.rejectAppeal
  cases hr : p.registry.getRecord evidenceId with
  | none => exact .of_same (.refl p)
  | some r =>
    by_cases happealed : r.status = .appealed
    · simp only [happealed, ne_eq, not_true_eq_false, if_false]
      refine .single (.change _ hr ⟨rfl,rfl,rfl,rfl⟩ (.single ?_) (by simp) (by simp))
      rw [happealed]
      exact .reject
    · simp only [happealed, ne_eq, not_false_eq_true, if_true]
      exact .of_same (.refl p)

theorem records_rehydrated (records : List SlashEvidenceRecord) (reg : SlashingRegistryV2) :
    (records.foldl (fun reg r => reg.insertRehydratedRecord r) reg).records =
      reg.records.insertAll (records.map (fun r => ⟨r.id,r⟩)) := by
  induction records generalizing reg with
  | nil => rfl
  | cons r records ih => exact ih (reg.insertRehydratedRecord r)

theorem lookup_rehydrated {store : EvidenceStore} (hkeyed : ∀ id d, store.records.lookup id = some d → d.id = id)
    (totalValidators : UInt64) (id : H256) :
    (store.allRecords.foldl (fun reg r => reg.insertRehydratedRecord r)
      (SlashingRegistryV2.new totalValidators)).records.lookup id = store.records.lookup id := by
  have hentries : store.allRecords.map (fun r => (⟨r.id,r⟩ : Σ _ : H256, SlashEvidenceRecord)) =
      StableSort.sortDesc (fun e : (Σ _ : H256, SlashEvidenceRecord) => OrderDual.toDual e.1.toNat)
        store.records.entries := by
    rw [EvidenceStore.allRecords, List.map_map]
    refine (List.map_congr_left fun e he => ?_).trans (List.map_id _)
    have hd := (StableSort.sortDesc_perm _).mem_iff.mp he
    simp [hkeyed e.1 e.2 (AList.mem_lookup_iff.mpr hd)]
  have hperm : (StableSort.sortDesc (fun e : (Σ _ : H256, SlashEvidenceRecord) => OrderDual.toDual e.1.toNat)
      store.records.entries).Perm store.records.entries := StableSort.sortDesc_perm _
  have hnodup := (List.perm_nodupKeys hperm).mpr store.records.nodupKeys
  rw [records_rehydrated, hentries, AList.lookup_insertAll hnodup, List.perm_dlookup id hnodup hperm]
  exact Option.or_none

end Moves

end ZbxChain.Staking
