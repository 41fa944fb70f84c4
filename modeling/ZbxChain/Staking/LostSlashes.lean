import ZbxChain.Staking.BurnOnce

/-! # Slashes that are lost

A tick in which no operation of the store fails comes to every record that is on disk and due,
and burns those that are pending in memory too. A record that is confirmed in memory only, or
that has never come to the disk, is not burnt by any tick.
-/
namespace ZbxChain.Staking
open SlashingPipeline Stateful Machine

def PendingInMemory (s : SlashingState) (id : H256) : Prop :=
  ∃ r, s.1.registry.getRecord id = some r ∧ r.status = .pending

def ReadyOnDisk (s : SlashingState) (currentBlock : UInt64) (id : H256) : Prop :=
  ∃ d, s.1.store.records.lookup id = some d ∧ d.status = .pending ∧ d.appealDeadline < currentBlock

/-- Nothing has changed but for one record. -/
structure Apart (id : H256) (s s' : SlashingState) : Prop where
  memory : ∀ id', id' ≠ id → s'.1.registry.getRecord id' = s.1.registry.getRecord id'
  disk : ∀ id', id' ≠ id → s'.1.store.records.lookup id' = s.1.store.records.lookup id'
  burnt : ∀ id', id' ≠ id → (s'.copies.Burnt id' ↔ s.copies.Burnt id')

section Faultless
variable {s : SlashingState} {rec : SlashEvidenceRecord} {currentBlock : UInt64} {p : SlashingPipeline}

theorem Apart.refl (id : H256) (s : SlashingState) : Apart id s s :=
  ⟨fun _ _ => rfl,fun _ _ => rfl,fun _ _ => Iff.rfl⟩

theorem Apart.trans {id : H256} {s' s'' : SlashingState} (h : Apart id s s') (h' : Apart id s' s'') :
    Apart id s s'' where
  memory id' hid := (h'.memory id' hid).trans (h.memory id' hid)
  disk id' hid := (h'.disk id' hid).trans (h.disk id' hid)
  burnt id' hid := (h'.burnt id' hid).trans (h.burnt id' hid)

theorem Apart.pendingInMemory {id id' : H256} {s' : SlashingState} (h : Apart id s s') (hid : id' ≠ id) :
    PendingInMemory s' id' ↔ PendingInMemory s id' := by
  simp only [PendingInMemory, h.memory id' hid]

theorem Apart.readyOnDisk {id id' : H256} {s' : SlashingState} (h : Apart id s s') (hid : id' ≠ id) :
    ReadyOnDisk s' currentBlock id' ↔ ReadyOnDisk s currentBlock id' := by
  simp only [ReadyOnDisk, h.disk id' hid]

@[simp] theorem ends_putRecord_faultless {record : SlashEvidenceRecord} {Q : Unit → SlashingPipeline → Prop}
    {E : StakingError → SlashingPipeline → Prop} :
    Ends (putRecord (fun _ => none) record) p Q E ↔ Q () (p.saved record) := by
  unfold Ends
  rw [exec_putRecord_of_none rfl]
  rfl

@[simp] theorem ends_loadAllRecords_faultless {Q : List SlashEvidenceRecord → SlashingPipeline → Prop}
    {E : StakingError → SlashingPipeline → Prop} :
    Ends (loadAllRecords (fun _ => none)) p Q E ↔ Q p.store.allRecords p.counted := Iff.rfl

theorem getRecord_update_ne {reg : SlashingRegistryV2} {id id' : H256} (hid : id' ≠ id)
    (f : SlashEvidenceRecord → SlashEvidenceRecord) : (reg.update id f).getRecord id' = reg.getRecord id' :=
  (AList.lookup_modify _ _ _ _).trans (if_neg hid)

/-- A burn without a failure touches one record, and that is burnt. -/
theorem apart_burnAndMark {r : SlashEvidenceRecord} (evidenceType : EvidenceType) (finalized : FinalizedSlash)
    (hr : s.1.registry.getRecord rec.id = some r) (hid : r.id = rec.id) :
    Ends (burnAndMarkLogged (fun _ => none) rec evidenceType finalized) s
      (fun _ s' => Apart rec.id s s' ∧ s'.copies.Burnt rec.id) (fun _ _ => False) := by
  obtain ⟨p,burns⟩ := s
  unfold burnAndMarkLogged burnAndMark
  simp only [ends_bind, ends_tell, ends_logged, ends_get, ends_modify]
  generalize (applySlashBurnV2 p.validators rec.offender finalized.slashWei finalized.splits _) = slashed
  obtain ⟨validators,jailed,tombstoned⟩ := slashed
  have hmarked : ∃ f : SlashEvidenceRecord → SlashEvidenceRecord, (f r).id = r.id ∧
      (if jailed || tombstoned then (p.registry.setBurnApplied rec.id).setJailedBySlash rec.id true
        else p.registry.setBurnApplied rec.id).getRecord rec.id = some (f r) ∧
      ∀ id', id' ≠ rec.id →
        (if jailed || tombstoned then (p.registry.setBurnApplied rec.id).setJailedBySlash rec.id true
          else p.registry.setBurnApplied rec.id).getRecord id' = p.registry.getRecord id' := by
    have hr' := getRecord_update hr (fun r => { r with burnApplied := true })
    split
    · exact ⟨fun r => { r with burnApplied := true, jailedBySlash := true },rfl,getRecord_update hr' _,
        fun id' hne => (getRecord_update_ne hne _).trans (getRecord_update_ne hne _)⟩
    · exact ⟨fun r => { r with burnApplied := true },rfl,hr',fun id' hne => getRecord_update_ne hne _⟩
  obtain ⟨f,hf,hmark,hothers⟩ := hmarked
  dsimp only
  generalize (if (jailed || tombstoned) = true then
    (p.registry.setBurnApplied rec.id).setJailedBySlash rec.id true
      else p.registry.setBurnApplied rec.id) = registry at hmark hothers ⊢
  simp only [hmark, ends_bind, ends_putRecord_faultless, ends_pure]
  refine ⟨⟨hothers,fun id' hne => ?_,fun id' hne => ?_⟩,?_⟩
  · simp only [SlashingPipeline.saved]
    rw [hf, hid]
    exact AList.lookup_insert_ne hne
  · simp [RecordCopies.Burnt, SlashingState.copies, burnOf, Ne.symm hne, or_and_right, exists_or]
  · simp [RecordCopies.Burnt, SlashingState.copies, burnOf, or_and_right, exists_or]

theorem apart_replayBurn (hs : s.copies.InStep) (hdisk : OnDisk s rec) :
    Ends (replayBurnLogged (fun _ => none) currentBlock rec) s (fun _ s' => Apart rec.id s s')
      (fun _ _ => False) := by
  obtain ⟨d,hd,-,-⟩ := hdisk
  obtain ⟨r,hr,-,-⟩ := hs.copied rec.id d hd
  have hid := hs.keyed rec.id r hr
  obtain ⟨p,burns⟩ := s
  unfold replayBurnLogged
  simp only [ends_bind, ends_get, not_replays]
  split
  · rename_i hkept
    rw [ends_logged]
    unfold replayBurn
    split
    · exact .refl rec.id _
    · simp only [ends_bind, ends_get]
      split
      · simp only [ends_bind, ends_modify, ends_get]
        have hmarked : (p.registry.setBurnApplied rec.id).getRecord rec.id = some { r with burnApplied := true } :=
          getRecord_update hr _
        simp only [hmarked, ends_bind, ends_ignoring, ends_putRecord_faultless, ends_pure]
        refine ⟨fun id' hne => getRecord_update_ne hne _,fun id' hne => ?_,fun id' hne => Iff.rfl⟩
        simp only [SlashingPipeline.saved]
        rw [hid]
        exact AList.lookup_insert_ne hne
      · rename_i hopen hpassed
        exact absurd ⟨UInt64.not_le.mp hopen,Bool.eq_false_iff.mpr hpassed⟩ hkept
  · simp only [ends_bind, ends_pure]
    exact (apart_burnAndMark _ _ hr hid).imp (fun _ _ h => h.1) fun _ _ h => h

/-- A record that is due is burnt if it is pending in memory, and else nothing happens. -/
theorem apart_finalizeRecord (hs : s.copies.InStep) (hdisk : OnDisk s rec)
    (hclosed : rec.appealDeadline < currentBlock) :
    Ends (finalizeRecordLogged (fun _ => none) currentBlock rec) s
      (fun _ s' => Apart rec.id s s' ∧ (PendingInMemory s rec.id → s'.copies.Burnt rec.id) ∧
        (¬ PendingInMemory s rec.id → s' = s)) (fun _ _ => False) := by
  obtain ⟨d,hd,hrec,-⟩ := hdisk
  obtain ⟨r,hr,hsame,-⟩ := hs.copied rec.id d hd
  have hr' : s.1.registry.getRecord rec.id = some r := hr
  have hid := hs.keyed rec.id r hr
  have hopen : ¬ currentBlock ≤ r.appealDeadline := by
    rw [hsame.appealDeadline, hrec.appealDeadline]
    exact UInt64.not_le.mpr hclosed
  unfold finalizeRecordLogged
  simp only [ends_bind, ends_logged, ends_onRegistry, SlashingRegistryV2.finalizeSlash, hr']
  by_cases hpending : r.status = .pending
  · simp only [hpending, hopen, ne_eq, not_true_eq_false, if_false, ends_bind, ends_logged,
      ends_currentRecord, getRecord_update hr', ends_putRecord_faultless, ends_pure]
    obtain ⟨p,burns⟩ := s
    have hothers : ∀ id', id' ≠ rec.id → (p.registry.update rec.id (fun r => { r with
        status := .confirmed
        formatVersion := slashRecordFormatVersion
        burnApplied := false })).getRecord id' = p.registry.getRecord id' :=
      fun id' hne => getRecord_update_ne hne _
    have hr₂ := getRecord_update hr' (fun r => { r with
      status := .confirmed
      formatVersion := slashRecordFormatVersion
      burnApplied := false })
    generalize p.registry.update rec.id _ = registry at hothers hr₂ ⊢
    generalize hconfirmed : ({ r with
      status := .confirmed
      formatVersion := slashRecordFormatVersion
      burnApplied := false } : SlashEvidenceRecord) = r₂ at hr₂ ⊢
    have hid₂ : r₂.id = rec.id := by rw [← hconfirmed, ← hid]
    have hflipped : Apart rec.id (p,burns) (SlashingPipeline.saved { p with registry := registry } r₂,burns) := by
      refine ⟨hothers,fun id' hne => ?_,fun id' hne => Iff.rfl⟩
      simp only [SlashingPipeline.saved, hid₂]
      exact AList.lookup_insert_ne hne
    generalize hp₂ : SlashingPipeline.saved { p with registry := registry } r₂ = p₂ at hflipped
    have hr₃ : p₂.registry.getRecord rec.id = some r₂ := by
      rw [← hp₂]
      exact hr₂
    have hburnt : Ends (burnAndMarkLogged (fun _ => none) rec r.evidenceType (recomputeSplits r)) (p₂,burns)
        (fun _ s' => Apart rec.id (p₂,burns) s' ∧ s'.copies.Burnt rec.id) (fun _ _ => False) :=
      apart_burnAndMark _ _ hr₃ hid₂
    have hdue : PendingInMemory (p,burns) rec.id := ⟨r,hr',hpending⟩
    exact hburnt.imp (fun _ s' h => ⟨hflipped.trans h.1,fun _ => h.2,fun hnot => absurd hdue hnot⟩) fun _ _ h => h
  · simp only [hpending, ne_eq, not_false_eq_true, if_true, ends_pure]
    refine ⟨.refl _ _,?_,fun _ => trivial⟩
    rintro ⟨r',hr'',hpending'⟩
    obtain rfl : r' = r := Option.some.inj (hr''.symm.trans hr')
    exact absurd hpending' hpending

/-- What a tick is about has not changed for any record. -/
def SameDue (currentBlock : UInt64) (s s' : SlashingState) : Prop :=
  ∀ id, (s'.copies.Burnt id ↔ s.copies.Burnt id) ∧ (PendingInMemory s' id ↔ PendingInMemory s id) ∧
    (ReadyOnDisk s' currentBlock id ↔ ReadyOnDisk s currentBlock id)

theorem of_confirmed_onDisk (hs : s.copies.InStep) (hdisk : OnDisk s rec) (hconfirmed : rec.status = .confirmed) :
    s.copies.Burnt rec.id ∧ ¬ PendingInMemory s rec.id ∧ ¬ ReadyOnDisk s currentBlock rec.id := by
  obtain ⟨d,hd,-,htrails⟩ := hdisk
  rw [hconfirmed] at htrails
  have hd' := htrails.of_confirmed
  have hburnt := hs.burnt rec.id d hd hd'
  refine ⟨hburnt,?_,?_⟩
  · rintro ⟨r,hr,hpending⟩
    simp [hs.confirmed_of_burnt hburnt hr] at hpending
  · rintro ⟨d',hd'',hpending,-⟩
    obtain rfl : d' = d := Option.some.inj (hd''.symm.trans hd)
    simp [hd'] at hpending

theorem sameDue_replays {l : List SlashEvidenceRecord} (hs : s.copies.InStep)
    (hl : ∀ rec ∈ l, OnDisk s rec ∧ rec.status = .confirmed) :
    Ends (l.mapM (replayBurnLogged (fun _ => none) currentBlock)) s
      (fun _ s' => s'.copies.InStep ∧ SameDue currentBlock s s') (fun _ _ => False) := by
  refine (Ends.mapM (J := fun l' s' => s'.copies.InStep ∧ SameDue currentBlock s s' ∧
    ∀ rec ∈ l', OnDisk s' rec ∧ rec.status = .confirmed) (E := fun _ _ => False)
    ⟨hs,fun _ => ⟨Iff.rfl,Iff.rfl,Iff.rfl⟩,hl⟩ ?_).imp (fun _ _ h => ⟨h.1,h.2.1⟩) fun _ _ h => h
  rintro rec l' s' ⟨hs',hsame,hdisk⟩
  obtain ⟨hrec,hconfirmed⟩ := hdisk rec List.mem_cons_self
  refine ((moved_replayBurn hs' hrec hconfirmed).and (apart_replayBurn hs' hrec)).imp
    (fun _ s'' ⟨hmoved,hapart⟩ => ?_) fun _ _ h => h.2
  have hs'' := hs'.moves hmoved
  refine ⟨hs'',fun id => ?_,fun r hr => ?_⟩
  · obtain ⟨hburnt,hmemory,hready⟩ := hsame id
    by_cases hid : id = rec.id
    · subst hid
      have hbefore : s'.copies.Burnt rec.id ∧ ¬ PendingInMemory s' rec.id ∧ ¬ ReadyOnDisk s' currentBlock rec.id :=
        of_confirmed_onDisk hs' hrec hconfirmed
      have hafter : s''.copies.Burnt rec.id ∧ ¬ PendingInMemory s'' rec.id ∧ ¬ ReadyOnDisk s'' currentBlock rec.id :=
        of_confirmed_onDisk hs'' (hrec.moved hs' hmoved) hconfirmed
      exact ⟨(iff_of_true hafter.1 hbefore.1).trans hburnt,(iff_of_false hafter.2.1 hbefore.2.1).trans hmemory,
        (iff_of_false hafter.2.2 hbefore.2.2).trans hready⟩
    · exact ⟨(hapart.burnt id hid).trans hburnt,(hapart.pendingInMemory hid).trans hmemory,
        (hapart.readyOnDisk hid).trans hready⟩
  · obtain ⟨hr,hr'⟩ := hdisk r (List.mem_cons_of_mem _ hr)
    exact ⟨hr.moved hs' hmoved,hr'⟩

theorem burnt_finalizations {l : List SlashEvidenceRecord} (hs : s.copies.InStep)
    (hl : ∀ rec ∈ l, OnDisk s rec ∧ rec.appealDeadline < currentBlock) :
    Ends (l.mapM (finalizeRecordLogged (fun _ => none) currentBlock)) s
      (fun _ s' => ∀ id, s'.copies.Burnt id ↔
        s.copies.Burnt id ∨ (∃ rec ∈ l, rec.id = id) ∧ PendingInMemory s id) (fun _ _ => False) := by
  refine (Ends.mapM (J := fun l' s' => s'.copies.InStep ∧
    (∀ id, s'.copies.Burnt id ∨ (∃ rec ∈ l', rec.id = id) ∧ PendingInMemory s' id ↔
      s.copies.Burnt id ∨ (∃ rec ∈ l, rec.id = id) ∧ PendingInMemory s id) ∧
    ∀ rec ∈ l', OnDisk s' rec ∧ rec.appealDeadline < currentBlock) (E := fun _ _ => False)
    ⟨hs,fun _ => Iff.rfl,hl⟩ ?_).imp (fun _ s' h id => ?_) fun _ _ h => h
  · rintro rec l' s' ⟨hs',hdue,hdisk⟩
    obtain ⟨hrec,hclosed⟩ := hdisk rec List.mem_cons_self
    refine ((moved_finalizeRecord hs' hrec).and (apart_finalizeRecord hs' hrec hclosed)).imp
      (fun _ s'' ⟨hmoved,hapart,hburns,hidle⟩ => ?_) fun _ _ h => h.2
    have hs'' := hs'.moves hmoved
    refine ⟨hs'',fun id => ?_,fun r hr => ?_⟩
    · rw [← hdue id]
      by_cases hid : id = rec.id
      · subst hid
        by_cases hpending : PendingInMemory s' rec.id
        -- now it is burnt, and before it was due
        · exact iff_of_true (Or.inl (hburns hpending)) (Or.inr ⟨⟨rec,List.mem_cons_self,rfl⟩,hpending⟩)
        · rw [hidle hpending]
          simp [hpending]
      · rw [hapart.burnt id hid, hapart.pendingInMemory hid]
        simp [Ne.symm hid]
    · obtain ⟨hr,hr'⟩ := hdisk r (List.mem_cons_of_mem _ hr)
      exact ⟨hr.moved hs' hmoved,hr'⟩
  · simpa using h.2.1 id

/-- A tick without a failure burns what is ready on disk and pending in memory. -/
theorem burnt_tickFinalize (hs : s.copies.InStep) :
    Ends (tickFinalizeLogged (fun _ => none) currentBlock) s
      (fun _ s' => ∀ id, s'.copies.Burnt id ↔
        s.copies.Burnt id ∨ ReadyOnDisk s currentBlock id ∧ PendingInMemory s id) (fun _ _ => False) := by
  unfold tickFinalizeLogged loadRecordsWithUnappliedBurn loadRecordsReadyToFinalize
  simp only [ends_bind, ends_logged, ends_pure, ends_loadAllRecords_faultless]
  have hs₁ : (SlashingState.copies (s.1.counted,s.2)).InStep := hs
  have hloaded : ∀ rec ∈ s.1.store.unapplied, OnDisk (s.1.counted,s.2) rec ∧ rec.status = .confirmed := fun rec hrec =>
    ⟨.of_mem hs₁ (EvidenceStore.of_mem_unapplied hrec).1,(EvidenceStore.of_mem_unapplied hrec).2⟩
  refine (sameDue_replays hs₁ hloaded).imp (fun _ s₂ hreplayed => ?_) fun _ _ h => h
  obtain ⟨hs₂,hsame⟩ := hreplayed
  have hs₃ : (SlashingState.copies (s₂.1.counted,s₂.2)).InStep := hs₂
  refine (burnt_finalizations hs₃ fun rec hrec => ?_).imp (fun _ s' h id => ?_) fun _ _ h => h
  · obtain ⟨hmem,hready⟩ := List.mem_filter.mp hrec
    simp only [Bool.and_eq_true, decide_eq_true_eq] at hready
    exact ⟨.of_mem hs₃ hmem,hready.2⟩
  · obtain ⟨hburnt,hmemory,hready⟩ := hsame id
    have hfound : (∃ rec ∈ s₂.1.store.allRecords.filter (fun r => r.status = .pending && r.appealDeadline < currentBlock),
        rec.id = id) ↔ ReadyOnDisk s₂ currentBlock id := by
      constructor
      · rintro ⟨rec,hrec,rfl⟩
        obtain ⟨hmem,hrec'⟩ := List.mem_filter.mp hrec
        simp only [Bool.and_eq_true, decide_eq_true_eq] at hrec'
        obtain ⟨id,hd⟩ := EvidenceStore.mem_allRecords.mp hmem
        obtain ⟨r,hr,hrd,-⟩ := hs₂.copied id rec hd
        rw [← hrd.id, hs₂.keyed id r hr]
        exact ⟨rec,hd,hrec'⟩
      · rintro ⟨d,hd,hpending,hclosed⟩
        obtain ⟨r,hr,hrd,-⟩ := hs₂.copied id d hd
        refine ⟨d,List.mem_filter.mpr ⟨EvidenceStore.mem_allRecords.mpr ⟨id,hd⟩,by simp [hpending, hclosed]⟩,?_⟩
        rw [← hrd.id, hs₂.keyed id r hr]
    rw [h id, hfound]
    exact or_congr hburnt (and_congr hready hmemory)

end Faultless

def SlashingEvent.inProcess : SlashingEvent → Bool
  | .ingest _ _ _ _ _ _ | .tick _ _ => true
  | _ => false

def windowClosed (currentBlock : UInt64) (id : H256) (s : SlashingState) : Bool :=
  match s.1.registry.getRecord id with
  | none => true
  | some r => r.appealDeadline < currentBlock

def offenderActive (id : H256) (s : SlashingState) : Bool :=
  match s.1.registry.getRecord id with
  | none => true
  | some r =>
    match s.1.validators.get r.offender with
    | none => false
    | some v => v.status = .active && r.finalSlashWei ≤ v.selfStake

def accepts (id : H256) (e : SlashingEntry) : Bool :=
  match e.output with
  | .ingested (.ok recordId) => recordId = id
  | _ => false

/-- The record is on disk, and not left there pending while it is confirmed in memory. -/
def Reachable (id : H256) (s : SlashingState) : Prop :=
  ∃ d, s.1.store.records.lookup id = some d ∧
    ¬ (d.status = .pending ∧ ∃ r, s.1.registry.getRecord id = some r ∧ r.status = .confirmed)

section Runs
variable {P : Platform} {sha3 : List UInt8 → H256} {bincode : EquivocationEvidence → List UInt8}
  {s : SlashingState} {id : H256} {currentBlock : UInt64}

theorem unappealed_slashingStep (hs : s.copies.InStep) (event : SlashingEvent) (hid : id ∉ event.appeals)
    (h : s.copies.Unappealed id) : (slashingStep P sha3 bincode s event).1.copies.Unappealed id := by
  rcases moved_slashingStep P sha3 bincode hs event with hmoved | ⟨hstore,-,hmemory⟩
  · exact RecordCopies.unappealed_moves hmoved hid h
  · intro r hr
    refine h r (Or.inr ?_)
    rcases hr with hr | hr
    · exact (hmemory id).symm.trans hr
    · simpa only [SlashingState.copies, hstore] using hr

theorem burnt_iff_reachable (hs : s.copies.InStep) (hnever : s.copies.Unappealed id)
    (hclosed : windowClosed currentBlock id s = true) :
    s.copies.Burnt id ∨ ReadyOnDisk s currentBlock id ∧ PendingInMemory s id ↔ Reachable id s := by
  constructor
  · rintro (hburnt | ⟨⟨d,hd,-,-⟩,r,hr,hpending⟩)
    · obtain ⟨d,hd,hconfirmed⟩ := hs.burnt_iff.mp hburnt
      exact ⟨d,hd,fun h => by simp [hconfirmed] at h⟩
    · refine ⟨d,hd,?_⟩
      rintro ⟨-,r',hr',hconfirmed⟩
      obtain rfl : r' = r := Option.some.inj (hr'.symm.trans hr)
      simp [hpending] at hconfirmed
  · rintro ⟨d,hd,hreach⟩
    obtain ⟨r,hr,hsame,-⟩ := hs.copied id d hd
    have hr' : s.1.registry.getRecord id = some r := hr
    rcases hnever d (Or.inr hd) with hpending | hconfirmed
    · refine Or.inr ⟨⟨d,hd,hpending,?_⟩,r,hr',?_⟩
      · rw [← hsame.appealDeadline]
        simpa [windowClosed, hr'] using hclosed
      · exact (hnever r (Or.inl hr)).resolve_right fun h => hreach ⟨hpending,r,hr',h⟩
    · exact Or.inl (hs.burnt id d hd hconfirmed)

end Runs

/-- After any run, a tick without a failure has burnt a record whose window is closed if, and
only if, the record is on disk and is not pending there while it is confirmed in memory. -/
theorem burnt_after_tick_iff (P : Platform) (sha3 : List UInt8 → H256)
    (bincode : EquivocationEvidence → List UInt8) (validators : ValidatorSet) (totalValidators : UInt64)
    (events : List SlashingEvent) (id : H256) (currentBlock : UInt64)
    (hnever : ∀ event ∈ events, id ∉ event.appeals)
    (hclosed : windowClosed currentBlock id
      (final (slashingStep P sha3 bincode) (.start validators totalValidators) events) = true) :
    (slashingStep P sha3 bincode (final (slashingStep P sha3 bincode) (.start validators totalValidators) events)
      (.tick (fun _ => none) currentBlock)).1.copies.Burnt id ↔
    Reachable id (final (slashingStep P sha3 bincode) (.start validators totalValidators) events) := by
  have hstart : (SlashingState.start validators totalValidators).copies.InStep ∧
      (SlashingState.start validators totalValidators).copies.Unappealed id := by
    refine ⟨RecordCopies.inStep_empty,fun r hr => ?_⟩
    rcases hr with hr | hr
    · cases hr
    · cases hr
  have hrun := (state_invariant (slashingStep P sha3 bincode) (G := fun _ event => id ∉ event.appeals)
    (I := fun s : SlashingState => s.copies.InStep ∧ s.copies.Unappealed id) hstart
    (fun _ event hs hid => ⟨inStep_slashingStep hs.1 event,unappealed_slashingStep hs.1 event hid hs.2⟩) events
    fun e he => hnever e.call (call_mem _ he)).2
  refine (Ends.state (R := fun s' : SlashingState => s'.copies.Burnt id ↔ _) ?_).trans
    (burnt_iff_reachable hrun.1 hrun.2 hclosed)
  exact (burnt_tickFinalize hrun.1).imp (fun _ _ h => h id) fun _ _ h => h.elim

theorem not_burnt_of_nil {s : SlashingState} {id : H256} (h : s.2 = []) : ¬ s.copies.Burnt id := by
  rintro ⟨b,hb,-⟩
  simp [SlashingState.copies, h] at hb

/-- Validator 7 is active. -/
def activeValidators : ValidatorSet :=
  { ValidatorSet.new with
    validators := (∅ : Table Address Validator).insert 7
      { demoValidator 7 .active with selfStake := 2 * minSelfStake } }

def doubleVoteId : H256 := computeIdForOffender Platform.integers.keccak256 7 1 .doubleSign

def doubleVoteIngested : SlashingEvent := .ingest (fun _ => none) doubleVote 8 1 0 (2 * minSelfStake)

theorem burnt_after_late_tick :
    (slashingStep .integers Platform.integers.keccak256 (fun _ => [])
      (final (slashingStep .integers Platform.integers.keccak256 (fun _ => [])) (.start activeValidators 100)
        [doubleVoteIngested]) (.tick (fun _ => none) 172802)).1.copies.Burnt doubleVoteId ↔
    Reachable doubleVoteId (final (slashingStep .integers Platform.integers.keccak256 (fun _ => []))
      (.start activeValidators 100) [doubleVoteIngested]) :=
  burnt_after_tick_iff .integers Platform.integers.keccak256 (fun _ => []) activeValidators 100
    [doubleVoteIngested] doubleVoteId 172802 (by simp [doubleVoteIngested, SlashingEvent.appeals])
    (by decide +kernel)

/-- The put of the confirmed record fails in the first tick after the window has closed. -/
def lostEvents : List SlashingEvent :=
  [doubleVoteIngested,.tick (fun n => if n = 5 then some "disk full" else none) 172802]

/-- The next tick takes the record for one that is done. -/
theorem confirmed_slash_is_lost : ¬ ∀ (P : Platform) (sha3 : List UInt8 → H256)
    (bincode : EquivocationEvidence → List UInt8) (validators : ValidatorSet) (totalValidators : UInt64)
    (events : List SlashingEvent) (id : H256) (currentBlock : UInt64),
    (∀ event ∈ events, event.inProcess = true) →
    (∃ e ∈ history (slashingStep P sha3 bincode) (.start validators totalValidators) events, accepts id e = true) →
    (∀ e ∈ history (slashingStep P sha3 bincode) (.start validators totalValidators) events,
      offenderActive id e.before = true) →
    offenderActive id (final (slashingStep P sha3 bincode) (.start validators totalValidators) events) = true →
    windowClosed currentBlock id
      (final (slashingStep P sha3 bincode) (.start validators totalValidators) events) = true →
    (slashingStep P sha3 bincode (final (slashingStep P sha3 bincode) (.start validators totalValidators) events)
      (.tick (fun _ => none) currentBlock)).1.copies.Burnt id := by
  intro h
  have hburnt := h .integers Platform.integers.keccak256 (fun _ => []) activeValidators 100 lostEvents
    doubleVoteId 172803 (by decide) (by decide +kernel) (by decide +kernel) (by decide +kernel) (by decide +kernel)
  refine not_burnt_of_nil ?_ hburnt
  decide +kernel

end ZbxChain.Staking
