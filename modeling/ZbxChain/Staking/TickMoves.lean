import ZbxChain.Staking.CopyMoves

/-! # What a tick does to the copies of its records

A record that is finalized was not burnt before. A record that is replayed was, and it is burnt
again unless the guard says that it has been slashed.
-/
namespace ZbxChain.Staking
open SlashingPipeline Stateful Relation

theorem EvidenceStore.mem_allRecords {store : EvidenceStore} {r : SlashEvidenceRecord} :
    r ∈ store.allRecords ↔ ∃ id, store.records.lookup id = some r := by
  have hperm : (StableSort.sortDesc (fun e : (Σ _ : H256, SlashEvidenceRecord) => OrderDual.toDual e.1.toNat)
      store.records.entries).Perm store.records.entries := StableSort.sortDesc_perm _
  rw [allRecords, ← AList.mem_values, AList.values]
  exact (hperm.map Sigma.snd).mem_iff

theorem fair_burnOf {rec r : SlashEvidenceRecord} (hsame : rec.SameSlash r) (m : SlashEvidenceRecord)
    (hm : m.finalSlashWei = r.finalSlashWei) (p : SlashingPipeline) :
    (burnOf rec (recomputeSplits m) p).Fair r where
  offender := hsame.offender.symm
  slash := hm
  lost := min_le_left _ _
  shares := by
    simp only [burnOf, recomputeSplits, List.map_map, Function.comp_def, List.map_id']
    exact (StableSort.sortDesc_perm _).nodup_iff.mpr (List.nodup_dedup _)

section Ticks
variable {fault : ℕ → Option String} {s s' : SlashingState} {rec : SlashEvidenceRecord} {currentBlock : UInt64}
  {reburns : Prop} {appeals : Set H256}

def OnDisk (s : SlashingState) (rec : SlashEvidenceRecord) : Prop :=
  ∃ d, s.1.store.records.lookup rec.id = some d ∧ rec.SameSlash d ∧ rec.status.Trails d.status

theorem OnDisk.moved (h : OnDisk s rec) (hs : s.copies.InStep) (hmoved : Moved reburns appeals s s') :
    OnDisk s' rec := by
  obtain ⟨d,hd,hsame,htrails⟩ := h
  obtain ⟨d',hd',hsame',htrails'⟩ := hs.disk_moves hmoved hd
  exact ⟨d',hd',hsame.trans hsame',htrails.trans htrails'⟩

theorem OnDisk.of_mem (hs : s.copies.InStep) (h : rec ∈ s.1.store.allRecords) : OnDisk s rec := by
  obtain ⟨id,hd⟩ := EvidenceStore.mem_allRecords.mp h
  obtain ⟨r,hr,hsame,-⟩ := hs.copied id rec hd
  have hid := hs.keyed id r hr
  rw [hsame.id] at hid
  subst hid
  exact ⟨rec,hd,.refl rec,.refl⟩

/-- What follows a burn marks the record, and puts it in the store. -/
theorem moved_burnAndMark {r : SlashEvidenceRecord} (evidenceType : EvidenceType) (finalized : FinalizedSlash)
    (hs : (SlashingState.copies (s.1,s.2 ++ [burnOf rec finalized s.1])).InStep)
    (hr : s.1.registry.getRecord rec.id = some r) (hconfirmed : r.status = .confirmed) :
    Ends (burnAndMarkLogged fault rec evidenceType finalized) s
      (fun _ s' => Moved False ∅ (s.1,s.2 ++ [burnOf rec finalized s.1]) s')
      (fun _ s' => Moved False ∅ (s.1,s.2 ++ [burnOf rec finalized s.1]) s') := by
  obtain ⟨p,before⟩ := s
  dsimp only at hs hr ⊢
  generalize hburns : before ++ [burnOf rec finalized p] = burns at hs ⊢
  have hburnt : ∀ c : RecordCopies, c.burns = burns → c.Burnt rec.id := by
    rintro c rfl
    exact ⟨burnOf rec finalized p,by simp [← hburns],rfl⟩
  unfold burnAndMarkLogged burnAndMark
  simp only [ends_bind, ends_tell, ends_logged, ends_get, ends_modify, hburns]
  generalize (applySlashBurnV2 p.validators rec.offender finalized.slashWei finalized.splits _) = slashed
  obtain ⟨validators,jailed,tombstoned⟩ := slashed
  dsimp only
  -- the marks do not touch the status
  have hmarked : ∃ f : SlashEvidenceRecord → SlashEvidenceRecord,
      (if jailed || tombstoned then (p.registry.setBurnApplied rec.id).setJailedBySlash rec.id true
        else p.registry.setBurnApplied rec.id).getRecord rec.id = some (f r) ∧
      (f r).status = .confirmed ∧
      Moved False ∅ (p,burns) ({ p with
        validators := validators
        registry := if jailed || tombstoned then (p.registry.setBurnApplied rec.id).setJailedBySlash rec.id true
          else p.registry.setBurnApplied rec.id },burns) := by
    have happlied : Moved False ∅ (p,burns) ({ p with
        validators := validators, registry := p.registry.setBurnApplied rec.id },burns) :=
      .single (.change _ hr ⟨rfl,rfl,rfl,rfl⟩ .refl (fun h => Or.inl h) fun h => absurd hconfirmed h)
    have hr' := getRecord_update hr (fun r => { r with burnApplied := true })
    split
    · refine ⟨fun r => { r with burnApplied := true, jailedBySlash := true },getRecord_update hr' _,hconfirmed,?_⟩
      exact happlied.trans (.single (.change _ hr' ⟨rfl,rfl,rfl,rfl⟩ .refl (fun h => Or.inl h) fun _ => rfl))
    · exact ⟨fun r => { r with burnApplied := true },hr',hconfirmed,happlied⟩
  obtain ⟨f,hf,hstatus,hmoved⟩ := hmarked
  generalize hmarked : (if (jailed || tombstoned) = true then
    (p.registry.setBurnApplied rec.id).setJailedBySlash rec.id true
      else p.registry.setBurnApplied rec.id) = registry at hf hmoved ⊢
  simp only [hf, ends_bind, ends_pure]
  refine ends_putRecord ?_ ?_
  · exact hmoved.trans (moved_saved (hs.moves hmoved) hf fun _ => hburnt _ rfl)
  · exact fun _ => hmoved.trans (.of_same ⟨rfl,rfl,rfl⟩)

/-- A record that is finalized is burnt for the first time. -/
theorem moved_finalizeRecord (hs : s.copies.InStep) (hdisk : OnDisk s rec) :
    Ends (finalizeRecordLogged fault currentBlock rec) s (fun _ => Moved False ∅ s) (fun _ => Moved False ∅ s) := by
  obtain ⟨d,hd,hrec,-⟩ := hdisk
  obtain ⟨r,hr,hsame,-⟩ := hs.copied rec.id d hd
  unfold finalizeRecordLogged
  simp only [ends_bind, ends_logged, ends_onRegistry, SlashingRegistryV2.finalizeSlash]
  have hr' : s.1.registry.getRecord rec.id = some r := hr
  simp only [hr']
  by_cases hpending : r.status = .pending
  · by_cases hopen : currentBlock ≤ r.appealDeadline
    · simp only [hpending, hopen, ne_eq, not_true_eq_false, if_false, if_true, ends_pure]
      exact .refl
    · simp only [hpending, hopen, ne_eq, not_true_eq_false, if_false, ends_bind, ends_logged,
        ends_currentRecord, getRecord_update hr']
      obtain ⟨p,burns⟩ := s
      have hflipped : Moved False ∅ (p,burns) ({ p with
          registry := p.registry.update rec.id (fun r => { r with
            status := .confirmed
            formatVersion := slashRecordFormatVersion
            burnApplied := false }) },burns) :=
        .single (.change _ hr ⟨rfl,rfl,rfl,rfl⟩ (.single (by rw [hpending]; exact .confirm)) (by simp) (by simp))
      have hr₁ := getRecord_update hr' (fun r => { r with
        status := .confirmed
        formatVersion := slashRecordFormatVersion
        burnApplied := false })
      have hs₁ := hs.moves hflipped
      generalize p.registry.update rec.id _ = registry at hflipped hr₁ hs₁ ⊢
      refine ends_putRecord ?_ fun e => hflipped.trans (.of_same ⟨rfl,rfl,rfl⟩)
      generalize hr₂ : ({ r with
        status := .confirmed
        formatVersion := slashRecordFormatVersion
        burnApplied := false } : SlashEvidenceRecord) = r₂ at hr₁ ⊢
      have hconfirmed : r₂.status = .confirmed := by rw [← hr₂]
      have hid : r₂.id = rec.id := hs₁.keyed rec.id r₂ hr₁
      have hslash : r₂.finalSlashWei = r.finalSlashWei ∧ r₂.offender = r.offender ∧
          r₂.appealDeadline = r.appealDeadline := by
        rw [← hr₂]
        exact ⟨rfl,rfl,rfl⟩
      have hsame₂ : rec.SameSlash r₂ := by
        refine (hrec.trans hsame).trans ⟨?_,hslash.2.1,hslash.1,hslash.2.2⟩
        rw [hid, (hs.keyed rec.id r hr)]
      -- the record was pending, so it has not been burnt
      have hfirst : ¬ (SlashingState.copies (p,burns)).Burnt rec.id := fun hburnt => by
        have hconfirmed := hs.confirmed_of_burnt hburnt hr
        rw [hpending] at hconfirmed
        cases hconfirmed
      have hdisk : ∀ d, p.store.records.lookup rec.id = some d → d.status = .pending := by
        intro d hd
        obtain ⟨r',hr',-,htrails⟩ := hs.copied rec.id d hd
        obtain rfl : r' = r := Option.some.inj (hr'.symm.trans hr)
        rw [hpending] at htrails
        exact htrails.to_pending
      generalize hp₂ : SlashingPipeline.saved _ r₂ = p₂
      have hburnt : Moved False ∅ (p,burns) (p₂,burns ++ [burnOf rec (recomputeSplits r) p₂]) := by
        refine hflipped.trans (.single ?_)
        have hmove : RecordMove False ∅ _ _ := .burn (c := SlashingState.copies ({ p with registry := registry },burns))
          (b := burnOf rec (recomputeSplits r) p₂) hr₁ hconfirmed (fair_burnOf hsame₂ r hslash.1.symm p₂) hfirst
          hdisk
        have hcopies : SlashingState.copies (p₂,burns ++ [burnOf rec (recomputeSplits r) p₂]) =
            { SlashingState.copies ({ p with registry := registry },burns) with
              disk := p.store.records.insert rec.id r₂
              burns := burns ++ [burnOf rec (recomputeSplits r) p₂] } := by
          rw [← hp₂]
          simp only [SlashingState.copies, SlashingPipeline.saved, hid]
        rw [hcopies]
        exact hmove
      have hr₃ : p₂.registry.getRecord rec.id = some r₂ := by
        rw [← hp₂]
        exact hr₁
      exact (moved_burnAndMark (s := (p₂,burns)) r.evidenceType (recomputeSplits r) (hs.moves hburnt) hr₃
        hconfirmed).imp (fun _ s' h => hburnt.trans h) fun _ s' h => hburnt.trans h
  · simp only [hpending, ne_eq, not_false_eq_true, if_true, ends_pure]
    exact .refl

/-- The replay of the record burns it: its window is closed, and the guard lets it through. -/
def Replays (vs : ValidatorSet) (currentBlock : UInt64) (rec : SlashEvidenceRecord) : Prop :=
  rec.appealDeadline < currentBlock ∧ alreadySlashed vs rec = false

instance (vs : ValidatorSet) (currentBlock : UInt64) (rec : SlashEvidenceRecord) :
    Decidable (Replays vs currentBlock rec) := inferInstanceAs (Decidable (_ ∧ _))

theorem not_replays {vs : ValidatorSet} :
    (currentBlock ≤ rec.appealDeadline ∨ alreadySlashed vs rec) ↔ ¬ Replays vs currentBlock rec := by
  rw [Replays, not_and_or, UInt64.not_lt, Bool.not_eq_false]

theorem moved_replayBurn (hs : s.copies.InStep) (hdisk : OnDisk s rec) (hconfirmed : rec.status = .confirmed) :
    Ends (replayBurnLogged fault currentBlock rec) s
      (fun _ s' => Moved (Replays s.1.validators currentBlock rec) ∅ s s')
      (fun _ s' => Moved (Replays s.1.validators currentBlock rec) ∅ s s') := by
  obtain ⟨d,hd,hrec,htrails⟩ := hdisk
  rw [hconfirmed] at htrails
  have hd' := htrails.of_confirmed
  obtain ⟨r,hr,hsame,htrails'⟩ := hs.copied rec.id d hd
  rw [hd'] at htrails'
  have hr' := htrails'.of_confirmed
  unfold replayBurnLogged
  simp only [ends_bind, ends_get, not_replays]
  split
  · rename_i hkept
    rw [ends_logged]
    unfold replayBurn
    obtain ⟨p,burns⟩ := s
    split
    · exact .refl
    · simp only [ends_bind, ends_get]
      split
      · simp only [ends_bind, ends_modify, ends_get]
        have hmoved : ∀ reburns : Prop, Moved reburns ∅ (p,burns)
            ({ p with registry := p.registry.setBurnApplied rec.id },burns) := fun _ =>
          .single (.change _ hr ⟨rfl,rfl,rfl,rfl⟩ .refl (fun h => Or.inl h) fun h => absurd hr' h)
        have hmarked := getRecord_update hr (fun r => { r with burnApplied := true })
        unfold SlashingRegistryV2.setBurnApplied at hmoved ⊢
        simp only [hmarked, ends_bind, ends_ignoring, ends_pure]
        refine ends_putRecord ?_ ?_
        · exact (hmoved _).trans (moved_saved (hs.moves (hmoved False)) hmarked fun _ => hs.burnt rec.id d hd hd')
        · exact fun _ => (hmoved _).trans (.of_same ⟨rfl,rfl,rfl⟩)
      · rename_i hopen hpassed
        exact absurd ⟨UInt64.not_le.mp hopen,Bool.eq_false_iff.mpr hpassed⟩ hkept
  · rename_i hreplays
    rw [not_not] at hreplays
    simp only [ends_bind, ends_pure]
    have hreburn : Moved (Replays s.1.validators currentBlock rec) ∅ s
        (s.1,s.2 ++ [burnOf rec (recomputeSplits rec) s.1]) :=
      .single (.reburn hreplays hd hd' (fair_burnOf hrec rec hrec.finalSlashWei.symm s.1))
    exact (moved_burnAndMark rec.evidenceType (recomputeSplits rec) (hs.moves hreburn) hr hr').imp
      (fun _ s' h => hreburn.trans (RecordCopies.moves_mono False.elim subset_rfl h))
      fun _ s' h => hreburn.trans (RecordCopies.moves_mono False.elim subset_rfl h)

theorem burns_replayBurn : Ends (replayBurnLogged fault currentBlock rec) s
    (fun _ s' => if Replays s.1.validators currentBlock rec then
        s'.2 = s.2 ++ [burnOf rec (recomputeSplits rec) s.1]
      else s'.2 = s.2 ∧ s'.1.validators = s.1.validators)
    (fun _ s' => Replays s.1.validators currentBlock rec ∧
      s'.2 = s.2 ++ [burnOf rec (recomputeSplits rec) s.1]) := by
  obtain ⟨p,burns⟩ := s
  unfold replayBurnLogged
  simp only [ends_bind, ends_get, not_replays]
  by_cases hreplays : Replays p.validators currentBlock rec
  · simp only [hreplays, not_true_eq_false, if_false, if_true, true_and, ends_bind, ends_pure]
    unfold burnAndMarkLogged
    simp only [ends_bind, ends_tell, ends_logged]
    exact ends_trivial
  · simp only [hreplays, not_false_eq_true, if_true, if_false, false_and, ends_logged]
    unfold replayBurn
    split
    · exact ⟨trivial,rfl⟩
    · simp only [ends_bind, ends_get]
      split
      · simp only [ends_bind, ends_modify, ends_get]
        cases (p.registry.setBurnApplied rec.id).getRecord rec.id with
        | none => exact ⟨trivial,rfl⟩
        | some marked =>
          simp only [ends_bind, ends_ignoring, ends_pure]
          exact ends_putRecord ⟨trivial,rfl⟩ fun _ => ⟨trivial,rfl⟩
      · rename_i hopen hpassed
        exact absurd ⟨UInt64.not_le.mp hopen,Bool.eq_false_iff.mpr hpassed⟩ hreplays

/-- What `load_records_with_unapplied_burn` loads. -/
def EvidenceStore.unapplied (store : EvidenceStore) : List SlashEvidenceRecord :=
  store.allRecords.filter (fun r =>
    slashRecordFormatVersion ≤ r.formatVersion && r.status = .confirmed && !r.burnApplied)

theorem EvidenceStore.of_mem_unapplied {store : EvidenceStore} (h : rec ∈ store.unapplied) :
    rec ∈ store.allRecords ∧ rec.status = .confirmed := by
  simp only [unapplied, List.mem_filter, Bool.and_eq_true, decide_eq_true_eq] at h
  exact ⟨h.1,h.2.1.2⟩

/-- The tick finds a record on disk that is not marked as burnt, and the guard lets it through. -/
def Unguarded (fault : ℕ → Option String) (currentBlock : UInt64) (s : SlashingState) : Prop :=
  fault s.1.operations = none ∧ ∃ r ∈ s.1.store.unapplied, Replays s.1.validators currentBlock r

theorem moved_replays {l : List SlashEvidenceRecord} (hs : s.copies.InStep)
    (hl : ∀ rec ∈ l, OnDisk s rec ∧ rec.status = .confirmed)
    (hreplays : ∀ rec ∈ l, Replays s.1.validators currentBlock rec → reburns) :
    Ends (l.mapM (replayBurnLogged fault currentBlock)) s (fun _ => Moved reburns ∅ s) (fun _ => Moved reburns ∅ s) := by
  refine (Ends.mapM (J := fun l' s' => Moved reburns ∅ s s' ∧
    (∀ rec ∈ l', OnDisk s' rec ∧ rec.status = .confirmed) ∧
    (reburns ∨ s'.1.validators = s.1.validators ∧ ∀ rec ∈ l', rec ∈ l)) (E := fun _ => Moved reburns ∅ s)
    ⟨.refl,hl,Or.inr ⟨rfl,fun _ h => h⟩⟩ ?_).imp (fun _ _ h => h.1) fun _ _ h => h
  rintro rec l' s' ⟨hmoved,hdisk,hsteady⟩
  have hs' := hs.moves hmoved
  obtain ⟨hrec,hconfirmed⟩ := hdisk rec List.mem_cons_self
  have hallowed : Replays s'.1.validators currentBlock rec → reburns := by
    intro hreplay
    rcases hsteady with h | ⟨hvalidators,hmem⟩
    · exact h
    · rw [hvalidators] at hreplay
      exact hreplays rec (hmem rec List.mem_cons_self) hreplay
  refine ((moved_replayBurn hs' hrec hconfirmed).and burns_replayBurn).imp ?_ ?_
  · rintro _ s'' ⟨hmove,hlog⟩
    have hmove' : Moved reburns ∅ s' s'' := RecordCopies.moves_mono hallowed subset_rfl hmove
    refine ⟨hmoved.trans hmove',fun r hr => ?_,?_⟩
    · obtain ⟨hr,hr'⟩ := hdisk r (List.mem_cons_of_mem _ hr)
      exact ⟨hr.moved hs' hmove',hr'⟩
    · rcases hsteady with h | ⟨hvalidators,hmem⟩
      · exact Or.inl h
      · by_cases hreplay : Replays s'.1.validators currentBlock rec
        · exact Or.inl (hallowed hreplay)
        · rw [if_neg hreplay] at hlog
          exact Or.inr ⟨hlog.2.trans hvalidators,fun r hr => hmem r (List.mem_cons_of_mem _ hr)⟩
  · rintro _ s'' ⟨hmove,-⟩
    exact hmoved.trans (RecordCopies.moves_mono hallowed subset_rfl hmove)

theorem moved_finalizations {l : List SlashEvidenceRecord} (hs : s.copies.InStep) (hl : ∀ rec ∈ l, OnDisk s rec) :
    Ends (l.mapM (finalizeRecordLogged fault currentBlock)) s (fun _ => Moved False ∅ s) (fun _ => Moved False ∅ s) := by
  refine (Ends.mapM (J := fun l' s' => Moved False ∅ s s' ∧ ∀ rec ∈ l', OnDisk s' rec) (E := fun _ => Moved False ∅ s)
    ⟨.refl,hl⟩ ?_).imp (fun _ _ h => h.1) fun _ _ h => h
  rintro rec l' s' ⟨hmoved,hdisk⟩
  have hs' := hs.moves hmoved
  refine (moved_finalizeRecord hs' (hdisk rec List.mem_cons_self)).imp ?_ ?_
  · exact fun _ s'' hmove => ⟨hmoved.trans hmove,fun r hr => (hdisk r (List.mem_cons_of_mem _ hr)).moved hs' hmove⟩
  · exact fun _ s'' hmove => hmoved.trans hmove

def Reburnt (s s' : SlashingState) : Prop := ∃ b, s.copies.Burnt b.recordId ∧ s.2 ++ [b] <+: s'.2

theorem Reburnt.grow {s'' : SlashingState} (h : Reburnt s s') (hmoved : Moved reburns appeals s' s'') : Reburnt s s'' := by
  obtain ⟨b,hb,hlog⟩ := h
  exact ⟨b,hb,hlog.trans (RecordCopies.burns_moves hmoved)⟩

theorem Reburnt.not_burntOnce (h : Reburnt s s') : ¬ s'.copies.BurntOnce := by
  obtain ⟨b,⟨b',hb',hid⟩,log,hlog⟩ := h
  unfold RecordCopies.BurntOnce SlashingState.copies
  rw [← hlog]
  simp only [List.map_append, List.nodup_append, List.map_cons, List.map_nil]
  rintro ⟨⟨-,-,hdisjoint⟩,-,-⟩
  exact hdisjoint b'.recordId (List.mem_map_of_mem hb') b.recordId List.mem_cons_self hid

/-- The loop of the replays burns the first record that it replays, and it comes to it. -/
theorem reburnt_replays {l : List SlashEvidenceRecord} (hburnt : ∀ rec ∈ l, s.copies.Burnt rec.id)
    (hreplays : ∃ rec ∈ l, Replays s.1.validators currentBlock rec) :
    Ends (l.mapM (replayBurnLogged fault currentBlock)) s (fun _ => Reburnt s) (fun _ => Reburnt s) := by
  have hgrow : ∀ {s' s'' : SlashingState}, Reburnt s s' → s'.2 <+: s''.2 → Reburnt s s'' := by
    rintro s' s'' ⟨b,hb,hlog⟩ h
    exact ⟨b,hb,hlog.trans h⟩
  refine (Ends.mapM (J := fun l' s' => Reburnt s s' ∨ s'.2 = s.2 ∧ s'.1.validators = s.1.validators ∧
    (∀ rec ∈ l', s.copies.Burnt rec.id) ∧ ∃ rec ∈ l', Replays s.1.validators currentBlock rec)
    (E := fun _ => Reburnt s) (Or.inr ⟨rfl,rfl,hburnt,hreplays⟩) ?_).imp (fun _ s' h => ?_) fun _ _ h => h
  · rintro rec l' s' (h | ⟨hlog,hvalidators,hburnt',r,hr,hreplay⟩)
    · refine burns_replayBurn.imp (fun _ s'' h'' => Or.inl (hgrow h ?_)) fun _ s'' h'' => hgrow h ?_
      · split at h''
        · exact h'' ▸ List.prefix_append _ _
        · exact h''.1 ▸ List.prefix_refl _
      · exact h''.2 ▸ List.prefix_append _ _
    · have hburn : ∀ {s'' : SlashingState} {b : Burn}, b.recordId = rec.id → s''.2 = s'.2 ++ [b] → Reburnt s s'' := by
        intro s'' b hid h''
        rw [hlog] at h''
        exact ⟨b,by rw [hid]; exact hburnt' rec List.mem_cons_self,by rw [h'']⟩
      refine burns_replayBurn.imp (fun _ s'' h'' => ?_) fun _ s'' h'' => hburn rfl h''.2
      split at h''
      · exact Or.inl (hburn rfl h'')
      · rename_i hkept
        refine Or.inr ⟨h''.1.trans hlog,h''.2.trans hvalidators,
          fun r hr => hburnt' r (List.mem_cons_of_mem _ hr),r,?_,hreplay⟩
        rcases List.mem_cons.mp hr with rfl | hr
        · rw [hvalidators] at hkept
          exact absurd hreplay hkept
        · exact hr
  · rcases h with h | ⟨-,-,-,r,hr,-⟩
    · exact h
    · cases hr

/-- A tick burns a record again if, and only if, the guard of its replay misses one. -/
theorem moved_tickFinalize (hs : s.copies.InStep) :
    Ends (tickFinalizeLogged fault currentBlock) s
      (fun _ s' => Moved (Unguarded fault currentBlock s) ∅ s s' ∧ (Unguarded fault currentBlock s → Reburnt s s'))
      (fun _ s' => Moved (Unguarded fault currentBlock s) ∅ s s' ∧ (Unguarded fault currentBlock s → Reburnt s s')) := by
  unfold tickFinalizeLogged loadRecordsWithUnappliedBurn loadRecordsReadyToFinalize
  simp only [ends_bind, ends_logged, ends_pure]
  refine ends_loadAllRecords (fun hread => ?_) fun _ hread => ⟨.of_same ⟨rfl,rfl,rfl⟩,fun h => absurd h.1 hread⟩
  have hcounted : Moved (Unguarded fault currentBlock s) ∅ s (s.1.counted,s.2) := .of_same ⟨rfl,rfl,rfl⟩
  have hs₁ := hs.moves hcounted
  have hloaded : ∀ rec ∈ s.1.store.unapplied, OnDisk (s.1.counted,s.2) rec ∧ rec.status = .confirmed := fun rec hrec =>
    ⟨.of_mem hs₁ (EvidenceStore.of_mem_unapplied hrec).1,(EvidenceStore.of_mem_unapplied hrec).2⟩
  have hmoves : Ends (s.1.store.unapplied.mapM (replayBurnLogged fault currentBlock)) (s.1.counted,s.2)
      (fun _ => Moved (Unguarded fault currentBlock s) ∅ (s.1.counted,s.2))
      (fun _ => Moved (Unguarded fault currentBlock s) ∅ (s.1.counted,s.2)) :=
    moved_replays hs₁ hloaded fun rec hrec hreplay => ⟨hread,rec,hrec,hreplay⟩
  have hloop : Ends (s.1.store.unapplied.mapM (replayBurnLogged fault currentBlock)) (s.1.counted,s.2)
      (fun _ s' => Moved (Unguarded fault currentBlock s) ∅ s s' ∧ (Unguarded fault currentBlock s → Reburnt s s'))
      (fun _ s' => Moved (Unguarded fault currentBlock s) ∅ s s' ∧
        (Unguarded fault currentBlock s → Reburnt s s')) := by
    by_cases hunguarded : Unguarded fault currentBlock s
    · have hburnt : Ends (s.1.store.unapplied.mapM (replayBurnLogged fault currentBlock)) (s.1.counted,s.2)
          (fun _ => Reburnt (s.1.counted,s.2)) (fun _ => Reburnt (s.1.counted,s.2)) := by
        refine reburnt_replays (fun rec hrec => ?_) hunguarded.2
        obtain ⟨⟨d,hd,-,htrails⟩,hconfirmed⟩ := hloaded rec hrec
        rw [hconfirmed] at htrails
        exact hs₁.burnt rec.id d hd htrails.of_confirmed
      exact (hmoves.and hburnt).imp (fun _ _ h => ⟨hcounted.trans h.1,fun _ => h.2⟩)
        fun _ _ h => ⟨hcounted.trans h.1,fun _ => h.2⟩
    · exact hmoves.imp (fun _ _ h => ⟨hcounted.trans h,fun hU => absurd hU hunguarded⟩)
        fun _ _ h => ⟨hcounted.trans h,fun hU => absurd hU hunguarded⟩
  refine hloop.imp (fun _ s₂ h₂ => ?_) fun _ _ h => h
  have hrest : ∀ {s' : SlashingState}, Moved False ∅ s₂ s' → Moved (Unguarded fault currentBlock s) ∅ s s' ∧
      (Unguarded fault currentBlock s → Reburnt s s') := fun h =>
    ⟨h₂.1.trans (RecordCopies.moves_mono False.elim subset_rfl h),fun hU => (h₂.2 hU).grow h⟩
  have hcounted₂ : Moved False ∅ s₂ (s₂.1.counted,s₂.2) := .of_same ⟨rfl,rfl,rfl⟩
  refine ends_loadAllRecords (fun _ => ?_) fun _ _ => hrest hcounted₂
  have hs₃ := (hs.moves h₂.1).moves hcounted₂
  refine (moved_finalizations hs₃ fun rec hrec => .of_mem hs₃ (List.mem_filter.mp hrec).1).imp ?_ ?_
  · exact fun _ s' h => hrest (hcounted₂.trans h)
  · exact fun _ s' h => hrest (hcounted₂.trans h)

end Ticks

end ZbxChain.Staking
