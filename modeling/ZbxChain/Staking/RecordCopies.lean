import ZbxChain.Staking.PipelineRules

/-! # The two copies of a slash record

A record is in the registry, in memory, and in the evidence store, on disk. The copy in memory
moves first, and the one on disk trails it. A record is burnt when, and only when, its copy on
disk is confirmed.
-/
namespace ZbxChain.Staking
open Relation

inductive EvidenceStatus.Step : EvidenceStatus → EvidenceStatus → Prop
  | appeal : Step .pending .appealed
  | confirm : Step .pending .confirmed
  | overturn : Step .appealed .overturned
  | reject : Step .appealed .confirmed

def EvidenceStatus.Trails : EvidenceStatus → EvidenceStatus → Prop := ReflTransGen EvidenceStatus.Step

namespace EvidenceStatus.Trails
variable {s : EvidenceStatus}

theorem of_confirmed (h : Trails .confirmed s) : s = .confirmed := by
  rcases h.cases_head with heq | ⟨_,hstep,-⟩
  · exact heq.symm
  · cases hstep

theorem of_overturned (h : Trails .overturned s) : s = .overturned := by
  rcases h.cases_head with heq | ⟨_,hstep,-⟩
  · exact heq.symm
  · cases hstep

theorem of_appealed (h : Trails .appealed s) : s = .appealed ∨ s = .overturned ∨ s = .confirmed := by
  rcases h.cases_head with heq | ⟨_,hstep,hrest⟩
  · exact Or.inl heq.symm
  · cases hstep with
    | overturn => exact Or.inr (Or.inl (of_overturned hrest))
    | reject => exact Or.inr (Or.inr (of_confirmed hrest))

theorem to_pending (h : Trails s .pending) : s = .pending := by
  rcases h.cases_tail with heq | ⟨_,-,hstep⟩
  · exact heq.symm
  · cases hstep

end EvidenceStatus.Trails

/-- Copies of one slash: they differ in their status, their reporters and their marks at most. -/
structure SlashEvidenceRecord.SameSlash (r r' : SlashEvidenceRecord) : Prop where
  id : r'.id = r.id
  offender : r'.offender = r.offender
  finalSlashWei : r'.finalSlashWei = r.finalSlashWei
  appealDeadline : r'.appealDeadline = r.appealDeadline

namespace SlashEvidenceRecord.SameSlash
variable {r r' r'' : SlashEvidenceRecord}

theorem refl (r : SlashEvidenceRecord) : r.SameSlash r := ⟨rfl,rfl,rfl,rfl⟩

theorem trans (h : r.SameSlash r') (h' : r'.SameSlash r'') : r.SameSlash r'' :=
  ⟨h'.id.trans h.id,h'.offender.trans h.offender,h'.finalSlashWei.trans h.finalSlashWei,
    h'.appealDeadline.trans h.appealDeadline⟩

end SlashEvidenceRecord.SameSlash

/-- A burn of the slash takes no more than it may, and no reporter has two shares in it. -/
structure Burn.Fair (b : Burn) (r : SlashEvidenceRecord) : Prop where
  offender : b.offender = r.offender
  slash : b.slashWei = r.finalSlashWei
  lost : b.lostWei ≤ b.slashWei
  shares : (b.splits.map Prod.fst).Nodup

theorem Burn.Fair.of_same {b : Burn} {r r' : SlashEvidenceRecord} (h : b.Fair r) (hsame : r.SameSlash r') :
    b.Fair r' :=
  ⟨h.offender.trans hsame.offender.symm,h.slash.trans hsame.finalSlashWei.symm,h.lost,h.shares⟩

structure RecordCopies where
  memory : Table H256 SlashEvidenceRecord
  disk : Table H256 SlashEvidenceRecord
  burns : List Burn

def RecordCopies.Burnt (c : RecordCopies) (id : H256) : Prop := ∃ b ∈ c.burns, b.recordId = id

/-- What is done to the copies. Only where `reburns` holds a record may be burnt again, and only
the records in `appeals` may be appealed. -/
inductive RecordMove (reburns : Prop) (appeals : Set H256) : RecordCopies → RecordCopies → Prop
  | submit {c : RecordCopies} {r : SlashEvidenceRecord} (hfresh : c.memory.lookup r.id = none)
      (hpending : r.status = .pending) (hmark : r.burnApplied = false) :
      RecordMove reburns appeals c { c with memory := c.memory.insert r.id r }
  | change {c : RecordCopies} {id : H256} {r : SlashEvidenceRecord}
      (f : SlashEvidenceRecord → SlashEvidenceRecord) (hr : c.memory.lookup id = some r)
      (hsame : r.SameSlash (f r)) (hstatus : r.status.Trails (f r).status)
      (happeal : r.status = .pending → (f r).status = .pending ∨ (f r).status = .confirmed ∨ id ∈ appeals)
      (hmark : (f r).status ≠ .confirmed → (f r).burnApplied = r.burnApplied) :
      RecordMove reburns appeals c { c with memory := c.memory.modify id f }
  | save {c : RecordCopies} {id : H256} {r : SlashEvidenceRecord} (hr : c.memory.lookup id = some r)
      (hburnt : r.status = .confirmed → c.Burnt id) :
      RecordMove reburns appeals c { c with disk := c.disk.insert id r }
  | burn {c : RecordCopies} {b : Burn} {r : SlashEvidenceRecord} (hr : c.memory.lookup b.recordId = some r)
      (hconfirmed : r.status = .confirmed) (hfair : b.Fair r) (hfirst : ¬ c.Burnt b.recordId)
      (hpending : ∀ d, c.disk.lookup b.recordId = some d → d.status = .pending) :
      RecordMove reburns appeals c { c with disk := c.disk.insert b.recordId r, burns := c.burns ++ [b] }
  | reburn {c : RecordCopies} {b : Burn} {r : SlashEvidenceRecord} (h : reburns)
      (hr : c.disk.lookup b.recordId = some r) (hconfirmed : r.status = .confirmed) (hfair : b.Fair r) :
      RecordMove reburns appeals c { c with burns := c.burns ++ [b] }

def RecordMoves (reburns : Prop) (appeals : Set H256) : RecordCopies → RecordCopies → Prop :=
  ReflTransGen (RecordMove reburns appeals)

/-- The disk trails the memory. -/
structure RecordCopies.InStep (c : RecordCopies) : Prop where
  keyed : ∀ id r, c.memory.lookup id = some r → r.id = id
  copied : ∀ id d, c.disk.lookup id = some d →
    ∃ r, c.memory.lookup id = some r ∧ d.SameSlash r ∧ d.status.Trails r.status
  unmarked : ∀ id r, c.memory.lookup id = some r ∨ c.disk.lookup id = some r → r.status ≠ .confirmed →
    r.burnApplied = false
  fair : ∀ b ∈ c.burns, ∃ d, c.disk.lookup b.recordId = some d ∧ d.status = .confirmed ∧ b.Fair d
  burnt : ∀ id d, c.disk.lookup id = some d → d.status = .confirmed → c.Burnt id

namespace RecordCopies
variable {reburns : Prop} {appeals : Set H256} {c c' : RecordCopies} {id : H256} {r d : SlashEvidenceRecord}

theorem inStep_empty : InStep ⟨∅,∅,[]⟩ where
  keyed _ _ h := by cases h
  copied _ _ h := by cases h
  unmarked _ _ h := by rcases h with h | h <;> cases h
  fair _ h := by cases h
  burnt _ _ h := by cases h

namespace InStep

theorem burnt_iff (h : c.InStep) : c.Burnt id ↔ ∃ d, c.disk.lookup id = some d ∧ d.status = .confirmed := by
  constructor
  · rintro ⟨b,hb,rfl⟩
    obtain ⟨d,hd,hconfirmed,-⟩ := h.fair b hb
    exact ⟨d,hd,hconfirmed⟩
  · rintro ⟨d,hd,hconfirmed⟩
    exact h.burnt id d hd hconfirmed

theorem confirmed_of_burnt (h : c.InStep) (hburnt : c.Burnt id) (hr : c.memory.lookup id = some r) :
    r.status = .confirmed := by
  obtain ⟨d,hd,hconfirmed⟩ := h.burnt_iff.mp hburnt
  obtain ⟨r',hr',-,htrails⟩ := h.copied id d hd
  obtain rfl : r' = r := Option.some.inj (hr'.symm.trans hr)
  rw [hconfirmed] at htrails
  exact htrails.of_confirmed

theorem submit (h : c.InStep) (hfresh : c.memory.lookup r.id = none) (hpending : r.status = .pending)
    (hmark : r.burnApplied = false) : InStep { c with memory := c.memory.insert r.id r } where
  keyed id m hm := by
    rcases AList.lookup_insert_some hm with ⟨rfl,rfl⟩ | ⟨-,hm⟩
    · rfl
    · exact h.keyed id m hm
  copied id d hd := by
    obtain ⟨m,hm,hsame,htrails⟩ := h.copied id d hd
    have hne : id ≠ r.id := by
      rintro rfl
      simp [hfresh] at hm
    exact ⟨m,by rw [AList.lookup_insert_ne hne]; exact hm,hsame,htrails⟩
  unmarked id m hm hstatus := by
    rcases hm with hm | hm
    · rcases AList.lookup_insert_some hm with ⟨rfl,rfl⟩ | ⟨-,hm⟩
      · exact hmark
      · exact h.unmarked id m (Or.inl hm) hstatus
    · exact h.unmarked id m (Or.inr hm) hstatus
  fair := h.fair
  burnt := h.burnt

theorem lookup_modify_some {t : Table H256 SlashEvidenceRecord} {f : SlashEvidenceRecord → SlashEvidenceRecord}
    {id' : H256} {m : SlashEvidenceRecord} (hr : t.lookup id = some r)
    (hm : (t.modify id f).lookup id' = some m) : id' = id ∧ m = f r ∨ id' ≠ id ∧ t.lookup id' = some m := by
  rw [AList.lookup_modify] at hm
  by_cases hid : id' = id
  · simp [hid, hr] at hm
    exact Or.inl ⟨hid,hm.symm⟩
  · simp [hid] at hm
    exact Or.inr ⟨hid,hm⟩

theorem change (h : c.InStep) (f : SlashEvidenceRecord → SlashEvidenceRecord) (hr : c.memory.lookup id = some r)
    (hsame : r.SameSlash (f r)) (hstatus : r.status.Trails (f r).status)
    (hmark : (f r).status ≠ .confirmed → (f r).burnApplied = r.burnApplied) :
    InStep { c with memory := c.memory.modify id f } where
  keyed id' m hm := by
    rcases lookup_modify_some hr hm with ⟨rfl,rfl⟩ | ⟨-,hm⟩
    · exact hsame.id.trans (h.keyed id' r hr)
    · exact h.keyed id' m hm
  copied id' d hd := by
    obtain ⟨m,hm,hdm,htrails⟩ := h.copied id' d hd
    dsimp only
    by_cases hid : id' = id
    · subst hid
      obtain rfl : m = r := Option.some.inj (hm.symm.trans hr)
      exact ⟨f m,by simp [AList.lookup_modify, hr],hdm.trans hsame,htrails.trans hstatus⟩
    · exact ⟨m,by simp [AList.lookup_modify, hid, hm],hdm,htrails⟩
  unmarked id' m hm hm' := by
    rcases hm with hm | hm
    · rcases lookup_modify_some hr hm with ⟨rfl,rfl⟩ | ⟨-,hm⟩
      · rw [hmark hm']
        refine h.unmarked id' r (Or.inl hr) ?_
        intro hconfirmed
        rw [hconfirmed] at hstatus
        exact hm' hstatus.of_confirmed
      · exact h.unmarked id' m (Or.inl hm) hm'
    · exact h.unmarked id' m (Or.inr hm) hm'
  fair := h.fair
  burnt := h.burnt

theorem save (h : c.InStep) (hr : c.memory.lookup id = some r) (new : List Burn)
    (hnew : ∀ b ∈ new, b.recordId = id ∧ b.Fair r ∧ r.status = .confirmed)
    (hburnt : r.status = .confirmed → ∃ b ∈ c.burns ++ new, b.recordId = id) :
    InStep ⟨c.memory,c.disk.insert id r,c.burns ++ new⟩ where
  keyed := h.keyed
  copied id' d hd := by
    rcases AList.lookup_insert_some hd with ⟨rfl,rfl⟩ | ⟨-,hd⟩
    · exact ⟨d,hr,.refl d,.refl⟩
    · exact h.copied id' d hd
  unmarked id' m hm hstatus := by
    rcases hm with hm | hm
    · exact h.unmarked id' m (Or.inl hm) hstatus
    · rcases AList.lookup_insert_some hm with ⟨rfl,rfl⟩ | ⟨-,hm⟩
      · exact h.unmarked id' m (Or.inl hr) hstatus
      · exact h.unmarked id' m (Or.inr hm) hstatus
  fair b hb := by
    dsimp only
    rcases List.mem_append.mp hb with hb | hb
    · obtain ⟨d,hd,hconfirmed,hfair⟩ := h.fair b hb
      by_cases hid : b.recordId = id
      · obtain ⟨r',hr',hsame,htrails⟩ := h.copied _ d hd
        obtain rfl : r' = r := Option.some.inj (hr'.symm.trans (by rw [hid]; exact hr))
        rw [hconfirmed] at htrails
        exact ⟨r',by rw [hid, AList.lookup_insert],htrails.of_confirmed,hfair.of_same hsame⟩
      · exact ⟨d,by rw [AList.lookup_insert_ne hid]; exact hd,hconfirmed,hfair⟩
    · obtain ⟨hid,hfair,hconfirmed⟩ := hnew b hb
      exact ⟨r,by rw [hid, AList.lookup_insert],hconfirmed,hfair⟩
  burnt id' d hd hconfirmed := by
    rcases AList.lookup_insert_some hd with ⟨rfl,rfl⟩ | ⟨-,hd⟩
    · exact hburnt hconfirmed
    · obtain ⟨b,hb,hid⟩ := h.burnt id' d hd hconfirmed
      exact ⟨b,List.mem_append_left _ hb,hid⟩

theorem reburn {b : Burn} (h : c.InStep) (hr : c.disk.lookup b.recordId = some r)
    (hconfirmed : r.status = .confirmed) (hfair : b.Fair r) : InStep { c with burns := c.burns ++ [b] } where
  keyed := h.keyed
  copied := h.copied
  unmarked := h.unmarked
  fair b' hb' := by
    rcases List.mem_append.mp hb' with hb' | hb'
    · exact h.fair b' hb'
    · obtain rfl := List.mem_singleton.mp hb'
      exact ⟨r,hr,hconfirmed,hfair⟩
  burnt id d hd hd' := by
    obtain ⟨b',hb',hid⟩ := h.burnt id d hd hd'
    exact ⟨b',List.mem_append_left _ hb',hid⟩

theorem restart (h : c.InStep) {memory : Table H256 SlashEvidenceRecord}
    (hmemory : ∀ id, memory.lookup id = c.disk.lookup id) : InStep { c with memory := memory } where
  keyed id r hr := by
    obtain ⟨m,hm,hsame,-⟩ := h.copied id r (by rw [← hmemory]; exact hr)
    rw [← hsame.id]
    exact h.keyed id m hm
  copied id d hd := ⟨d,by rw [hmemory]; exact hd,.refl d,.refl⟩
  unmarked id r hr := by
    refine h.unmarked id r (Or.inr ?_)
    rcases hr with hr | hr
    · rw [← hmemory]
      exact hr
    · exact hr
  fair := h.fair
  burnt := h.burnt

theorem move (h : c.InStep) (hmove : RecordMove reburns appeals c c') : c'.InStep := by
  cases hmove with
  | submit hfresh hpending hmark => exact h.submit hfresh hpending hmark
  | change f hr hsame hstatus _ hmark => exact h.change f hr hsame hstatus hmark
  | save hr hburnt => simpa using h.save hr [] (by simp) (by simpa [Burnt] using hburnt)
  | burn hr hconfirmed hfair hfirst hpending =>
    exact h.save hr _ (by simp [hfair, hconfirmed]) fun _ => ⟨_,List.mem_append_right _ List.mem_cons_self,rfl⟩
  | reburn _ hr hconfirmed hfair => exact h.reburn hr hconfirmed hfair

theorem moves (h : c.InStep) (hmoves : RecordMoves reburns appeals c c') : c'.InStep := by
  induction hmoves with
  | refl => exact h
  | tail _ hmove ih => exact ih.move hmove

theorem disk_move (h : c.InStep) (hmove : RecordMove reburns appeals c c') (hd : c.disk.lookup id = some d) :
    ∃ d', c'.disk.lookup id = some d' ∧ d.SameSlash d' ∧ d.status.Trails d'.status := by
  have hsaved : ∀ {id' : H256} {r : SlashEvidenceRecord}, c.memory.lookup id' = some r →
      ∃ d', (c.disk.insert id' r).lookup id = some d' ∧ d.SameSlash d' ∧ d.status.Trails d'.status := by
    intro id' r hr
    by_cases hid : id = id'
    · subst hid
      obtain ⟨r',hr',hsame,htrails⟩ := h.copied id d hd
      obtain rfl : r' = r := Option.some.inj (hr'.symm.trans hr)
      exact ⟨r',AList.lookup_insert _,hsame,htrails⟩
    · exact ⟨d,by rw [AList.lookup_insert_ne hid]; exact hd,.refl d,.refl⟩
  cases hmove with
  | submit => exact ⟨d,hd,.refl d,.refl⟩
  | change => exact ⟨d,hd,.refl d,.refl⟩
  | save hr => exact hsaved hr
  | burn hr => exact hsaved hr
  | reburn => exact ⟨d,hd,.refl d,.refl⟩

theorem disk_moves (h : c.InStep) (hmoves : RecordMoves reburns appeals c c') (hd : c.disk.lookup id = some d) :
    ∃ d', c'.disk.lookup id = some d' ∧ d.SameSlash d' ∧ d.status.Trails d'.status := by
  induction hmoves with
  | refl => exact ⟨d,hd,.refl d,.refl⟩
  | tail hfirst hmove ih =>
    obtain ⟨d',hd',hsame,htrails⟩ := ih
    obtain ⟨d'',hd'',hsame',htrails'⟩ := (h.moves hfirst).disk_move hmove hd'
    exact ⟨d'',hd'',hsame.trans hsame',htrails.trans htrails'⟩

/-- What is under appeal on disk, or overturned there, stays so, and what is overturned stays that. -/
theorem appealed_move (h : c.InStep) (hmove : RecordMove reburns appeals c c') (hd : c.disk.lookup id = some d)
    (hhalted : d.status = .appealed ∨ d.status = .overturned) :
    ∃ d', c'.disk.lookup id = some d' ∧ (d'.status = .appealed ∨ d'.status = .overturned) ∧
      (d.status = .overturned → d'.status = .overturned) := by
  have hsame : c'.disk.lookup id = c.disk.lookup id → ∃ d', c'.disk.lookup id = some d' ∧
      (d'.status = .appealed ∨ d'.status = .overturned) ∧ (d.status = .overturned → d'.status = .overturned) :=
    fun heq => ⟨d,heq.trans hd,hhalted,fun h => h⟩
  cases hmove with
  | submit => exact hsame rfl
  | change => exact hsame rfl
  | @save id' r hr hburnt =>
    by_cases hid : id = id'
    · subst hid
      obtain ⟨r',hr',-,htrails⟩ := h.copied id d hd
      obtain rfl : r' = r := Option.some.inj (hr'.symm.trans hr)
      refine ⟨r',AList.lookup_insert _,?_,fun hover => ?_⟩
      · rcases hhalted with happealed | hover
        · rw [happealed] at htrails
          rcases htrails.of_appealed with hstatus | hstatus | hconfirmed
          · exact Or.inl hstatus
          · exact Or.inr hstatus
          -- a rejected appeal is not saved, for the record is not burnt
          · obtain ⟨d',hd',hconfirmed'⟩ := h.burnt_iff.mp (hburnt hconfirmed)
            obtain rfl : d' = d := Option.some.inj (hd'.symm.trans hd)
            simp [happealed] at hconfirmed'
        · rw [hover] at htrails
          exact Or.inr htrails.of_overturned
      · rw [hover] at htrails
        exact htrails.of_overturned
    · exact hsame (AList.lookup_insert_ne hid)
  | @burn b r hr hconfirmed hfair hfirst hpending =>
    by_cases hid : id = b.recordId
    · have hstatus := hpending d (by rw [← hid]; exact hd)
      simp [hstatus] at hhalted
    · exact hsame (AList.lookup_insert_ne hid)
  | reburn => exact hsame rfl

/-- A slash that is under appeal or overturned stays so on disk. -/
theorem appealed_moves (h : c.InStep) (hmoves : RecordMoves reburns appeals c c') (hd : c.disk.lookup id = some d)
    (hhalted : d.status = .appealed ∨ d.status = .overturned) :
    ∃ d', c'.disk.lookup id = some d' ∧ (d'.status = .appealed ∨ d'.status = .overturned) ∧
      (d.status = .overturned → d'.status = .overturned) := by
  induction hmoves with
  | refl => exact ⟨d,hd,hhalted,fun h => h⟩
  | tail hfirst hmove ih =>
    obtain ⟨d',hd',hhalted',hover⟩ := ih
    obtain ⟨d'',hd'',hhalted'',hover'⟩ := (h.moves hfirst).appealed_move hmove hd' hhalted'
    exact ⟨d'',hd'',hhalted'',fun h => hover' (hover h)⟩

end InStep

theorem burns_moves (hmoves : RecordMoves reburns appeals c c') : c.burns <+: c'.burns := by
  induction hmoves with
  | refl => exact List.prefix_refl _
  | tail _ hmove ih =>
    refine ih.trans ?_
    cases hmove with
    | submit => exact List.prefix_refl _
    | change => exact List.prefix_refl _
    | save => exact List.prefix_refl _
    | burn => exact List.prefix_append _ _
    | reburn => exact List.prefix_append _ _

def BurntOnce (c : RecordCopies) : Prop := (c.burns.map Burn.recordId).Nodup

theorem burntOnce_moves (hmoves : RecordMoves False appeals c c') (h : c.BurntOnce) : c'.BurntOnce := by
  induction hmoves with
  | refl => exact h
  | tail _ hmove ih =>
    cases hmove with
    | submit => exact ih
    | change => exact ih
    | save => exact ih
    | burn hr hconfirmed hfair hfirst hpending =>
      unfold BurntOnce
      simp only [List.map_append, List.map_cons, List.map_nil]
      refine List.Nodup.append ih (List.nodup_singleton _) ?_
      simpa [Burnt] using hfirst
    | reburn h => exact h.elim

theorem moves_mono {reburns' : Prop} {appeals' : Set H256} (himp : reburns → reburns')
    (hsub : appeals ⊆ appeals') (h : RecordMoves reburns appeals c c') : RecordMoves reburns' appeals' c c' := by
  refine ReflTransGen.mono (fun c c' hmove => ?_) _ _ h
  cases hmove with
  | submit hfresh hpending hmark => exact .submit hfresh hpending hmark
  | change f hr hsame hstatus happeal hmark =>
    exact .change f hr hsame hstatus (fun h => (happeal h).imp_right (Or.imp_right fun h' => hsub h')) hmark
  | save hr hburnt => exact .save hr hburnt
  | burn hr hconfirmed hfair hfirst hpending => exact .burn hr hconfirmed hfair hfirst hpending
  | reburn h hr hconfirmed hfair => exact .reburn (himp h) hr hconfirmed hfair

def Unappealed (c : RecordCopies) (id : H256) : Prop :=
  ∀ r, c.memory.lookup id = some r ∨ c.disk.lookup id = some r → r.status = .pending ∨ r.status = .confirmed

theorem unappealed_moves (hmoves : RecordMoves reburns appeals c c') (hid : id ∉ appeals) (h : c.Unappealed id) :
    c'.Unappealed id := by
  induction hmoves with
  | refl => exact h
  | tail _ hmove ih =>
    intro m hm
    cases hmove with
    | submit hfresh hpending hmark =>
      rcases hm with hm | hm
      · rcases AList.lookup_insert_some hm with ⟨rfl,rfl⟩ | ⟨-,hm⟩
        · exact Or.inl hpending
        · exact ih m (Or.inl hm)
      · exact ih m (Or.inr hm)
    | @change id' r f hr hsame hstatus happeal hmark =>
      rcases hm with hm | hm
      · rcases InStep.lookup_modify_some hr hm with ⟨rfl,rfl⟩ | ⟨-,hm⟩
        · rcases ih r (Or.inl hr) with hpending | hconfirmed
          · exact (happeal hpending).imp_right fun h => h.resolve_right hid
          · rw [hconfirmed] at hstatus
            exact Or.inr hstatus.of_confirmed
        · exact ih m (Or.inl hm)
      · exact ih m (Or.inr hm)
    | save hr hburnt =>
      rcases hm with hm | hm
      · exact ih m (Or.inl hm)
      · rcases AList.lookup_insert_some hm with ⟨rfl,rfl⟩ | ⟨-,hm⟩
        · exact ih m (Or.inl hr)
        · exact ih m (Or.inr hm)
    | burn hr hconfirmed hfair hfirst hpending =>
      rcases hm with hm | hm
      · exact ih m (Or.inl hm)
      · rcases AList.lookup_insert_some hm with ⟨rfl,rfl⟩ | ⟨-,hm⟩
        · exact ih m (Or.inl hr)
        · exact ih m (Or.inr hm)
    | reburn => exact ih m hm

end RecordCopies

def SlashingState.copies (s : SlashingState) : RecordCopies := ⟨s.1.registry.records,s.1.store.records,s.2⟩

end ZbxChain.Staking
