import ZbxChain.Staking.Refusals
import ZbxChain.Staking.TickMoves

/-! # Burning a slash once, and appeals against it

The guard of the replay takes an offender that is not active for one that has been slashed. An
offender that was burnt while it waited for its election is active after it.

An appeal that was accepted is on disk, where nothing but an overturn takes it away. So the
slash is never burnt, and there is nothing to refund when it is overturned.
-/
namespace ZbxChain.Staking
open SlashingPipeline Stateful Machine

section Burns
variable {P : Platform} {sha3 : List UInt8 → H256} {bincode : EquivocationEvidence → List UInt8}

/-- The guard of a tick lets a burn through that the tick finds unmarked. -/
def Misses (s : SlashingState) : SlashingEvent → Prop
  | .tick fault currentBlock => Unguarded fault currentBlock s
  | _ => False

section Steps
variable {s : SlashingState} {event : SlashingEvent}

def SlashingEvent.appeals : SlashingEvent → Set H256
  | .fileAppeal _ evidenceId _ _ _ => {evidenceId}
  | _ => ∅

/-- A registry that was rebuilt from the disk holds what the disk does. -/
def Rebuilt (s s' : SlashingState) : Prop :=
  s'.1.store = s.1.store ∧ s'.2 = s.2 ∧
    ∀ id, s'.1.registry.records.lookup id = s.1.store.records.lookup id

variable (P sha3 bincode) in
theorem rebuilt_restart (hs : s.copies.InStep) (totalValidators : UInt64) :
    Rebuilt s (slashingStep P sha3 bincode s (.restart totalValidators)).1 := by
  refine ⟨rfl,rfl,lookup_rehydrated (fun id d hd => ?_) totalValidators⟩
  obtain ⟨r,hr,hsame,-⟩ := hs.copied id d hd
  rw [← hsame.id]
  exact hs.keyed id r hr

variable (P sha3 bincode) in
theorem moved_slashingStep (hs : s.copies.InStep) (event : SlashingEvent) :
    Moved (Misses s event) event.appeals s (slashingStep P sha3 bincode s event).1 ∨
      Rebuilt s (slashingStep P sha3 bincode s event).1 := by
  have hstate : ∀ {α : Type} {m : PipelineM α} {Q : α → SlashingPipeline → Prop},
      Ends m s.1 Q (fun _ p' => Moved False event.appeals s (p',s.2)) →
      (∀ a p', Q a p' → Moved False event.appeals s (p',s.2)) →
      Moved False event.appeals s ((m.exec s.1).2,s.2) := fun h hQ =>
    Ends.state (R := fun p' => Moved False event.appeals s (p',s.2)) (h.imp hQ fun _ _ he => he)
  cases event with
  | ingest fault ev submitter currentBlock currentEpoch offenderStake =>
    exact Or.inl (hstate (moved_ingest hs ev submitter currentBlock currentEpoch offenderStake) fun _ _ h => h.1)
  | tick fault currentBlock =>
    exact Or.inl ((moved_tickFinalize hs).imp (fun _ _ h => h.1) fun _ _ h => h.1).state
  | elect => exact Or.inl .refl
  | fileAppeal fault evidenceId sender sentValueWei currentHeight =>
    exact Or.inl (hstate (moved_fileAppeal hs evidenceId sender sentValueWei currentHeight) fun _ _ h => h.1)
  | overturn fault evidenceId => exact Or.inl (hstate (moved_overturn hs evidenceId) fun _ _ h => h.1)
  | reject evidenceId => exact Or.inl (hstate (moved_rejectAppeal evidenceId) fun _ _ h => h)
  | restart totalValidators => exact Or.inr (rebuilt_restart P sha3 bincode hs totalValidators)

theorem inStep_slashingStep (hs : s.copies.InStep) (event : SlashingEvent) :
    (slashingStep P sha3 bincode s event).1.copies.InStep := by
  rcases moved_slashingStep P sha3 bincode hs event with h | ⟨hstore,hburns,hmemory⟩
  · exact hs.moves h
  · have hrestart := hs.restart hmemory
    unfold SlashingState.copies at hrestart ⊢
    rwa [hstore, hburns]

variable (P sha3 bincode) in
theorem inStep_final (validators : ValidatorSet) (totalValidators : UInt64) (events : List SlashingEvent) :
    (final (slashingStep P sha3 bincode) (.start validators totalValidators) events).copies.InStep := by
  have hstart : (SlashingState.start validators totalValidators).copies.InStep := RecordCopies.inStep_empty
  exact (state_invariant (slashingStep P sha3 bincode) (G := fun _ _ => True)
    (I := fun s : SlashingState => s.copies.InStep) hstart
    (fun _ event hs _ => inStep_slashingStep hs event) events fun _ _ => trivial).2

theorem burntOnce_slashingStep (hs : s.copies.InStep) (event : SlashingEvent) :
    (slashingStep P sha3 bincode s event).1.copies.BurntOnce ↔ s.copies.BurntOnce ∧ ¬ Misses s event := by
  have hgrow : s.2 <+: (slashingStep P sha3 bincode s event).1.2 := by
    rcases moved_slashingStep P sha3 bincode hs event with h | ⟨-,hburns,-⟩
    · exact RecordCopies.burns_moves h
    · exact hburns ▸ List.prefix_refl _
  constructor
  · intro hafter
    refine ⟨hafter.sublist (hgrow.map _).sublist,fun hmisses => ?_⟩
    cases event with
    | tick fault currentBlock =>
      have htick : Reburnt s (slashingStep P sha3 bincode s (.tick fault currentBlock)).1 :=
        ((moved_tickFinalize hs).imp (fun _ _ h => h.2 hmisses) fun _ _ h => h.2 hmisses).state
      exact htick.not_burntOnce hafter
    | ingest | elect | fileAppeal | overturn | reject | restart => exact hmisses
  · rintro ⟨hbefore,hmisses⟩
    rcases moved_slashingStep P sha3 bincode hs event with h | ⟨-,hburns,-⟩
    · exact RecordCopies.burntOnce_moves (RecordCopies.moves_mono hmisses subset_rfl h) hbefore
    · unfold RecordCopies.BurntOnce SlashingState.copies at hbefore ⊢
      rwa [hburns]

end Steps

/-- Each record is burnt at most once, its offender loses no more than its slash, and no
reporter is paid more than one share of it. -/
structure BurnsOnce (s : SlashingState) : Prop where
  once : ∀ id, s.2.countP (fun b => b.recordId = id) ≤ 1
  lost : ∀ id r, s.1.registry.getRecord id = some r → s.burntWei id ≤ r.finalSlashWei
  shares : ∀ id reporter, ((s.2.filter (fun b => b.recordId = id)).flatMap Burn.splits).countP
    (fun split => split.1 = reporter) ≤ 1

theorem nodup_map_iff_countP {α β : Type} [DecidableEq β] {f : α → β} {l : List α} :
    (l.map f).Nodup ↔ ∀ b, l.countP (fun a => f a = b) ≤ 1 := by
  simp only [List.nodup_iff_count_le_one, List.count, List.countP_map, Function.comp_def, beq_eq_decide]

theorem burnsOnce_iff {s : SlashingState} (hs : s.copies.InStep) : BurnsOnce s ↔ s.copies.BurntOnce := by
  refine ⟨fun h => nodup_map_iff_countP.mpr h.once,fun h => ?_⟩
  have honce : ∀ id, s.2.countP (fun b => b.recordId = id) ≤ 1 := nodup_map_iff_countP.mp h
  have hone : ∀ id, s.2.filter (fun b => b.recordId = id) = [] ∨
      ∃ b ∈ s.2, s.2.filter (fun b => b.recordId = id) = [b] ∧ b.recordId = id := by
    intro id
    have hlength := honce id
    rw [List.countP_eq_length_filter] at hlength
    cases hfilter : s.2.filter (fun b => b.recordId = id) with
    | nil => exact Or.inl rfl
    | cons b rest =>
      have hb : b ∈ s.2.filter (fun b => b.recordId = id) := by simp [hfilter]
      simp [hfilter] at hlength
      simp only [List.mem_filter, decide_eq_true_eq] at hb
      exact Or.inr ⟨b,hb.1,by simp [hlength],hb.2⟩
  refine ⟨honce,fun id r hr => ?_,fun id reporter => ?_⟩
  · rcases hone id with hnil | ⟨b,hb,hb',hid⟩
    · simp [SlashingState.burntWei, hnil]
    · obtain ⟨d,hd,-,hfair⟩ := hs.fair b hb
      obtain ⟨r',hr',hsame,-⟩ := hs.copied _ d hd
      obtain rfl : r' = r := Option.some.inj (hr'.symm.trans (by rw [hid]; exact hr))
      rw [SlashingState.burntWei, hb', List.map_singleton, List.sum_singleton, hsame.finalSlashWei, ← hfair.slash]
      exact hfair.lost
  · rcases hone id with hnil | ⟨b,hb,hb',-⟩
    · simp [hnil]
    · obtain ⟨d,-,-,hfair⟩ := hs.fair b hb
      rw [hb', List.flatMap_singleton]
      exact nodup_map_iff_countP.mp hfair.shares reporter

/-- In a run of the pipeline every slash is burnt once if, and only if, no guard misses. -/
theorem burns_once_iff (P : Platform) (sha3 : List UInt8 → H256) (bincode : EquivocationEvidence → List UInt8)
    (validators : ValidatorSet) (totalValidators : UInt64) (events : List SlashingEvent) :
    BurnsOnce (final (slashingStep P sha3 bincode) (.start validators totalValidators) events) ↔
      ∀ e ∈ history (slashingStep P sha3 bincode) (.start validators totalValidators) events,
        ¬ Misses e.before e.call := by
  rw [burnsOnce_iff (inStep_final P sha3 bincode validators totalValidators events)]
  induction events using List.reverseRecOn with
  | nil => simp [RecordCopies.BurntOnce, SlashingState.start, SlashingState.copies]
  | append_singleton events event ih =>
    rw [final_append, final_cons, final_nil,
      burntOnce_slashingStep (inStep_final P sha3 bincode validators totalValidators events), ih]
    simp [history_append, or_imp, forall_and]

/-- Validator 7 waits for its election. -/
def waitingValidators : ValidatorSet :=
  { ValidatorSet.new with
    validators := (∅ : Table Address Validator).insert 7
      { demoValidator 7 .pending with selfStake := 2 * minSelfStake } }

/-- The mark on the record is lost when the slash of the waiting validator is burnt. -/
def doublyBurnt : List SlashingEvent :=
  [.ingest (fun _ => none) doubleVote 8 1 0 (2 * minSelfStake),
    .tick (fun n => if n = 6 then some "disk full" else none) 172802,.elect,.tick (fun _ => none) 172803]

/-- The slash of a validator that is elected after its burn is burnt again. -/
theorem slash_burnt_twice : ¬ ∀ (P : Platform) (sha3 : List UInt8 → H256)
    (bincode : EquivocationEvidence → List UInt8) (validators : ValidatorSet) (totalValidators : UInt64)
    (events : List SlashingEvent),
    BurnsOnce (final (slashingStep P sha3 bincode) (.start validators totalValidators) events) := by
  intro h
  have honce := (h .integers Platform.integers.keccak256 (fun _ => []) waitingValidators 100 doublyBurnt).once
  have htwice : ¬ ((final (slashingStep .integers Platform.integers.keccak256 (fun _ => []))
      (.start waitingValidators 100) doublyBurnt).2.map Burn.recordId).Nodup := by decide +kernel
  exact htwice (nodup_map_iff_countP.mpr honce)

end Burns

variable {P : Platform} {sha3 : List UInt8 → H256} {bincode : EquivocationEvidence → List UInt8}

abbrev SlashingEntry := Entry SlashingState SlashingEvent SlashingAnswer

def Appealed (id : H256) (e : SlashingEntry) : Prop :=
  ∃ fault sender sentValueWei currentHeight gas,
    e.call = .fileAppeal fault id sender sentValueWei currentHeight ∧ e.output = .appealed (.ok gas)

def overturnOf (id : H256) (e : SlashingEntry) : Option AppliedOverturn :=
  match e.call,e.output with
  | .overturn _ evidenceId,.overturned (.ok a) => if evidenceId = id then some a else none
  | _,_ => none

/-- The record is under appeal on disk, or overturned. -/
def Halted (id : H256) (s : SlashingState) : Prop :=
  ∃ d, s.1.store.records.lookup id = some d ∧ (d.status = .appealed ∨ d.status = .overturned)

def OverturnedOnDisk (id : H256) (s : SlashingState) : Prop :=
  ∃ d, s.1.store.records.lookup id = some d ∧ d.status = .overturned

section Steps
variable {s : SlashingState} {event : SlashingEvent} {id : H256}

theorem halted_slashingStep (hs : s.copies.InStep) (h : Halted id s) :
    Halted id (slashingStep P sha3 bincode s event).1 := by
  obtain ⟨d,hd,hhalted⟩ := h
  rcases moved_slashingStep P sha3 bincode hs event with hmoved | ⟨hstore,-,-⟩
  · obtain ⟨d',hd',hhalted',-⟩ := hs.appealed_moves hmoved hd hhalted
    exact ⟨d',hd',hhalted'⟩
  · exact ⟨d,by rw [hstore]; exact hd,hhalted⟩

theorem overturned_slashingStep (hs : s.copies.InStep) (h : OverturnedOnDisk id s) :
    OverturnedOnDisk id (slashingStep P sha3 bincode s event).1 := by
  obtain ⟨d,hd,hover⟩ := h
  rcases moved_slashingStep P sha3 bincode hs event with hmoved | ⟨hstore,-,-⟩
  · obtain ⟨d',hd',-,hover'⟩ := hs.appealed_moves hmoved hd (Or.inr hover)
    exact ⟨d',hd',hover' hover⟩
  · exact ⟨d,by rw [hstore]; exact hd,hover⟩

theorem Halted.not_burnt (h : Halted id s) (hs : s.copies.InStep) : ¬ s.copies.Burnt id := by
  obtain ⟨d,hd,hhalted⟩ := h
  rw [hs.burnt_iff]
  rintro ⟨d',hd',hconfirmed⟩
  obtain rfl : d' = d := Option.some.inj (hd'.symm.trans hd)
  simp [hconfirmed] at hhalted

theorem burntWei_of_not_burnt (h : ¬ s.copies.Burnt id) : s.burntWei id = 0 := by
  have hnone : s.2.filter (fun b => b.recordId = id) = [] := by
    rw [List.filter_eq_nil_iff]
    intro b hb hid
    exact h ⟨b,hb,by simpa using hid⟩
  simp [SlashingState.burntWei, hnone]

theorem halted_of_appealed (hs : s.copies.InStep)
    (h : Appealed id ⟨s,event,(slashingStep P sha3 bincode s event).2⟩) :
    Halted id (slashingStep P sha3 bincode s event).1 := by
  obtain ⟨fault,sender,sentValueWei,currentHeight,gas,hcall,houtput⟩ := h
  dsimp only at hcall houtput
  subst hcall
  unfold slashingStep at houtput ⊢
  dsimp only at houtput ⊢
  rcases hrun : (dispatchFileAppealTx fault id sender sentValueWei currentHeight).exec s.1 with ⟨e | gas',p⟩
  · simp [hrun] at houtput
  · obtain ⟨d,hd,happealed⟩ := ((moved_fileAppeal hs id sender sentValueWei currentHeight).of_ok hrun).2
    exact ⟨d,hd,Or.inl happealed⟩

theorem overturned_of_overturn {a : AppliedOverturn} (hs : s.copies.InStep)
    (h : overturnOf id ⟨s,event,(slashingStep P sha3 bincode s event).2⟩ = some a) :
    (a.refundedWei = 0 ∧ ∃ r, s.1.registry.getRecord id = some r ∧ r.status = .appealed) ∧
      OverturnedOnDisk id (slashingStep P sha3 bincode s event).1 := by
  cases event with
  | overturn fault evidenceId =>
    unfold slashingStep at h ⊢
    dsimp only [overturnOf] at h ⊢
    rcases hrun : (overturnAndRefund fault evidenceId).exec s.1 with ⟨e | a',p⟩
    · simp [hrun] at h
    · simp only [hrun, Option.ite_none_right_eq_some, Option.some.injEq] at h
      obtain ⟨rfl,rfl⟩ := h
      obtain ⟨-,-,hrefunded,happealed,hover⟩ := (moved_overturn hs evidenceId).of_ok hrun
      exact ⟨⟨hrefunded,happealed⟩,hover⟩
  | ingest | tick | elect | fileAppeal | reject | restart => cases h

end Steps

structure AppealsHold (past : List SlashingEntry) (s : SlashingState) : Prop where
  inStep : s.copies.InStep
  appealed : ∀ id, (∃ e ∈ past, Appealed id e) → Halted id s
  once : ∀ id, past.countP (fun e => (overturnOf id e).isSome) ≤ 1
  overturned : ∀ id, (∃ e ∈ past, (overturnOf id e).isSome) → OverturnedOnDisk id s
  refunds : ∀ id, ∀ e ∈ past, ∀ a, overturnOf id e = some a → a.refundedWei = e.before.burntWei id

theorem appealsHold_start (validators : ValidatorSet) (totalValidators : UInt64) :
    AppealsHold [] (.start validators totalValidators) where
  inStep := RecordCopies.inStep_empty
  appealed := by simp
  once := by simp
  overturned := by simp
  refunds := by simp

theorem AppealsHold.step {past : List SlashingEntry} {s : SlashingState} (h : AppealsHold past s)
    (event : SlashingEvent) :
    AppealsHold (past ++ [⟨s,event,(slashingStep P sha3 bincode s event).2⟩])
      (slashingStep P sha3 bincode s event).1 where
  inStep := inStep_slashingStep h.inStep event
  appealed id := by
    rintro ⟨e,he,happealed⟩
    rcases List.mem_append.mp he with he | he
    · exact halted_slashingStep h.inStep (h.appealed id ⟨e,he,happealed⟩)
    · obtain rfl := List.mem_singleton.mp he
      exact halted_of_appealed h.inStep happealed
  once id := by
    rw [List.countP_append, List.countP_singleton]
    split
    · rename_i hnow
      obtain ⟨a,ha⟩ := Option.isSome_iff_exists.mp hnow
      obtain ⟨⟨-,r,hr,happealed⟩,-⟩ := overturned_of_overturn h.inStep ha
      -- it was under appeal, so it had not been overturned
      have hnone : past.countP (fun e => (overturnOf id e).isSome) = 0 := by
        rw [List.countP_eq_zero]
        intro e he hbefore
        obtain ⟨d,hd,hover⟩ := h.overturned id ⟨e,he,hbefore⟩
        obtain ⟨r',hr',-,htrails⟩ := h.inStep.copied id d hd
        obtain rfl : r' = r := Option.some.inj (hr'.symm.trans hr)
        rw [hover] at htrails
        simp [htrails.of_overturned] at happealed
      omega
    · exact h.once id
  overturned id := by
    rintro ⟨e,he,hover⟩
    rcases List.mem_append.mp he with he | he
    · exact overturned_slashingStep h.inStep (h.overturned id ⟨e,he,hover⟩)
    · obtain rfl := List.mem_singleton.mp he
      obtain ⟨a,ha⟩ := Option.isSome_iff_exists.mp hover
      exact (overturned_of_overturn h.inStep ha).2
  refunds id e he a ha := by
    rcases List.mem_append.mp he with he | he
    · exact h.refunds id e he a ha
    · obtain rfl := List.mem_singleton.mp he
      obtain ⟨⟨hrefunded,r,hr,happealed⟩,-⟩ := overturned_of_overturn h.inStep ha
      have hkept : ¬ s.copies.Burnt id := fun hburnt => by
        simp [h.inStep.confirmed_of_burnt hburnt hr] at happealed
      rw [hrefunded, burntWei_of_not_burnt hkept]

/-- A record whose appeal is accepted is never burnt. No record is overturned twice, and what
an overturn refunds is what was burnt. -/
theorem appeal_stops_burn (P : Platform) (sha3 : List UInt8 → H256) (bincode : EquivocationEvidence → List UInt8)
    (validators : ValidatorSet) (totalValidators : UInt64) (events : List SlashingEvent) (id : H256) :
    ((∃ e ∈ history (slashingStep P sha3 bincode) (.start validators totalValidators) events, Appealed id e) →
      ∀ b ∈ (final (slashingStep P sha3 bincode) (.start validators totalValidators) events).2,
        b.recordId ≠ id) ∧
    (history (slashingStep P sha3 bincode) (.start validators totalValidators) events).countP
      (fun e => (overturnOf id e).isSome) ≤ 1 ∧
    ∀ e ∈ history (slashingStep P sha3 bincode) (.start validators totalValidators) events, ∀ a,
      overturnOf id e = some a → a.refundedWei = e.before.burntWei id := by
  have hrun : AppealsHold (history (slashingStep P sha3 bincode) (.start validators totalValidators) events)
      (final (slashingStep P sha3 bincode) (.start validators totalValidators) events) :=
    trace_invariant (slashingStep P sha3 bincode) (G := fun _ _ => True) (J := AppealsHold)
      (appealsHold_start validators totalValidators)
      (fun past s event h _ => h.step event) events fun _ _ => trivial
  exact ⟨fun happealed b hb hid => (hrun.appealed id happealed).not_burnt hrun.inStep ⟨b,hb,hid⟩,
    hrun.once id,hrun.refunds id⟩

end ZbxChain.Staking
