import ZbxChain.Foundation.Machine
import ZbxChain.Consensus.EpochManager

/-! # Runs of the epoch manager

A chain commits its blocks one after the other from block 1 on; new candidates come in at
any time between.
-/
namespace ZbxChain.EpochManager

inductive Call where
  | updateCandidates (candidates : List ValidatorEntry)
  | onBlockCommitted (blockNumber : UInt64) (stateRoot : H256)

def step (P : Platform) (m : EpochManager) : Call → EpochManager × Option EpochEvent
  | .updateCandidates candidates => (m.updateCandidates candidates,none)
  | .onBlockCommitted blockNumber stateRoot =>
    ((m.onBlockCommitted P blockNumber stateRoot).1,
      some (m.onBlockCommitted P blockNumber stateRoot).2)

def Call.blockNumber : Call → Option ℕ
  | .updateCandidates _ => none
  | .onBlockCommitted n _ => some n.toNat

def blockNumbers (calls : List Call) : List ℕ := calls.filterMap Call.blockNumber

def Consecutive (calls : List Call) : Prop :=
  blockNumbers calls = List.range' 1 (blockNumbers calls).length

/-- A rotation finds a candidate with the minimum stake or none at all, and the epoch that
it opens ends within 64 bits; an epoch without blocks is never entered. -/
def Rotatable (m : EpochManager) : Call → Prop
  | .updateCandidates _ => True
  | .onBlockCommitted n _ =>
    0 < m.epochLength.toNat ∧
      (m.current.isLastBlock n = true →
        (m.pendingCandidates = [] ∨ ∃ v ∈ m.pendingCandidates, MIN_VALIDATOR_STAKE ≤ v.stakeWei) ∧
          (m.current.epoch.toNat + 1) * m.epochLength.toNat < 2 ^ 64)

instance (m : EpochManager) (call : Call) : Decidable (Rotatable m call) :=
  match call with
  | .updateCandidates _ => isTrue trivial
  | .onBlockCommitted _ _ => inferInstanceAs (Decidable (_ ∧ _))

structure ValidSet (validators : List ValidatorEntry) : Prop where
  nonempty : validators ≠ []
  atMost : validators.length ≤ MAX_VALIDATORS
  sorted : validators.Pairwise (fun v w => w.stake ≤ v.stake)
  staked : ∀ v ∈ validators, MIN_VALIDATOR_STAKE ≤ v.stakeWei

/-- Epoch `e` is made of the blocks from `(e - 1) * length + 1` to `e * length`. -/
structure Spans (length : ℕ) (s : EpochState) : Prop where
  first : 1 ≤ s.epoch.toNat
  start : s.startBlock.toNat = (s.epoch.toNat - 1) * length + 1
  stop : s.endBlock.toNat = s.epoch.toNat * length

variable {P : Platform} {epochLength : UInt64}

theorem validSet_new {epoch : UInt64} {candidates : List ValidatorEntry} {root : H256}
    (hne : candidates ≠ []) (hstaked : ∀ v ∈ candidates, MIN_VALIDATOR_STAKE ≤ v.stakeWei) :
    ValidSet (EpochState.new P epoch epochLength candidates root).validators where
  nonempty := by
    intro hnil
    have hlen := congrArg List.length hnil
    have hpos := List.length_pos_iff.mpr hne
    simp only [EpochState.new, List.length_take, (StableSort.sortDesc_perm candidates).length_eq,
      List.length_nil, MAX_VALIDATORS] at hlen
    omega
  atMost := List.length_take_le _ _
  sorted := (StableSort.sortDesc_pairwise candidates).sublist (List.take_sublist _ _)
  staked := by
    intro v hv
    exact hstaked v ((StableSort.sortDesc_perm candidates).mem_iff.mp (List.mem_of_mem_take hv))

theorem spans_new {epoch : UInt64} {candidates : List ValidatorEntry} {root : H256}
    (hepoch : 1 ≤ epoch.toNat) (hfits : epoch.toNat * epochLength.toNat < 2 ^ 64) :
    Spans epochLength.toNat (EpochState.new P epoch epochLength candidates root) where
  first := hepoch
  start := by
    have hone : (1 : UInt64).toNat = 1 := rfl
    have hprev : (epoch - 1).toNat = epoch.toNat - 1 :=
      UInt64.toNat_sub_of_le _ _ (UInt64.le_iff_toNat_le.mpr hepoch)
    have hlen : epochLength.toNat < 2 ^ 64 := epochLength.toNat_lt
    obtain ⟨e,he⟩ : ∃ e, epoch.toNat = e + 1 := ⟨epoch.toNat - 1,by omega⟩
    rw [he, Nat.succ_mul] at hfits
    change ((epoch - 1) * epochLength + 1).toNat = (epoch.toNat - 1) * epochLength.toNat + 1
    have hproduct : e * epochLength.toNat < 2 ^ 64 := by omega
    have hsum : e * epochLength.toNat + 1 < 2 ^ 64 := by
      rcases Nat.eq_zero_or_pos epochLength.toNat with hzero | hpos
      · rw [hzero, Nat.mul_zero]
        decide
      · omega
    rw [UInt64.toNat_add, UInt64.toNat_mul, hprev, hone, he, Nat.add_sub_cancel,
      Nat.mod_eq_of_lt hproduct, Nat.mod_eq_of_lt hsum]
  stop := by
    change (epoch * epochLength).toNat = epoch.toNat * epochLength.toNat
    rw [UInt64.toNat_mul]
    exact Nat.mod_eq_of_lt hfits

theorem candidates_ne_nil_iff {m : EpochManager} (hcurrent : m.current.validators ≠ []) :
    m.candidates ≠ [] ↔
      m.pendingCandidates = [] ∨ ∃ v ∈ m.pendingCandidates, MIN_VALIDATOR_STAKE ≤ v.stakeWei := by
  unfold candidates
  by_cases hpending : m.pendingCandidates = []
  · rw [hpending]
    exact iff_of_true hcurrent (Or.inl rfl)
  · have hnot : ¬ m.pendingCandidates.isEmpty = true := by simpa using hpending
    rw [if_neg hnot, or_iff_right hpending, ne_eq, List.filter_eq_nil_iff]
    simp only [decide_eq_true_eq, not_forall, not_not, exists_prop]

theorem candidates_staked {m : EpochManager} (hcurrent : ValidSet m.current.validators) :
    ∀ v ∈ m.candidates, MIN_VALIDATOR_STAKE ≤ v.stakeWei := by
  intro v hv
  unfold candidates at hv
  split at hv
  · exact hcurrent.staked v hv
  · exact of_decide_eq_true (List.mem_filter.mp hv).2

open Machine

abbrev Logged := Entry EpochManager Call (Option EpochEvent)

/-- What holds after a run: in every state met the validators are a valid set, each block was
committed in the epoch that spans it, all epochs up to the current one are on record and
follow on one another, and each is recorded as the state that was current during it. -/
structure EpochsKept (length : ℕ) (past : List Logged)
    (m : EpochManager) : Prop where
  valid : ValidSet m.current.validators
  validBefore : ∀ e ∈ past, ValidSet e.before.current.validators
  spans : Spans length m.current
  covered : ∀ e ∈ past, ∀ n root, e.call = .onBlockCommitted n root →
    e.before.current.startBlock ≤ n ∧ n ≤ e.before.current.endBlock
  onRecord : ∀ epoch : UInt64, 1 ≤ epoch → epoch ≤ m.current.epoch →
    ∃ s, m.epochState epoch = some s ∧ s.epoch = epoch ∧ Spans length s
  recorded : ∀ e ∈ past, m.epochState e.before.current.epoch = some e.before.current

structure Inv (epochLength : UInt64) (past : List Logged)
    (m : EpochManager) : Prop extends EpochsKept epochLength.toNat past m where
  length_eq : m.epochLength = epochLength
  started : m.current.startBlock.toNat ≤ (blockNumbers (past.map Entry.call)).length + 1
  unfinished : 0 < epochLength.toNat →
    (blockNumbers (past.map Entry.call)).length + 1 ≤ m.current.endBlock.toNat
  pastEpochs : ∀ e ∈ past, e.before.current.epoch ≤ m.current.epoch

theorem inv_new {genesis : List ValidatorEntry} (hne : genesis ≠ [])
    (hstaked : ∀ v ∈ genesis, MIN_VALIDATOR_STAKE ≤ v.stakeWei) :
    Inv epochLength [] (EpochManager.new P genesis epochLength) := by
  have hfits : (1 : UInt64).toNat * epochLength.toNat < 2 ^ 64 := by
    have hone : (1 : UInt64).toNat = 1 := rfl
    rw [hone, Nat.one_mul]
    exact epochLength.toNat_lt
  have hspans : Spans epochLength.toNat (EpochManager.new P genesis epochLength).current :=
    spans_new (le_refl _) hfits
  refine ⟨⟨validSet_new hne hstaked,?_,hspans,?_,?_,?_⟩,rfl,?_,?_,?_⟩
  · intro e he
    cases he
  · intro e he
    cases he
  · intro epoch hone hle
    have heq : epoch = 1 := UInt64.le_antisymm hle hone
    refine ⟨(EpochManager.new P genesis epochLength).current,?_,heq.symm,hspans⟩
    rw [heq]
    rfl
  · intro e he
    cases he
  · rw [hspans.start]
    change (1 - 1) * epochLength.toNat + 1 ≤ 0 + 1
    rw [Nat.sub_self, Nat.zero_mul]
  · intro hpos
    rw [hspans.stop]
    change 1 ≤ 1 * epochLength.toNat
    omega
  · intro e he
    cases he

section Step

variable {m : EpochManager} {root : H256} {past : List Logged}
  {out : Option EpochEvent}

theorem rotate_current : (m.rotate P root).1.current =
    EpochState.new P (m.current.epoch + 1) m.epochLength m.candidates root := rfl

theorem epochState_rotate {epoch : UInt64} (hnext : epoch ≠ m.current.epoch + 1) :
    (m.rotate P root).1.epochState epoch = m.epochState epoch := by
  have hlook : (m.rotate P root).1.epochState epoch =
      (m.history.insert m.current.epoch m.current).lookup epoch := if_neg hnext
  rw [hlook, epochState]
  by_cases hcurrent : epoch = m.current.epoch
  · rw [if_pos hcurrent, hcurrent, AList.lookup_insert]
  · rw [if_neg hcurrent, AList.lookup_insert_ne hcurrent]

theorem length_blockNumbers {n : UInt64} :
    (blockNumbers ((past ++ [(⟨m,.onBlockCommitted n root,out⟩ : Logged)]).map Entry.call)).length =
      (blockNumbers (past.map Entry.call)).length + 1 := by
  rw [List.map_append, blockNumbers, List.filterMap_append, List.length_append]
  rfl

theorem inv_updateCandidates {candidates : List ValidatorEntry} (h : Inv epochLength past m) :
    Inv epochLength (past ++ [⟨m,.updateCandidates candidates,out⟩])
      (m.updateCandidates candidates) := by
  have hblocks : blockNumbers ((past ++ [(⟨m,.updateCandidates candidates,out⟩ : Logged)]).map Entry.call) =
      blockNumbers (past.map Entry.call) := by
    rw [List.map_append, blockNumbers, List.filterMap_append]
    exact List.append_nil _
  refine ⟨⟨h.valid,?_,h.spans,?_,h.onRecord,?_⟩,h.length_eq,?_,?_,?_⟩
  · exact List.forall_mem_append.mpr ⟨h.validBefore,List.forall_mem_singleton.mpr h.valid⟩
  · refine List.forall_mem_append.mpr ⟨h.covered,List.forall_mem_singleton.mpr ?_⟩
    intro n root hcall
    cases hcall
  · exact List.forall_mem_append.mpr ⟨h.recorded,List.forall_mem_singleton.mpr (if_pos rfl)⟩
  · rw [hblocks]
    exact h.started
  · rw [hblocks]
    exact h.unfinished
  · exact List.forall_mem_append.mpr ⟨h.pastEpochs,List.forall_mem_singleton.mpr (UInt64.le_refl _)⟩

theorem inv_blockProcessed {n : UInt64} (h : Inv epochLength past m)
    (hpos : 0 < epochLength.toNat)
    (hnumber : n.toNat = (blockNumbers (past.map Entry.call)).length + 1)
    (hlast : m.current.isLastBlock n = false) :
    Inv epochLength (past ++ [⟨m,.onBlockCommitted n root,out⟩]) m := by
  have hstart := h.started
  have hstop := h.unfinished hpos
  have hne : n.toNat ≠ m.current.endBlock.toNat := by
    intro heq
    have hbeq : (n == m.current.endBlock) = false := hlast
    rw [UInt64.toNat_inj.mp heq, beq_self_eq_true] at hbeq
    cases hbeq
  have hge : m.current.startBlock ≤ n := UInt64.le_iff_toNat_le.mpr (hnumber ▸ hstart)
  have hle : n ≤ m.current.endBlock := UInt64.le_iff_toNat_le.mpr (hnumber ▸ hstop)
  refine ⟨⟨h.valid,?_,h.spans,?_,h.onRecord,?_⟩,h.length_eq,?_,?_,?_⟩
  · exact List.forall_mem_append.mpr ⟨h.validBefore,List.forall_mem_singleton.mpr h.valid⟩
  · refine List.forall_mem_append.mpr ⟨h.covered,List.forall_mem_singleton.mpr ?_⟩
    intro n' root' hcall
    cases hcall
    exact ⟨hge,hle⟩
  · exact List.forall_mem_append.mpr ⟨h.recorded,List.forall_mem_singleton.mpr (if_pos rfl)⟩
  · rw [length_blockNumbers]
    omega
  · intro _
    rw [length_blockNumbers]
    omega
  · exact List.forall_mem_append.mpr ⟨h.pastEpochs,List.forall_mem_singleton.mpr (UInt64.le_refl _)⟩

theorem inv_rotate {n : UInt64} (h : Inv epochLength past m) (hpos : 0 < epochLength.toNat)
    (hnumber : n.toNat = (blockNumbers (past.map Entry.call)).length + 1)
    (hlast : m.current.isLastBlock n = true)
    (hsome : m.pendingCandidates = [] ∨ ∃ v ∈ m.pendingCandidates, MIN_VALIDATOR_STAKE ≤ v.stakeWei)
    (hfits : (m.current.epoch.toNat + 1) * epochLength.toNat < 2 ^ 64) :
    Inv epochLength (past ++ [⟨m,.onBlockCommitted n root,out⟩]) (m.rotate P root).1 := by
  have hstart := h.started
  have hend : n = m.current.endBlock := eq_of_beq hlast
  have hstop : m.current.endBlock.toNat = (blockNumbers (past.map Entry.call)).length + 1 :=
    hend ▸ hnumber
  have hepoch : (m.current.epoch + 1).toNat = m.current.epoch.toNat + 1 := by
    apply toNat_add_one
    exact lt_of_le_of_lt (Nat.le_mul_of_pos_right _ hpos) hfits
  have hlater : m.current.epoch < m.current.epoch + 1 :=
    UInt64.lt_iff_toNat_lt.mpr (hepoch ▸ Nat.lt_succ_self _)
  have hvalid : ValidSet (m.rotate P root).1.current.validators :=
    validSet_new ((candidates_ne_nil_iff h.valid.nonempty).mpr hsome) (candidates_staked h.valid)
  have hspans : Spans epochLength.toNat (m.rotate P root).1.current := by
    rw [rotate_current, h.length_eq]
    exact spans_new (by omega) (hepoch ▸ hfits)
  have hnext : (m.rotate P root).1.current.epoch = m.current.epoch + 1 := rfl
  -- the epochs up to the old one are all different from the new one
  have hkeep : ∀ epoch, epoch ≤ m.current.epoch →
      (m.rotate P root).1.epochState epoch = m.epochState epoch := by
    intro epoch hle
    apply epochState_rotate
    exact UInt64.ne_of_lt (UInt64.lt_of_le_of_lt hle hlater)
  have hspan := h.spans.stop
  have hge : m.current.startBlock ≤ n := UInt64.le_iff_toNat_le.mpr (hnumber ▸ hstart)
  refine ⟨⟨hvalid,?_,hspans,?_,?_,?_⟩,h.length_eq,?_,?_,?_⟩
  · exact List.forall_mem_append.mpr ⟨h.validBefore,List.forall_mem_singleton.mpr h.valid⟩
  · refine List.forall_mem_append.mpr ⟨h.covered,List.forall_mem_singleton.mpr ?_⟩
    intro n' root' hcall
    cases hcall
    exact ⟨hge,hend ▸ UInt64.le_refl _⟩
  · intro epoch hone hle
    by_cases hold : epoch ≤ m.current.epoch
    · rw [hkeep epoch hold]
      exact h.onRecord epoch hone hold
    · have heq : epoch = (m.rotate P root).1.current.epoch := by
        rw [hnext] at hle ⊢
        have hgt := UInt64.lt_iff_toNat_lt.mp (UInt64.not_le.mp hold)
        have hle' := UInt64.le_iff_toNat_le.mp hle
        rw [hepoch] at hle'
        exact UInt64.toNat_inj.mp (by omega)
      exact ⟨(m.rotate P root).1.current,if_pos heq,heq.symm,hspans⟩
  · refine List.forall_mem_append.mpr ⟨?_,List.forall_mem_singleton.mpr ?_⟩
    · intro e he
      rw [hkeep _ (h.pastEpochs e he)]
      exact h.recorded e he
    · rw [hkeep _ (UInt64.le_refl _)]
      exact if_pos rfl
  · rw [hspans.start, hnext, hepoch, Nat.add_sub_cancel, ← hspan, hstop, length_blockNumbers]
  · intro _
    rw [hspans.stop, hnext, hepoch, Nat.succ_mul, ← hspan, hstop, length_blockNumbers]
    exact Nat.add_le_add_left hpos _
  · refine List.forall_mem_append.mpr ⟨?_,List.forall_mem_singleton.mpr (UInt64.le_of_lt hlater)⟩
    intro e he
    exact UInt64.le_trans (h.pastEpochs e he) (UInt64.le_of_lt hlater)

end Step

theorem Consecutive.of_append {xs ys : List Call} (h : Consecutive (xs ++ ys)) : Consecutive xs := by
  have hsplit : blockNumbers (xs ++ ys) = blockNumbers xs ++ blockNumbers ys :=
    List.filterMap_append
  rw [Consecutive, hsplit, List.length_append, ← List.range'_append_1] at h
  exact (List.append_inj h (by rw [List.length_range'])).1

theorem Consecutive.last {calls : List Call} {n : UInt64} {root : H256}
    (h : Consecutive (calls ++ [.onBlockCommitted n root])) :
    n.toNat = (blockNumbers calls).length + 1 := by
  have hsplit : blockNumbers (calls ++ [.onBlockCommitted n root]) =
      blockNumbers calls ++ [n.toNat] := List.filterMap_append
  rw [Consecutive, hsplit, List.length_append, List.length_singleton, List.range'_1_concat] at h
  rw [(List.cons.inj (List.append_inj' h rfl).2).1, Nat.add_comm]

theorem inv_run {genesis : List ValidatorEntry} (hne : genesis ≠ [])
    (hstaked : ∀ v ∈ genesis, MIN_VALIDATOR_STAKE ≤ v.stakeWei) (calls : List Call)
    (hok : ∀ e ∈ Machine.history (step P) (EpochManager.new P genesis epochLength) calls,
      Rotatable e.before e.call) :
    Consecutive ((Machine.history (step P) (EpochManager.new P genesis epochLength) calls).map Entry.call) →
      Inv epochLength (Machine.history (step P) (EpochManager.new P genesis epochLength) calls)
        (Machine.final (step P) (EpochManager.new P genesis epochLength) calls) := by
  refine Machine.trace_invariant (step P) (G := Rotatable)
    (J := fun past m => Consecutive (past.map Entry.call) → Inv epochLength past m)
    (fun _ => inv_new hne hstaked) ?_ calls hok
  intro past m call hpast hcall hconsecutive
  rw [List.map_append, List.map_singleton] at hconsecutive
  have hinv := hpast hconsecutive.of_append
  cases call with
  | updateCandidates candidates => exact inv_updateCandidates hinv
  | onBlockCommitted n root =>
    have hnumber := hconsecutive.last
    obtain ⟨hpos,hrotate⟩ := hcall
    rw [hinv.length_eq] at hpos hrotate
    cases hlast : m.current.isLastBlock n with
    | true =>
      obtain ⟨hsome,hfits⟩ := hrotate hlast
      have hstep : (m.onBlockCommitted P n root).1 = (m.rotate P root).1 := by
        rw [onBlockCommitted, if_pos hlast]
      dsimp only [step]
      rw [hstep]
      exact inv_rotate hinv hpos hnumber hlast hsome hfits
    | false =>
      have hstep : (m.onBlockCommitted P n root).1 = m := by
        rw [onBlockCommitted, if_neg (by rw [hlast]; exact Bool.false_ne_true)]
      dsimp only [step]
      rw [hstep]
      exact inv_blockProcessed hinv hpos hnumber hlast

theorem epochs_kept {genesis : List ValidatorEntry} (hne : genesis ≠ [])
    (hstaked : ∀ v ∈ genesis, MIN_VALIDATOR_STAKE ≤ v.stakeWei) {calls : List Call}
    (hconsecutive : Consecutive calls)
    (hok : ∀ e ∈ Machine.history (step P) (EpochManager.new P genesis epochLength) calls,
      Rotatable e.before e.call) :
    EpochsKept epochLength.toNat (Machine.history (step P) (EpochManager.new P genesis epochLength) calls)
      (Machine.final (step P) (EpochManager.new P genesis epochLength) calls) := by
  refine (inv_run hne hstaked calls hok ?_).toEpochsKept
  rw [map_call]
  exact hconsecutive

theorem epochLength_final (m : EpochManager) (calls : List Call) :
    (Machine.final (step P) m calls).epochLength = m.epochLength := by
  induction calls generalizing m with
  | nil => rfl
  | cons call calls ih =>
    rw [final_cons, ih]
    cases call with
    | updateCandidates candidates => rfl
    | onBlockCommitted n root =>
      change (m.onBlockCommitted P n root).1.epochLength = m.epochLength
      unfold onBlockCommitted
      split
      · rfl
      · rfl

theorem rotatable_of_rotate {m : EpochManager} {root : H256} (hcurrent : ValidSet m.current.validators)
    (hvalid : ValidSet (m.rotate P root).1.current.validators)
    (hspans : Spans m.epochLength.toNat (m.rotate P root).1.current) :
    (m.pendingCandidates = [] ∨ ∃ v ∈ m.pendingCandidates, MIN_VALIDATOR_STAKE ≤ v.stakeWei) ∧
      (m.current.epoch.toNat + 1) * m.epochLength.toNat < 2 ^ 64 := by
  constructor
  · apply (candidates_ne_nil_iff hcurrent.nonempty).mp
    intro hnil
    apply hvalid.nonempty
    rw [rotate_current, hnil]
    rfl
  · have hfirst := hspans.first
    have hstop := hspans.stop
    have hbound := (m.rotate P root).1.current.endBlock.toNat_lt
    have hepoch : (m.rotate P root).1.current.epoch.toNat = (m.current.epoch.toNat + 1) % 2 ^ 64 :=
      UInt64.toNat_add m.current.epoch 1
    have hlt := m.current.epoch.toNat_lt
    have hnext : (m.current.epoch.toNat + 1) % 2 ^ 64 = m.current.epoch.toNat + 1 := by omega
    rw [hepoch, hnext] at hstop
    rw [← hstop]
    exact hbound

/-- The epochs are kept along an ordered run exactly when every rotation of it is possible. -/
theorem epochs_kept_iff {genesis : List ValidatorEntry} (hne : genesis ≠ [])
    (hstaked : ∀ v ∈ genesis, MIN_VALIDATOR_STAKE ≤ v.stakeWei) {calls : List Call}
    (hconsecutive : Consecutive calls) :
    (∀ xs, xs <+: calls → EpochsKept epochLength.toNat
        (Machine.history (step P) (EpochManager.new P genesis epochLength) xs)
        (Machine.final (step P) (EpochManager.new P genesis epochLength) xs)) ↔
      ∀ e ∈ Machine.history (step P) (EpochManager.new P genesis epochLength) calls,
        Rotatable e.before e.call := by
  constructor
  · intro hkept e he
    obtain ⟨xs,ys,hsplit,hbefore⟩ := history_split _ he
    have hfront := hkept xs ⟨_,hsplit.symm⟩
    have hlater := hkept (xs ++ [e.call]) ⟨ys,by rw [hsplit, List.append_assoc]; rfl⟩
    rw [final_append, ← hbefore, history_append, ← hbefore] at hlater
    rw [← hbefore] at hfront
    have hlength : e.before.epochLength = epochLength := by
      rw [hbefore, epochLength_final]
      rfl
    cases hcall : e.call with
    | updateCandidates candidates => trivial
    | onBlockCommitted n root =>
      rw [hcall] at hlater
      obtain ⟨hstart,hstop⟩ := hlater.covered ⟨e.before,.onBlockCommitted n root,_⟩
        (List.mem_append_right _ (List.mem_singleton_self _)) n root rfl
      refine ⟨?_,?_⟩
      · -- an epoch of length 0 ends before it starts
        rw [hlength]
        by_contra hzero
        have hends := hfront.spans.stop
        have hstarts := hfront.spans.start
        have hle := UInt64.le_iff_toNat_le.mp (UInt64.le_trans hstart hstop)
        rw [hends, hstarts, Nat.eq_zero_of_not_pos hzero, Nat.mul_zero, Nat.mul_zero] at hle
        exact absurd hle (by decide)
      · intro hlast
        have hstep : Machine.final (step P) e.before [.onBlockCommitted n root] =
            (e.before.rotate P root).1 := by
          change (e.before.onBlockCommitted P n root).1 = _
          rw [onBlockCommitted, if_pos hlast]
        rw [hstep] at hlater
        have hspans := hlater.spans
        rw [← hlength] at hspans
        exact rotatable_of_rotate hfront.valid hlater.valid hspans
  · rintro hok xs ⟨ys,rfl⟩
    have hordered : Consecutive xs := hconsecutive.of_append
    apply epochs_kept hne hstaked hordered
    intro e he
    apply hok e
    rw [history_append]
    exact List.mem_append_left _ he

section TwoEpochs

/-- Two epochs of two blocks, with new candidates for the second. -/
theorem epochs_kept_two_epochs :
    EpochsKept (UInt64.toNat 2)
      (Machine.history (step Platform.integers)
        (EpochManager.new Platform.integers [demoValidator 9 MIN_VALIDATOR_STAKE] 2)
        [.onBlockCommitted 1 0,
          .updateCandidates [demoValidator 1 5,demoValidator 2 MIN_VALIDATOR_STAKE],
          .onBlockCommitted 2 0,.onBlockCommitted 3 0])
      (Machine.final (step Platform.integers)
        (EpochManager.new Platform.integers [demoValidator 9 MIN_VALIDATOR_STAKE] 2)
        [.onBlockCommitted 1 0,
          .updateCandidates [demoValidator 1 5,demoValidator 2 MIN_VALIDATOR_STAKE],
          .onBlockCommitted 2 0,.onBlockCommitted 3 0]) := by
  refine (epochs_kept_iff (P := Platform.integers) (List.cons_ne_nil _ _) ?_ ?_).mpr ?_ _
    (List.prefix_refl _)
  · decide
  · rfl
  · decide

/-- One candidate with too little stake: the next epoch has no validators. -/
theorem poor_candidate_empties_the_set :
    ¬ ∀ (P : Platform) (genesis : List ValidatorEntry) (epochLength : UInt64) (calls : List Call),
      genesis ≠ [] → genesis.length ≤ MAX_VALIDATORS →
      (genesis.map ValidatorEntry.address).Nodup →
      (∀ v ∈ genesis, MIN_VALIDATOR_STAKE ≤ v.stakeWei) → 0 < epochLength → Consecutive calls →
      (∀ candidates, .updateCandidates candidates ∈ calls →
        (candidates.map ValidatorEntry.address).Nodup) →
      EpochsKept epochLength.toNat
        (Machine.history (step P) (EpochManager.new P genesis epochLength) calls)
        (Machine.final (step P) (EpochManager.new P genesis epochLength) calls) := by
  intro hclaim
  have hkept := hclaim Platform.integers [demoValidator 9 MIN_VALIDATOR_STAKE] 1
    [.updateCandidates [demoValidator 1 5],.onBlockCommitted 1 0] (List.cons_ne_nil _ _) (by decide)
    (by decide) (by decide) (by decide) rfl ?_
  · exact hkept.valid.nonempty (by decide)
  · intro candidates hmem
    rcases List.mem_cons.mp hmem with heq | hmem
    · cases heq
      exact List.nodup_singleton _
    · cases List.mem_singleton.mp hmem

end TwoEpochs

end ZbxChain.EpochManager
