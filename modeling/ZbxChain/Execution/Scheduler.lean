import ZbxChain.Foundation.Commutation
import ZbxChain.Foundation.Table
import ZbxChain.Types.Transaction

/-! # The lane scheduler for parallel execution -/
namespace ZbxChain

inductive AccessKey where
  | account (a : Address)
  | storage (a : Address) (slot : H256)
  | wildcard
  deriving DecidableEq

structure AccessSet where
  reads : Finset AccessKey
  writes : Finset AccessKey

namespace AccessSet

def conflictsWith (self other : AccessSet) : Bool :=
  if .wildcard ∈ self.writes ∨ .wildcard ∈ other.writes ∨ .wildcard ∈ self.reads ∨
      .wildcard ∈ other.reads then true
  else decide (∃ w ∈ self.writes, w ∈ other.reads ∨ w ∈ other.writes) ||
    decide (∃ w ∈ other.writes, w ∈ self.reads)

def extend (self other : AccessSet) : AccessSet :=
  ⟨self.reads ∪ other.reads,self.writes ∪ other.writes⟩

def touch (set : AccessSet) (key : AccessKey) : AccessSet :=
  ⟨insert key set.reads,insert key set.writes⟩

end AccessSet

def deriveAccessSet (tx : SignedTransaction) : AccessSet :=
  let set : AccessSet := (⟨∅,∅⟩ : AccessSet).touch (.account tx.sender)
  match tx.tx.recipient with
  | some recipient =>
    let set := set.touch (.account recipient)
    let isCall := ¬ tx.tx.data.isEmpty
    let hasAccessList := ¬ tx.tx.accessList.isEmpty
    if isCall ∧ ¬ hasAccessList then { set with writes := insert .wildcard set.writes }
    else
      tx.tx.accessList.foldl (fun set entry =>
        entry.2.foldl (fun set slot => set.touch (.storage entry.1 slot))
          { set with reads := insert (.account entry.1) set.reads }) set
  | none => { set with writes := insert .wildcard set.writes }

/-- The lanes built so far, with what each touches and the lane of each sender. -/
structure Lanes where
  lanes : List (List ℕ)
  laneSets : List AccessSet
  senderLane : Table Address ℕ

namespace Lanes

def empty : Lanes := ⟨[],[],∅⟩

/-- `lanes[k].push(idx)` and `lane_sets[k].extend(&aset)`. -/
def push (l : Lanes) (k idx : ℕ) (aset : AccessSet) : Lanes :=
  { l with
    lanes := l.lanes.modify k (· ++ [idx])
    laneSets := l.laneSets.modify k (·.extend aset) }

def pin (l : Lanes) (sender : Address) (k : ℕ) : Lanes :=
  { l with senderLane := l.senderLane.insert sender k }

/-- `min_by_key(len)`: the first of the shortest lanes. -/
def smallest (l : Lanes) : ℕ :=
  l.lanes.findIdx (fun lane => l.lanes.all (fun other => lane.length ≤ other.length))

def place (maxLanes : ℕ) (l : Lanes) (idx : ℕ) (tx : SignedTransaction) : Lanes :=
  let aset := deriveAccessSet tx
  match l.senderLane.lookup tx.sender with
  | some k => l.push k idx aset
  | none =>
    match l.laneSets.findIdx? (fun lset => ¬ lset.conflictsWith aset) with
    | some k => (l.push k idx aset).pin tx.sender k
    | none =>
      if l.lanes.length < maxLanes then
        ({ l with
            lanes := l.lanes ++ [[idx]]
            laneSets := l.laneSets ++ [aset] } : Lanes).pin tx.sender l.lanes.length
      else (l.push l.smallest idx aset).pin tx.sender l.smallest

end Lanes

def schedule (txs : List SignedTransaction) (maxLanes : ℕ) : Lanes :=
  txs.zipIdx.foldl (fun l e => l.place maxLanes e.2 e.1) Lanes.empty

/-- The schedule places one transaction after the other. -/
theorem schedule_append (txs : List SignedTransaction) (tx : SignedTransaction) (maxLanes : ℕ) :
    schedule (txs ++ [tx]) maxLanes = (schedule txs maxLanes).place maxLanes txs.length tx := by
  rw [schedule, List.zipIdx_append, List.foldl_append]
  simp [schedule]

namespace AccessSet

variable {a b c : AccessSet}

/-- No conflict: no wildcard, and no write that meets a read or a write. -/
theorem conflictsWith_eq_false_iff :
    a.conflictsWith b = false ↔
      (.wildcard ∉ a.reads ∧ .wildcard ∉ a.writes ∧ .wildcard ∉ b.reads ∧ .wildcard ∉ b.writes) ∧
        Disjoint a.writes b.writes ∧ Disjoint a.writes b.reads ∧ Disjoint b.writes a.reads := by
  unfold conflictsWith
  simp only [Finset.disjoint_left]
  split
  · rename_i hwild
    refine iff_of_false Bool.noConfusion ?_
    rintro ⟨⟨har,haw,hbr,hbw⟩,-⟩
    rcases hwild with h | h | h | h
    · exact haw h
    · exact hbw h
    · exact har h
    · exact hbr h
  · rename_i hwild
    simp only [not_or] at hwild
    obtain ⟨haw,hbw,har,hbr⟩ := hwild
    rw [Bool.or_eq_false_iff, decide_eq_false_iff_not, decide_eq_false_iff_not]
    constructor
    · rintro ⟨hfirst,hsecond⟩
      refine ⟨⟨har,haw,hbr,hbw⟩,?_,?_,?_⟩
      · intro w ha hb
        exact hfirst ⟨w,ha,Or.inr hb⟩
      · intro w ha hb
        exact hfirst ⟨w,ha,Or.inl hb⟩
      · intro w hb ha
        exact hsecond ⟨w,hb,ha⟩
    · rintro ⟨-,hww,hwr,hrw⟩
      constructor
      · rintro ⟨w,ha,hb | hb⟩
        · exact hwr ha hb
        · exact hww ha hb
      · rintro ⟨w,hb,ha⟩
        exact hrw hb ha

theorem extend_conflictsWith :
    (a.extend b).conflictsWith c = (a.conflictsWith c || b.conflictsWith c) := by
  rw [Bool.eq_iff_iff, ← not_iff_not, Bool.not_eq_true, Bool.not_eq_true, Bool.or_eq_false_iff,
    conflictsWith_eq_false_iff, conflictsWith_eq_false_iff, conflictsWith_eq_false_iff]
  simp only [extend, Finset.mem_union, Finset.disjoint_union_left, Finset.disjoint_union_right, not_or]
  tauto

/-- What a transaction that keeps to its access set may do to the state. -/
def Governs {α : Type} (set : AccessSet) (f : (AccessKey → α) → AccessKey → α) : Prop :=
  .wildcard ∉ set.reads → .wildcard ∉ set.writes → Commutation.Footprint set.reads set.writes f

theorem Governs.comm {α : Type} {f g : (AccessKey → α) → AccessKey → α} (hf : a.Governs f)
    (hg : b.Governs g) (h : a.conflictsWith b = false) (s : AccessKey → α) : f (g s) = g (f s) := by
  obtain ⟨⟨har,haw,hbr,hbw⟩,hww,hwr,hrw⟩ := conflictsWith_eq_false_iff.mp h
  exact (hf har haw).comm (hg hbr hbw) hww hwr hrw s

end AccessSet

end ZbxChain
