import Mathlib.Data.Finset.Card
import Mathlib.Tactic.Linarith

/-! # Quorum systems with faulty members and the certificates they issue

A committee is a finite set of members, some of them faulty, together with a
quorum size that makes any two quorums meet outside the faulty members. Slots and
values are arbitrary types: a slot is whatever an honest member votes on at most
once, and a certificate is a quorum of votes for one value at one slot.
-/
namespace ZbxChain.Quorum

/-- A committee whose quorums pairwise share a member that is not faulty. -/
structure Committee (Party : Type*) where
  members : Finset Party
  faulty : Finset Party
  quorum : ℕ
  intersects : members.card + faulty.card < 2 * quorum

theorem supermajority_intersects {n f : ℕ} (hn : 1 ≤ n) (hf : f ≤ (n - 1) / 3) :
    n + f < 2 * (2 * n / 3 + 1) := by omega

/-- A quorum of `q` among `n` members: any two of them share more members than the
`⌊(n-1)/3⌋` that may be faulty, and the others reach it without these. -/
structure Tolerates (n q : ℕ) : Prop where
  intersects : n + (n - 1) / 3 < 2 * q
  reachable : q + (n - 1) / 3 ≤ n

theorem tolerates_supermajority {n : ℕ} (hn : 1 ≤ n) : Tolerates n (2 * n / 3 + 1) :=
  ⟨supermajority_intersects hn le_rfl,by omega⟩

theorem tolerates_twice_faults_iff {n : ℕ} (hn : 1 ≤ n) : Tolerates n (2 * ((n - 1) / 3) + 1) ↔ n % 3 = 1 := by
  constructor
  · intro h
    have hinter := h.intersects
    omega
  · intro h
    exact ⟨by omega,by omega⟩

variable {Party Slot Value : Type*} [DecidableEq Party] (C : Committee Party)

theorem Committee.exists_honest_inter {S T : Finset Party} (hS : S ⊆ C.members) (hT : T ⊆ C.members)
    (hSq : C.quorum ≤ S.card) (hTq : C.quorum ≤ T.card) : ∃ a ∈ S, a ∈ T ∧ a ∉ C.faulty := by
  have hunion : (S ∪ T).card ≤ C.members.card := Finset.card_le_card (Finset.union_subset hS hT)
  have hsum := Finset.card_union_add_card_inter S T
  have hlt : C.faulty.card < (S ∩ T).card := by
    have := C.intersects
    omega
  obtain ⟨a,ha,hfaulty⟩ := Finset.exists_mem_notMem_of_card_lt_card hlt
  exact ⟨a,(Finset.mem_inter.mp ha).1,(Finset.mem_inter.mp ha).2,hfaulty⟩

variable (cast : Party → Slot → Value → Prop)

/-- A quorum stands behind `v` at slot `k`: its honest members cast that vote,
while its faulty members may have signed anything. -/
def Certified (k : Slot) (v : Value) : Prop :=
  ∃ S ⊆ C.members, C.quorum ≤ S.card ∧ ∀ a ∈ S, a ∉ C.faulty → cast a k v

/-- Honest members vote for at most one value in each slot. -/
def HonestUnique : Prop :=
  ∀ a, a ∉ C.faulty → ∀ k v w, cast a k v → cast a k w → v = w

variable {C cast}

/-- Behind every certificate there is an honest member. -/
theorem Certified.honest {k : Slot} {v : Value} (h : Certified C cast k v) :
    ∃ a ∈ C.members, a ∉ C.faulty ∧ cast a k v := by
  obtain ⟨S,hS,hq,hcast⟩ := h
  obtain ⟨a,ha,_,hfaulty⟩ := C.exists_honest_inter hS hS hq hq
  exact ⟨a,hS ha,hfaulty,hcast a ha hfaulty⟩

/-- One slot has one certified value. -/
theorem Certified.unique (hu : HonestUnique C cast) {k : Slot} {v w : Value}
    (hv : Certified C cast k v) (hw : Certified C cast k w) : v = w := by
  obtain ⟨S,hS,hSq,hScast⟩ := hv
  obtain ⟨T,hT,hTq,hTcast⟩ := hw
  obtain ⟨a,haS,haT,hfaulty⟩ := C.exists_honest_inter hS hT hSq hTq
  exact hu a hfaulty k v w (hScast a haS hfaulty) (hTcast a haT hfaulty)

/-- A certificate rests on one of the slot before. -/
theorem Certified.descend {cast : Party → ℕ → Value → Prop} {v : Value}
    (hrest : ∀ a, a ∉ C.faulty → ∀ p, cast a (p + 1) v → Certified C cast p v)
    {p : ℕ} (h : Certified C cast p v) {p' : ℕ} (hp : p' ≤ p) : Certified C cast p' v := by
  induction p with
  | zero =>
    have hz : p' = 0 := by omega
    exact hz ▸ h
  | succ p ih =>
    rcases Nat.lt_or_ge p p' with hlt | hge
    · have hs : p' = p + 1 := by omega
      exact hs ▸ h
    · obtain ⟨a,_,hfaulty,hcast⟩ := h.honest
      exact ih (hrest a hfaulty p hcast) hge

end ZbxChain.Quorum
