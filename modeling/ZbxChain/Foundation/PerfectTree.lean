import Mathlib.Data.Nat.Log
import Mathlib.Tactic.Linarith

/-! # Perfect binary trees of hashes

A tree of height `k` is folded from its leaves, a function on the places below `2 ^ k`. A path
climbs from a node to the root by one sibling a layer, on the side that the bits of an index
tell. A row of any length becomes a perfect tree when the last node of an odd layer is its own
sibling; `standing` tells which node of the row stands at a place then. What the hash is
assumed to keep apart are the pairs that are hashed, no others.
-/
namespace ZbxChain.PerfectTree

variable {H : Type*} (node : H → H → H)

def fold : ℕ → (ℕ → H) → H
  | 0, leaf => leaf 0
  | k + 1, leaf => node (fold k leaf) (fold k (fun i => leaf (2 ^ k + i)))

def pairs : ℕ → (ℕ → H) → Set (H × H)
  | 0, _ => ∅
  | k + 1, leaf =>
    {(fold node k leaf,fold node k (fun i => leaf (2 ^ k + i)))} ∪
      (pairs k leaf ∪ pairs k (fun i => leaf (2 ^ k + i)))

def climb : H → ℕ → List H → H
  | current, _, [] => current
  | current, index, sibling :: rest =>
    climb (if index % 2 = 0 then node current sibling else node sibling current) (index / 2) rest

def climbPairs : H → ℕ → List H → Set (H × H)
  | _, _, [] => ∅
  | current, index, sibling :: rest =>
    {if index % 2 = 0 then (current,sibling) else (sibling,current)} ∪
      climbPairs (if index % 2 = 0 then node current sibling else node sibling current) (index / 2) rest

def opening : ℕ → (ℕ → H) → ℕ → List H
  | 0, _, _ => []
  | k + 1, leaf, i =>
    if i / 2 ^ k % 2 = 0 then opening k leaf i ++ [fold node k (fun i => leaf (2 ^ k + i))]
    else opening k (fun i => leaf (2 ^ k + i)) i ++ [fold node k leaf]

variable {node} {k : ℕ} {leaf : ℕ → H} {index : ℕ}

@[simp] theorem length_opening : (opening node k leaf index).length = k := by
  induction k generalizing leaf with
  | zero => rfl
  | succ k ih =>
    rw [opening]
    split <;> simp [ih]

theorem fold_parents (k : ℕ) (leaf : ℕ → H) :
    fold node (k + 1) leaf = fold node k (fun i => node (leaf (2 * i)) (leaf (2 * i + 1))) := by
  induction k generalizing leaf with
  | zero => rfl
  | succ k ih =>
    rw [fold, ih, ih]
    conv_rhs => rw [fold]
    have hdouble : ∀ i, 2 * (2 ^ k + i) = 2 ^ (k + 1) + 2 * i := by
      intro i
      rw [pow_succ]
      omega
    simp only [hdouble, Nat.add_assoc]

theorem mem_pairs_parents {p : H × H} (k : ℕ) (leaf : ℕ → H) : p ∈ pairs node (k + 1) leaf ↔
    (∃ i < 2 ^ k, p = (leaf (2 * i),leaf (2 * i + 1))) ∨
      p ∈ pairs node k (fun i => node (leaf (2 * i)) (leaf (2 * i + 1))) := by
  induction k generalizing leaf with
  | zero => simp [pairs, fold]
  | succ k ih =>
    have hdouble : ∀ i, 2 * (2 ^ k + i) = 2 ^ (k + 1) + 2 * i := by
      intro i
      rw [pow_succ]
      omega
    have hsplit : (∃ i < 2 ^ (k + 1), p = (leaf (2 * i),leaf (2 * i + 1))) ↔
        (∃ i < 2 ^ k, p = (leaf (2 * i),leaf (2 * i + 1))) ∨
          ∃ i < 2 ^ k, p = (leaf (2 ^ (k + 1) + 2 * i),leaf (2 ^ (k + 1) + (2 * i + 1))) := by
      constructor
      · rintro ⟨i,hi,hp⟩
        by_cases hlow : i < 2 ^ k
        · exact Or.inl ⟨i,hlow,hp⟩
        · obtain ⟨j,rfl⟩ := Nat.exists_eq_add_of_le (Nat.le_of_not_lt hlow)
          refine Or.inr ⟨j,by rw [pow_succ] at hi; omega,?_⟩
          rw [hp, hdouble, Nat.add_assoc]
      · rintro (⟨i,hi,hp⟩ | ⟨i,hi,hp⟩)
        · exact ⟨i,by rw [pow_succ]; omega,hp⟩
        · refine ⟨2 ^ k + i,by rw [pow_succ]; omega,?_⟩
          rw [hp, hdouble, Nat.add_assoc]
    rw [pairs, Set.mem_union, Set.mem_union, ih, ih, hsplit]
    conv_rhs => rw [pairs, Set.mem_union, Set.mem_union]
    rw [fold_parents, fold_parents]
    simp only [hdouble, Nat.add_assoc]
    have hswap : ∀ a b c d e : Prop, (a ∨ (b ∨ c) ∨ d ∨ e) ↔ ((b ∨ d) ∨ a ∨ c ∨ e) := by
      intros
      tauto
    exact hswap _ _ _ _ _

theorem climb_append (current : H) (index : ℕ) (siblings : List H) (sibling : H) :
    climb node current index (siblings ++ [sibling]) =
      if index / 2 ^ siblings.length % 2 = 0 then node (climb node current index siblings) sibling
      else node sibling (climb node current index siblings) := by
  induction siblings generalizing current index with
  | nil => simp [climb]
  | cons s siblings ih =>
    have hhalf : index / 2 / 2 ^ siblings.length = index / 2 ^ (siblings.length + 1) := by
      rw [Nat.div_div_eq_div_mul, pow_succ, Nat.mul_comm]
    rw [List.cons_append, climb, ih, hhalf]
    rfl

theorem climbPairs_append (current : H) (index : ℕ) (siblings : List H) (sibling : H) :
    climbPairs node current index (siblings ++ [sibling]) =
      climbPairs node current index siblings ∪
        {if index / 2 ^ siblings.length % 2 = 0 then (climb node current index siblings,sibling)
         else (sibling,climb node current index siblings)} := by
  induction siblings generalizing current index with
  | nil => simp [climbPairs, climb]
  | cons s siblings ih =>
    have hhalf : index / 2 / 2 ^ siblings.length = index / 2 ^ (siblings.length + 1) := by
      rw [Nat.div_div_eq_div_mul, pow_succ, Nat.mul_comm]
    rw [List.cons_append, climbPairs, ih, hhalf, ← Set.union_assoc]
    rfl

def Binding (node : H → H → H) (S : Set (H × H)) : Prop := Set.InjOn (fun p => node p.1 p.2) S

/-- A hash that is no pair's. -/
def Apart (node : H → H → H) (S : Set (H × H)) (x : H) : Prop := ∀ p ∈ S, node p.1 p.2 ≠ x

theorem Binding.eq {S : Set (H × H)} (h : Binding node S) {l r l' r' : H} (hp : (l,r) ∈ S)
    (hp' : (l',r') ∈ S) (heq : node l r = node l' r') : l = l' ∧ r = r' :=
  Prod.mk.inj (h hp hp' heq)

theorem fold_inj {S : Set (H × H)} (hS : Binding node S) {k k' : ℕ} {leaf leaf' : ℕ → H}
    (hpairs : pairs node k leaf ⊆ S) (hpairs' : pairs node k' leaf' ⊆ S)
    (hleaf : ∀ i, Apart node S (leaf i)) (hleaf' : ∀ i, Apart node S (leaf' i))
    (h : fold node k leaf = fold node k' leaf') : k = k' ∧ ∀ i < 2 ^ k, leaf i = leaf' i := by
  induction k generalizing k' leaf leaf' with
  | zero =>
    cases k' with
    | zero => exact ⟨rfl,fun i hi => by simpa [Nat.lt_one_iff.mp hi, fold] using h⟩
    | succ k' => exact absurd h.symm (hleaf 0 _ (hpairs' (Or.inl rfl)))
  | succ k ih =>
    cases k' with
    | zero => exact absurd h (hleaf' 0 _ (hpairs (Or.inl rfl)))
    | succ k' =>
      obtain ⟨hlow,hhigh⟩ := hS.eq (hpairs (Or.inl rfl)) (hpairs' (Or.inl rfl)) h
      obtain ⟨rfl,hfirst⟩ := ih (fun p hp => hpairs (Or.inr (Or.inl hp)))
        (fun p hp => hpairs' (Or.inr (Or.inl hp))) hleaf hleaf' hlow
      obtain ⟨-,hsecond⟩ := ih (fun p hp => hpairs (Or.inr (Or.inr hp)))
        (fun p hp => hpairs' (Or.inr (Or.inr hp))) (fun i => hleaf _) (fun i => hleaf' _) hhigh
      refine ⟨rfl,?_⟩
      intro i hi
      by_cases hi' : i < 2 ^ k
      · exact hfirst i hi'
      · obtain ⟨j,rfl⟩ := Nat.exists_eq_add_of_le (Nat.le_of_not_lt hi')
        exact hsecond j (by rw [pow_succ] at hi; omega)

/-- The last siblings of a path are those of a place of the tree, and the siblings below them
lead to the leaf there. -/
def Opens (node : H → H → H) (k : ℕ) (leaf : ℕ → H) (current : H) (index : ℕ)
    (siblings below : List H) : Prop :=
  siblings = below ++ opening node k leaf (index / 2 ^ below.length) ∧
    climb node current index below = leaf (index / 2 ^ below.length % 2 ^ k)

theorem opens_concat {current : H} {init below : List H} {sibling : H} :
    Opens node (k + 1) leaf current index (init ++ [sibling]) below ↔
      if index / 2 ^ init.length % 2 = 0 then
        Opens node k leaf current index init below ∧ sibling = fold node k (fun i => leaf (2 ^ k + i))
      else Opens node k (fun i => leaf (2 ^ k + i)) current index init below ∧ sibling = fold node k leaf := by
  have hbit : init.length = below.length + k →
      index / 2 ^ below.length / 2 ^ k = index / 2 ^ init.length := by
    intro hlength
    rw [Nat.div_div_eq_div_mul, ← pow_add, hlength]
  have hlength : (init ++ [sibling] = below ++ opening node (k + 1) leaf (index / 2 ^ below.length)) →
      init.length = below.length + k := by
    intro h
    have hlength := congrArg List.length h
    simp only [List.length_append, List.length_singleton, length_opening] at hlength
    omega
  constructor
  · rintro ⟨hsplit,hclimb⟩
    have hturn := hbit (hlength hsplit)
    rw [opening, hturn] at hsplit
    rw [Nat.mod_pow_succ, hturn] at hclimb
    split
    · rename_i heven
      rw [if_pos heven, ← List.append_assoc] at hsplit
      obtain ⟨hinit,hlast⟩ := List.append_inj' hsplit rfl
      exact ⟨⟨hinit,by simpa [heven] using hclimb⟩,List.singleton_inj.mp hlast⟩
    · rename_i hodd
      have hone : index / 2 ^ init.length % 2 = 1 := by omega
      rw [if_neg hodd, ← List.append_assoc] at hsplit
      obtain ⟨hinit,hlast⟩ := List.append_inj' hsplit rfl
      exact ⟨⟨hinit,by simpa [hone, Nat.add_comm] using hclimb⟩,List.singleton_inj.mp hlast⟩
  · intro h
    split at h
    · rename_i heven
      obtain ⟨⟨hinit,hclimb⟩,rfl⟩ := h
      have hturn := hbit (by simpa using congrArg List.length hinit)
      refine ⟨?_,?_⟩
      · rw [opening, hturn, if_pos heven, ← List.append_assoc, ← hinit]
      · rw [Nat.mod_pow_succ, hturn, heven]
        simpa using hclimb
    · rename_i hodd
      obtain ⟨⟨hinit,hclimb⟩,rfl⟩ := h
      have hone : index / 2 ^ init.length % 2 = 1 := by omega
      have hturn := hbit (by simpa using congrArg List.length hinit)
      refine ⟨?_,?_⟩
      · rw [opening, hturn, if_neg hodd, ← List.append_assoc, ← hinit]
      · rw [Nat.mod_pow_succ, hturn, hone]
        simpa [Nat.add_comm] using hclimb

/-- A path from a hash that is no pair's ends at the root exactly if it opens a place of the tree. -/
theorem climb_eq_fold_iff {S : Set (H × H)} (hS : Binding node S) {current : H} {siblings : List H}
    (hpairs : pairs node k leaf ⊆ S) (hpath : climbPairs node current index siblings ⊆ S)
    (hcurrent : Apart node S current) : climb node current index siblings = fold node k leaf ↔
      ∃ below, Opens node k leaf current index siblings below := by
  induction k generalizing leaf siblings with
  | zero => simp [Opens, fold, opening, Nat.mod_one]
  | succ k ih =>
    rcases List.eq_nil_or_concat siblings with rfl | ⟨init,sibling,rfl⟩
    · constructor
      · intro h
        exact absurd h.symm (hcurrent _ (hpairs (Or.inl rfl)))
      · rintro ⟨below,hsplit,-⟩
        have hlength := congrArg List.length hsplit
        simp at hlength
    · rw [List.concat_eq_append] at hpath ⊢
      rw [climbPairs_append] at hpath
      have hinit : climbPairs node current index init ⊆ S := fun p hp => hpath (Or.inl hp)
      have hlast := hpath (Or.inr rfl)
      have hlow := @ih leaf init (fun p hp => hpairs (Or.inr (Or.inl hp))) hinit
      have hhigh := @ih (fun i => leaf (2 ^ k + i)) init (fun p hp => hpairs (Or.inr (Or.inr hp))) hinit
      have htop : (fold node k leaf,fold node k (fun i => leaf (2 ^ k + i))) ∈ S := hpairs (Or.inl rfl)
      rw [climb_append, fold]
      simp only [opens_concat]
      split
      · rename_i heven
        rw [if_pos heven] at hlast
        rw [exists_and_right, ← hlow]
        constructor
        · exact hS.eq hlast htop
        · rintro ⟨hclimb,hsibling⟩
          rw [hclimb, hsibling]
      · rename_i hodd
        rw [if_neg hodd] at hlast
        rw [exists_and_right, ← hhigh, and_comm]
        constructor
        · exact hS.eq hlast htop
        · rintro ⟨hsibling,hclimb⟩
          rw [hclimb, hsibling]

/-- The node of a row of `n` nodes that stands at a place of the perfect tree of height `k`. -/
def standing : ℕ → ℕ → ℕ → ℕ
  | 0, _, _ => 0
  | k + 1, n, i =>
    let parent := standing k ((n + 1) / 2) (i / 2)
    if 2 * parent + i % 2 < n then 2 * parent + i % 2 else 2 * parent

theorem standing_lt {n : ℕ} (hn : 0 < n) (i : ℕ) : standing k n i < n := by
  induction k generalizing n i with
  | zero => exact hn
  | succ k ih =>
    have hparent : standing k ((n + 1) / 2) (i / 2) < (n + 1) / 2 := ih (by omega) _
    rw [standing]
    split
    · assumption
    · omega

theorem standing_of_lt {n i : ℕ} (hi : i < n) (hn : n ≤ 2 ^ k) : standing k n i = i := by
  induction k generalizing n i with
  | zero =>
    have hone : n ≤ 1 := hn
    simp only [standing]
    omega
  | succ k ih =>
    have hparent : standing k ((n + 1) / 2) (i / 2) = i / 2 := by
      refine ih (by omega) ?_
      rw [pow_succ] at hn
      omega
    rw [standing, hparent]
    rw [if_pos (by omega)]
    omega

theorem fold_congr {leaf' : ℕ → H} (h : ∀ i < 2 ^ k, leaf i = leaf' i) :
    fold node k leaf = fold node k leaf' := by
  induction k generalizing leaf leaf' with
  | zero => exact h 0 (by decide)
  | succ k ih =>
    have hlow : fold node k leaf = fold node k leaf' :=
      ih (fun i hi => h i (by rw [pow_succ]; omega))
    have hhigh : fold node k (fun i => leaf (2 ^ k + i)) = fold node k (fun i => leaf' (2 ^ k + i)) :=
      ih (fun i hi => h (2 ^ k + i) (by rw [pow_succ]; omega))
    rw [fold, fold, hlow, hhigh]

section Completed
variable {α : Type*}

def completed (row : List α) : List (Option α) :=
  (List.range (2 ^ Nat.clog 2 row.length)).map
    (fun place => row[standing (Nat.clog 2 row.length) row.length place]?)

variable {row row' : List α}

/-- Two rows are completed to the same one exactly if their heights and places agree. -/
theorem completed_eq_iff : completed row = completed row' ↔
    Nat.clog 2 row.length = Nat.clog 2 row'.length ∧ ∀ place < 2 ^ Nat.clog 2 row.length,
      row[standing (Nat.clog 2 row.length) row.length place]? =
        row'[standing (Nat.clog 2 row'.length) row'.length place]? := by
  constructor
  · intro h
    have hlength := congrArg List.length h
    simp only [completed, List.length_map, List.length_range] at hlength
    have hheight := Nat.pow_right_injective (le_refl 2) hlength
    refine ⟨hheight,?_⟩
    intro place hplace
    have hplace' : place < 2 ^ Nat.clog 2 row'.length := hheight ▸ hplace
    have hat := congrArg (fun l => l[place]?) h
    simpa [completed, hplace, hplace'] using hat
  · rintro ⟨hheight,hplaces⟩
    simp only [completed, ← hheight] at hplaces ⊢
    exact List.map_congr_left (fun place hplace => hplaces place (List.mem_range.mp hplace))

theorem getElem?_of_completed (h : completed row = completed row') {i : ℕ} (hi : i < row.length)
    (hi' : i < row'.length) : row[i]? = row'[i]? := by
  obtain ⟨hheight,hplaces⟩ := completed_eq_iff.mp h
  have hfits : row.length ≤ 2 ^ Nat.clog 2 row.length := Nat.le_pow_clog (by decide) _
  have hfits' : row'.length ≤ 2 ^ Nat.clog 2 row'.length := Nat.le_pow_clog (by decide) _
  have hat := hplaces i (lt_of_lt_of_le hi hfits)
  rwa [standing_of_lt hi hfits, standing_of_lt hi' hfits'] at hat

theorem eq_of_completed (h : completed row = completed row') (hlength : row.length = row'.length) :
    row = row' := by
  apply List.ext_getElem?
  intro i
  by_cases hi : i < row.length
  · exact getElem?_of_completed h hi (hlength ▸ hi)
  · simp [List.getElem?_eq_none (Nat.le_of_not_lt hi), List.getElem?_eq_none (hlength ▸ Nat.le_of_not_lt hi)]

theorem length_le_of_completed (h : completed row = completed row') (hne : row ≠ []) (hnodup : row'.Nodup) :
    row'.length ≤ row.length := by
  by_contra hlonger
  have hlt : row.length < row'.length := by omega
  obtain ⟨hheight,hplaces⟩ := completed_eq_iff.mp h
  have hfits' : row'.length ≤ 2 ^ Nat.clog 2 row'.length := Nat.le_pow_clog (by decide) _
  have hstands := standing_lt (k := Nat.clog 2 row.length) (List.length_pos_iff.mpr hne) row.length
  have hat := hplaces row.length (by rw [hheight]; omega)
  rw [standing_of_lt hlt hfits'] at hat
  have hbefore := getElem?_of_completed h hstands (hstands.trans hlt)
  have hsame := (List.getElem?_inj (hstands.trans hlt) hnodup).mp (hbefore.symm.trans hat)
  omega

theorem completed_nil_iff : completed row = completed ([] : List α) ↔ row = [] := by
  constructor
  · intro h
    by_contra hne
    have hpos := List.length_pos_iff.mpr hne
    obtain ⟨-,hplaces⟩ := completed_eq_iff.mp h
    have hat := hplaces 0 (Nat.two_pow_pos _)
    have hstands := standing_lt (k := Nat.clog 2 row.length) hpos 0
    simp [List.getElem?_eq_getElem hstands] at hat
  · rintro rfl
    rfl

end Completed

end ZbxChain.PerfectTree
