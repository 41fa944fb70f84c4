import Mathlib.Data.List.Sort

/-! # Stable sorting by a key, largest first

Two orders of one list are told apart by the first places of their sorted versions exactly
by the elements of equal key that get there.
-/
namespace ZbxChain.StableSort

variable {α κ : Type*} [LinearOrder κ] (key : α → κ)

def sortDesc (l : List α) : List α := l.insertionSort (fun a b => key b ≤ key a)

instance total_key : Std.Total (fun a b : α => key b ≤ key a) := ⟨fun a b => le_total (key b) (key a)⟩
instance isTrans_key : IsTrans α (fun a b => key b ≤ key a) := ⟨fun _ _ _ hab hbc => hbc.trans hab⟩

variable {key} {l l' : List α}

theorem sortDesc_perm (l : List α) : (sortDesc key l).Perm l := List.perm_insertionSort _ l

theorem sortDesc_pairwise (l : List α) : (sortDesc key l).Pairwise (fun a b => key b ≤ key a) :=
  List.pairwise_insertionSort _ l

theorem filter_sortDesc (l : List α) (s : κ) :
    (sortDesc key l).filter (fun a => key a = s) = l.filter (fun a => key a = s) := by
  have hsame : (l.filter (fun a => key a = s)).Pairwise (fun a b => key b ≤ key a) := by
    rw [List.pairwise_filter]
    apply List.pairwise_of_forall
    intro a b ha hb
    rw [of_decide_eq_true ha, of_decide_eq_true hb]
  have hsub := (List.sublist_insertionSort hsame List.filter_sublist).filter
    (fun a => decide (key a = s))
  rw [List.filter_filter] at hsub
  simp only [Bool.and_self] at hsub
  apply (hsub.eq_of_length ?_).symm
  exact ((sortDesc_perm l).filter _).length_eq.symm

/-- Of a sorted list the first `n` hold, of each key, what the larger keys leave room for. -/
theorem filter_take (hl : l.Pairwise (fun a b => key b ≤ key a)) (n : ℕ) (s : κ) :
    (l.take n).filter (fun a => key a = s) =
      (l.filter (fun a => key a = s)).take (n - (l.filter (fun a => s < key a)).length) := by
  induction l generalizing n with
  | nil => simp
  | cons a l ih =>
    obtain ⟨hhead,htail⟩ := List.pairwise_cons.mp hl
    cases n with
    | zero => simp
    | succ n =>
      have hrest := ih htail n
      rw [List.take_succ_cons]
      rcases lt_trichotomy s (key a) with h | h | h
      · have hne : ¬ key a = s := h.ne'
        simp only [List.filter_cons, decide_eq_true_eq, if_neg hne, if_pos h, hrest, List.length_cons,
          Nat.add_sub_add_right]
      · -- no larger key comes after one that is sorted to the front
        have hnone : l.filter (fun b => decide (s < key b)) = [] := by
          rw [List.filter_eq_nil_iff]
          intro b hb hlt
          exact absurd (of_decide_eq_true hlt) (not_lt.mpr (h ▸ hhead b hb))
        have hnot : ¬ s < key a := h ▸ lt_irrefl _
        rw [hnone] at hrest
        simp only [List.filter_cons, decide_eq_true_eq, if_pos h.symm, if_neg hnot, hrest, hnone,
          List.length_nil, Nat.sub_zero, List.take_succ_cons]
      · have hnone : (a :: l).filter (fun b => decide (key b = s)) = [] := by
          rw [List.filter_eq_nil_iff]
          intro b hb heq
          have hb' : key b ≤ key a := by
            rcases List.mem_cons.mp hb with rfl | hb
            · exact le_refl _
            · exact hhead b hb
          exact absurd (of_decide_eq_true heq) (hb'.trans_lt h).ne
        rw [hnone, List.take_nil]
        apply List.eq_nil_of_sublist_nil
        rw [← hnone, ← List.take_succ_cons]
        exact (List.take_sublist _ _).filter _

/-- Sorted lists that agree on every key are equal. -/
theorem eq_of_filter_eq (hl : l.Pairwise (fun a b => key b ≤ key a))
    (hl' : l'.Pairwise (fun a b => key b ≤ key a))
    (h : ∀ s, l.filter (fun a => key a = s) = l'.filter (fun a => key a = s)) : l = l' := by
  have hmem : ∀ {x : α}, x ∈ l ↔ x ∈ l' := by
    intro x
    have hx := congrArg (x ∈ ·) (h (key x))
    simpa using hx
  induction l generalizing l' with
  | nil =>
    symm
    rw [List.eq_nil_iff_forall_not_mem]
    intro x hx
    exact absurd (hmem.mpr hx) List.not_mem_nil
  | cons a l ih =>
    cases l' with
    | nil => exact absurd (hmem.mp List.mem_cons_self) List.not_mem_nil
    | cons b l' =>
      obtain ⟨hhead,htail⟩ := List.pairwise_cons.mp hl
      obtain ⟨hhead',htail'⟩ := List.pairwise_cons.mp hl'
      have hle : key b ≤ key a := by
        rcases List.mem_cons.mp (hmem.mpr List.mem_cons_self) with rfl | hb
        · exact le_refl _
        · exact hhead b hb
      have hge : key a ≤ key b := by
        rcases List.mem_cons.mp (hmem.mp List.mem_cons_self) with rfl | ha
        · exact le_refl _
        · exact hhead' a ha
      have hkey : key b = key a := le_antisymm hle hge
      have hfront := h (key a)
      simp only [List.filter_cons, decide_eq_true_eq, if_pos hkey, ↓reduceIte] at hfront
      obtain ⟨hab,-⟩ := List.cons.inj hfront
      subst hab
      have hrest : ∀ s, l.filter (fun x => key x = s) = l'.filter (fun x => key x = s) := by
        intro s
        have hs := h s
        by_cases hk : key a = s
        · simp only [List.filter_cons, decide_eq_true_eq, if_pos hk] at hs
          exact (List.cons.inj hs).2
        · simp only [List.filter_cons, decide_eq_true_eq, if_neg hk] at hs
          exact hs
      have hmem' : ∀ {x : α}, x ∈ l ↔ x ∈ l' := by
        intro x
        have hx := congrArg (x ∈ ·) (hrest (key x))
        simpa using hx
      rw [ih htail htail' hrest hmem']

theorem take_sortDesc_eq_iff (hperm : l.Perm l') (n : ℕ) :
    (sortDesc key l).take n = (sortDesc key l').take n ↔
      ∀ s, (l.filter (fun a => key a = s)).take (n - (l.filter (fun a => s < key a)).length) =
        (l'.filter (fun a => key a = s)).take (n - (l.filter (fun a => s < key a)).length) := by
  have hrooms : ∀ s, ((sortDesc key l).filter (fun a => s < key a)).length =
      (l.filter (fun a => s < key a)).length := fun s => ((sortDesc_perm l).filter _).length_eq
  have hrooms' : ∀ s, ((sortDesc key l').filter (fun a => s < key a)).length =
      (l.filter (fun a => s < key a)).length :=
    fun s => (((sortDesc_perm l').trans hperm.symm).filter _).length_eq
  have hfront : ∀ s, ((sortDesc key l).take n).filter (fun a => key a = s) =
      (l.filter (fun a => key a = s)).take (n - (l.filter (fun a => s < key a)).length) := by
    intro s
    rw [filter_take (sortDesc_pairwise l), filter_sortDesc, hrooms]
  have hfront' : ∀ s, ((sortDesc key l').take n).filter (fun a => key a = s) =
      (l'.filter (fun a => key a = s)).take (n - (l.filter (fun a => s < key a)).length) := by
    intro s
    rw [filter_take (sortDesc_pairwise l'), filter_sortDesc, hrooms']
  constructor
  · intro heq s
    rw [← hfront, ← hfront', heq]
  · intro hties
    apply eq_of_filter_eq ((sortDesc_pairwise l).sublist (List.take_sublist n _))
      ((sortDesc_pairwise l').sublist (List.take_sublist n _))
    intro s
    rw [hfront, hfront', hties]

end ZbxChain.StableSort
