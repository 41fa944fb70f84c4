import Mathlib.Data.Finset.Basic

/-! # Reordering a run of commuting operations

Operations with disjoint footprints commute, and two orders of the same operations lead to
the same state when every pair that they order differently commutes.
-/
namespace ZbxChain.Commutation

variable {ι σ : Type*} (op : ι → σ → σ)

def run (s : σ) (order : List ι) : σ := order.foldl (fun s i => op i s) s

variable {op}

@[simp] theorem run_nil (s : σ) : run op s [] = s := rfl
@[simp] theorem run_cons (s : σ) (i : ι) (rest : List ι) : run op s (i :: rest) = run op (op i s) rest := rfl

theorem run_append (s : σ) (xs ys : List ι) : run op s (xs ++ ys) = run op (run op s xs) ys :=
  List.foldl_append

theorem op_run {i : ι} {xs : List ι} (h : ∀ j ∈ xs, ∀ s, op i (op j s) = op j (op i s)) (s : σ) :
    op i (run op s xs) = run op (op i s) xs := by
  induction xs generalizing s with
  | nil => rfl
  | cons j xs ih =>
    rw [run_cons, run_cons, ih (fun j' hj' => h j' (List.mem_cons_of_mem _ hj')),
      h j List.mem_cons_self]

/-- Operations that commute may run in any order. -/
theorem run_eq_of_commute {order order' : List ι} (hperm : order'.Perm order)
    (h : ∀ i j, [i,j].Sublist order' → [j,i].Sublist order → ∀ s, op i (op j s) = op j (op i s)) (s : σ) :
    run op s order = run op s order' := by
  induction order' generalizing order s with
  | nil => rw [List.nil_perm.mp hperm]
  | cons i rest ih =>
    obtain ⟨xs,ys,rfl⟩ := List.append_of_mem (hperm.mem_iff.mp List.mem_cons_self)
    have hrest : rest.Perm (xs ++ ys) := (hperm.trans List.perm_middle).cons_inv
    have hfront : ∀ j ∈ xs, ∀ s, op i (op j s) = op j (op i s) := by
      intro j hj
      apply h i j
      · have hmem : j ∈ rest := hrest.mem_iff.mpr (List.mem_append_left _ hj)
        exact (List.singleton_sublist.mpr hmem).cons_cons i
      · have hsub := (List.singleton_sublist.mpr hj).append
          (List.singleton_sublist.mpr (List.mem_cons_self (a := i) (l := ys)))
        exact hsub
    rw [run_append, run_cons, op_run hfront, ← run_append, run_cons]
    apply ih hrest
    intro a b hab hba
    apply h a b (hab.trans (List.sublist_cons_self i rest))
    exact hba.trans ((List.Sublist.refl xs).append (List.sublist_cons_self i ys))

section Order

theorem not_both_orders {i j : ι} {order : List ι} (hnodup : order.Nodup)
    (hij : [i,j].Sublist order) : ¬ [j,i].Sublist order := by
  induction order with
  | nil => exact absurd hij (by simp)
  | cons a rest ih =>
    intro hji
    obtain ⟨hfresh,hrest⟩ := List.nodup_cons.mp hnodup
    rcases List.cons_sublist_cons'.mp hij with hin | ⟨heq,hin⟩
    · rcases List.cons_sublist_cons'.mp hji with hin' | ⟨heq',-⟩
      · exact ih hrest hin hin'
      · exact hfresh (heq' ▸ hin.subset (List.mem_cons_of_mem _ List.mem_cons_self))
    · rcases List.cons_sublist_cons'.mp hji with hin' | ⟨heq',-⟩
      · exact hfresh (heq ▸ hin'.subset (List.mem_cons_of_mem _ List.mem_cons_self))
      · exact hfresh (heq' ▸ List.singleton_sublist.mp hin)

theorem pair_sublist {lane : List ℕ} (hsorted : lane.Pairwise (· < ·)) {i j : ℕ} (hi : i ∈ lane)
    (hj : j ∈ lane) (hij : i < j) : [i,j].Sublist lane := by
  induction lane with
  | nil => cases hi
  | cons a rest ih =>
    obtain ⟨hhead,htail⟩ := List.pairwise_cons.mp hsorted
    rcases List.mem_cons.mp hi with rfl | hi'
    · rcases List.mem_cons.mp hj with rfl | hj'
      · exact absurd hij (Nat.lt_irrefl _)
      · exact (List.singleton_sublist.mpr hj').cons_cons i
    · rcases List.mem_cons.mp hj with rfl | hj'
      · exact absurd (hhead i hi') (Nat.lt_asymm hij)
      · exact (ih htail hi' hj').cons a

end Order

section Footprint

variable {κ α : Type*}

/-- A state change that writes `writes` only, from what it reads at `reads`. -/
structure Footprint (reads writes : Finset κ) (f : (κ → α) → κ → α) : Prop where
  frame : ∀ s k, k ∉ writes → f s k = s k
  determined : ∀ s s', (∀ k ∈ reads, s k = s' k) → ∀ k ∈ writes, f s k = f s' k

variable {reads writes reads' writes' : Finset κ} {f g : (κ → α) → κ → α}

theorem Footprint.skip (hf : Footprint reads writes f) (hg : Footprint reads' writes' g)
    (hread : Disjoint writes' reads) (s : κ → α) : ∀ k ∈ writes, f (g s) k = f s k := by
  apply hf.determined
  intro k hk
  exact hg.frame s k (fun hw => Finset.disjoint_left.mp hread hw hk)

/-- Operations with disjoint footprints commute. -/
theorem Footprint.comm (hf : Footprint reads writes f) (hg : Footprint reads' writes' g)
    (hwrite : Disjoint writes writes') (hread : Disjoint writes reads') (hread' : Disjoint writes' reads)
    (s : κ → α) : f (g s) = g (f s) := by
  funext k
  by_cases hk : k ∈ writes
  · have hk' : k ∉ writes' := Finset.disjoint_left.mp hwrite hk
    rw [hf.skip hg hread' s k hk, hg.frame (f s) k hk']
  · by_cases hk' : k ∈ writes'
    · rw [hf.frame (g s) k hk, hg.skip hf hread s k hk']
    · rw [hf.frame (g s) k hk, hg.frame s k hk', hg.frame (f s) k hk', hf.frame s k hk]

end Footprint

end ZbxChain.Commutation
