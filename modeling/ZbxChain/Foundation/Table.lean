import Mathlib.Data.List.AList
import Mathlib.Data.Finset.Card
import Mathlib.Algebra.BigOperators.Group.List.Basic
import Mathlib.Algebra.GroupWithZero.Nat

/-! # Hash tables as association lists with distinct keys

Mathlib's `AList` gives lookup and insertion; this file adds what programs also do
with a hash table: count its entries, list its values, keep those that pass a test, and add up
a number for each entry. An insertion takes away what was counted under its key.
-/

abbrev ZbxChain.Table (κ α : Type*) := AList (fun _ : κ => α)

namespace AList
variable {κ α : Type*}

def len (t : AList (fun _ : κ => α)) : ℕ := t.entries.length

def values (t : AList (fun _ : κ => α)) : List α := t.entries.map Sigma.snd

/-- `HashMap::retain`. -/
def retain (p : κ → α → Bool) (t : AList (fun _ : κ => α)) : AList (fun _ : κ => α) :=
  ⟨t.entries.filter (fun e => p e.1 e.2),t.nodupKeys.sublist List.filter_sublist⟩

section Entries
variable [DecidableEq κ]

def keySet (t : AList (fun _ : κ => α)) : Finset κ := t.keys.toFinset

variable {t : AList (fun _ : κ => α)} {k : κ} {v : α}

theorem mem_keys_of_lookup (h : t.lookup k = some v) : k ∈ t.keys := by
  rw [← mem_keys, ← lookup_isSome, h]
  rfl

theorem mem_keySet : k ∈ t.keySet ↔ ∃ v, t.lookup k = some v := by
  rw [keySet, List.mem_toFinset, ← mem_keys, ← lookup_isSome, Option.isSome_iff_exists]

theorem card_keySet : t.keySet.card = t.len := by
  rw [keySet, List.toFinset_card_of_nodup t.keys_nodup, len, keys, List.keys, List.length_map]

theorem len_insert (h : t.lookup k = none) : (t.insert k v).len = t.len + 1 := by
  rw [len, entries_insert_of_notMem (lookup_eq_none.mp h), List.length_cons, len]

/-- The keys after an insert. -/
theorem keySet_insert : (t.insert k v).keySet = Insert.insert k t.keySet := by
  ext a
  rw [keySet, List.mem_toFinset, ← mem_keys, mem_insert, Finset.mem_insert, keySet,
    List.mem_toFinset, ← mem_keys]

theorem mem_values : v ∈ t.values ↔ ∃ k, t.lookup k = some v := by
  simp only [values, List.mem_map, Sigma.exists]
  constructor
  · rintro ⟨k,w,hmem,rfl⟩
    exact ⟨k,mem_lookup_iff.mpr hmem⟩
  · rintro ⟨k,hk⟩
    exact ⟨k,v,mem_lookup_iff.mp hk,rfl⟩

theorem lookup_retain {p : κ → α → Bool} :
    (t.retain p).lookup k = some v ↔ t.lookup k = some v ∧ p k v = true := by
  rw [← Option.mem_def, ← Option.mem_def, mem_lookup_iff, mem_lookup_iff, retain, List.mem_filter]

theorem lookup_insert_some {k' : κ} {v' : α} (h : (t.insert k' v').lookup k = some v) :
    k = k' ∧ v = v' ∨ k ≠ k' ∧ t.lookup k = some v := by
  by_cases hk : k = k'
  · subst hk
    rw [lookup_insert] at h
    exact Or.inl ⟨rfl,(Option.some.inj h).symm⟩
  · rw [lookup_insert_ne hk] at h
    exact Or.inr ⟨hk,h⟩

/-- `HashMap::get_mut`, with what is done to the value if there is one. -/
def modify (t : AList (fun _ : κ => α)) (k : κ) (f : α → α) : AList (fun _ : κ => α) :=
  match t.lookup k with
  | none => t
  | some v => t.insert k (f v)

theorem lookup_modify (t : AList (fun _ : κ => α)) (k : κ) (f : α → α) (k' : κ) :
    (t.modify k f).lookup k' = if k' = k then (t.lookup k).map f else t.lookup k' := by
  unfold modify
  by_cases hk : k' = k
  · subst hk
    rw [if_pos rfl]
    cases hv : t.lookup k' with
    | none => rw [hv, Option.map_none]
    | some v => rw [lookup_insert, Option.map_some]
  · rw [if_neg hk]
    cases t.lookup k with
    | none => rfl
    | some v => rw [lookup_insert_ne hk]

/-- A table with the entries of a list put in one after the other. -/
def insertAll (t : AList (fun _ : κ => α)) (l : List (Σ _ : κ, α)) : AList (fun _ : κ => α) :=
  l.foldl (fun t e => t.insert e.1 e.2) t

def eraseAll (t : AList (fun _ : κ => α)) (l : List κ) : AList (fun _ : κ => α) :=
  l.foldl (fun t k => t.erase k) t

theorem lookup_insertAll {l : List (Σ _ : κ, α)} (hl : l.NodupKeys)
    (t : AList (fun _ : κ => α)) (k : κ) : (t.insertAll l).lookup k = (l.dlookup k).or (t.lookup k) := by
  induction l generalizing t with
  | nil => rfl
  | cons e l ih =>
    obtain ⟨k',v'⟩ := e
    have hfresh := List.notMem_keys_of_nodupKeys_cons hl
    have hrest := ih (List.nodupKeys_of_nodupKeys_cons hl) (t.insert k' v')
    rw [insertAll] at hrest
    rw [insertAll, List.foldl_cons, hrest]
    by_cases hk : k = k'
    · subst hk
      rw [List.dlookup_eq_none.mpr hfresh, List.dlookup_cons_eq, lookup_insert]
      rfl
    · rw [List.dlookup_cons_ne _ _ hk, lookup_insert_ne hk]

theorem lookup_eraseAll (t : AList (fun _ : κ => α)) (l : List κ) (k : κ) :
    (t.eraseAll l).lookup k = if k ∈ l then none else t.lookup k := by
  induction l generalizing t with
  | nil => simp [eraseAll]
  | cons k' l ih =>
    have hrest := ih (t.erase k')
    rw [eraseAll] at hrest
    rw [eraseAll, List.foldl_cons, hrest]
    by_cases hk : k = k'
    · subst hk
      simp
    · rw [lookup_erase_ne hk]
      simp [hk]

theorem dlookup_filter (p : κ → Bool) (l : List (Σ _ : κ, α)) (k : κ) :
    (l.filter (fun e => p e.1)).dlookup k = if p k then l.dlookup k else none := by
  induction l with
  | nil => simp
  | cons e l ih =>
    obtain ⟨k',v⟩ := e
    rw [List.filter_cons]
    by_cases hk : k = k'
    · subst hk
      cases hp : p k with
      | true => simp
      | false => simp [ih, hp]
    · have hskip : ∀ rest : List (Σ _ : κ, α), List.dlookup k (⟨k',v⟩ :: rest) = rest.dlookup k :=
        fun rest => List.dlookup_cons_ne rest ⟨k',v⟩ hk
      cases hp : p k' with
      | true => simp only [if_true, hskip, ih]
      | false => simp only [Bool.false_eq_true, if_false, hskip, ih]

end Entries

section Sums

def sumOf (t : AList (fun _ : κ => α)) (f : κ → α → ℕ) : ℕ := (t.entries.map fun e => f e.1 e.2).sum

variable [DecidableEq κ]

def countOf (t : AList (fun _ : κ => α)) (f : κ → α → ℕ) (k : κ) : ℕ := ((t.lookup k).map (f k)).getD 0

variable {t : AList (fun _ : κ => α)} {f : κ → α → ℕ} {k : κ} {v : α}

theorem countOf_of_some (h : t.lookup k = some v) : t.countOf f k = f k v := by
  rw [countOf, h]
  rfl

theorem countOf_of_none (h : t.lookup k = none) : t.countOf f k = 0 := by
  rw [countOf, h]
  rfl

theorem sum_kerase (f : κ → α → ℕ) (k : κ) (l : List (Σ _ : κ, α)) :
    ((l.kerase k).map fun e => f e.1 e.2).sum + ((l.dlookup k).map (f k)).getD 0 =
      (l.map fun e => f e.1 e.2).sum := by
  induction l with
  | nil => rfl
  | cons e l ih =>
    obtain ⟨k',v'⟩ := e
    by_cases hk : k = k'
    · subst hk
      rw [show List.kerase k (⟨k,v'⟩ :: l) = l from List.kerase_cons_eq rfl, List.dlookup_cons_eq, Option.map_some, Option.getD_some, List.map_cons,
        List.sum_cons, Nat.add_comm]
    · rw [List.kerase_cons_ne hk, List.dlookup_cons_ne _ _ hk, List.map_cons, List.sum_cons, List.map_cons,
        List.sum_cons, ← ih, Nat.add_assoc]

/-- An insert trades the old count of its key for the new one. -/
theorem sumOf_insert (t : AList (fun _ : κ => α)) (f : κ → α → ℕ) (k : κ) (v : α) :
    (t.insert k v).sumOf f + t.countOf f k = t.sumOf f + f k v := by
  have hrest := sum_kerase f k t.entries
  rw [sumOf, sumOf, countOf, entries_insert, List.map_cons, List.sum_cons, ← hrest]
  change f k v + _ + ((t.entries.dlookup k).map (f k)).getD 0 = _
  omega

theorem sumOf_erase (t : AList (fun _ : κ => α)) (f : κ → α → ℕ) (k : κ) :
    (t.erase k).sumOf f + t.countOf f k = t.sumOf f := sum_kerase f k t.entries

theorem sumOf_congr {g : κ → α → ℕ} (h : ∀ k v, t.lookup k = some v → f k v = g k v) : t.sumOf f = t.sumOf g := by
  unfold sumOf
  congr 1
  exact List.map_congr_left fun e he => h e.1 e.2 (mem_lookup_iff.mpr he)

theorem sumOf_insert_getD (t : AList (fun _ : κ => α)) (v : α) {absent : α} (h : f k absent = 0) :
    (t.insert k v).sumOf f + f k ((t.lookup k).getD absent) = t.sumOf f + f k v := by
  have hcount : t.countOf f k = f k ((t.lookup k).getD absent) := by
    cases hv : t.lookup k with
    | none => rw [countOf_of_none hv, Option.getD_none, h]
    | some old => rw [countOf_of_some hv, Option.getD_some]
  rw [← hcount]
  exact sumOf_insert t f k v

/-- The part of one key is within the sum. -/
theorem countOf_le (t : AList (fun _ : κ => α)) (f : κ → α → ℕ) (k : κ) : t.countOf f k ≤ t.sumOf f := by
  have hrest := sum_kerase f k t.entries
  rw [sumOf, countOf, ← hrest]
  exact Nat.le_add_left _ _

omit [DecidableEq κ] in
theorem sumOf_add (t : AList (fun _ : κ => α)) (f g : κ → α → ℕ) :
    t.sumOf (fun k v => f k v + g k v) = t.sumOf f + t.sumOf g := by
  unfold sumOf
  exact List.sum_map_add

theorem sumOf_single (t : AList (fun _ : κ => α)) (f : κ → α → ℕ) (k : κ) :
    t.sumOf (fun k' v => if k' = k then f k' v else 0) = t.countOf f k := by
  have hcount : t.countOf (fun k' v => if k' = k then f k' v else 0) k = t.countOf f k := by simp [countOf]
  have hrest : (t.erase k).sumOf (fun k' v => if k' = k then f k' v else 0) = 0 := by
    rw [sumOf_congr (g := fun _ _ => 0)]
    · simp [sumOf]
    · intro k' v hv
      refine if_neg ?_
      rintro rfl
      rw [lookup_erase] at hv
      cases hv
  rw [← sumOf_erase t _ k, hcount, hrest, Nat.zero_add]

theorem sumOf_count (t : AList (fun _ : κ => α)) (f : κ → α → ℕ) (l : List κ) :
    t.sumOf (fun k v => l.count k * f k v) = (l.map (t.countOf f)).sum := by
  induction l with
  | nil => simp [sumOf]
  | cons k l ih =>
    have hsplit : t.sumOf (fun k' v => (k :: l).count k' * f k' v) =
        t.sumOf (fun k' v => (if k' = k then f k' v else 0) + l.count k' * f k' v) := by
      refine sumOf_congr (fun k' v _ => ?_)
      rw [List.count_cons]
      by_cases hk : k' = k
      · subst hk
        simp only [beq_self_eq_true, if_true]
        rw [Nat.add_mul, Nat.one_mul, Nat.add_comm]
      · have hne : (k == k') = false := beq_eq_false_iff_ne.mpr (Ne.symm hk)
        simp [hk, hne]
    rw [hsplit, sumOf_add, sumOf_single, ih, List.map_cons, List.sum_cons]

end Sums

end AList

namespace ZbxChain
variable {κ α β : Type*}

/-- The map `m` is `m₀`, written over at the keys of the entries `S`. -/
structure Overwrites (key : κ → α) (g : κ → β) (S : List κ) (m₀ m : α → β) : Prop where
  written : ∀ s ∈ S, m (key s) = g s
  kept : ∀ a, (∀ s ∈ S, key s ≠ a) → m a = m₀ a

namespace Overwrites
variable {key : κ → α} {g : κ → β} {S S' : List κ} {m₀ m m' : α → β}

theorem refl (key : κ → α) (g : κ → β) (m : α → β) : Overwrites key g [] m m := ⟨nofun,fun _ _ => rfl⟩

theorem snoc [DecidableEq α] (h : Overwrites key g S m₀ m) {s : κ} (hfresh : ∀ r ∈ S, key r ≠ key s) :
    m (key s) = m₀ (key s) ∧
      Overwrites key g (S ++ [s]) m₀ (Function.update m (key s) (g s)) := by
  refine ⟨h.kept _ hfresh,?_,?_⟩
  · intro r hr
    rcases List.mem_append.mp hr with hr | hr
    · rw [Function.update_of_ne (hfresh r hr), h.written r hr]
    · rw [List.mem_singleton.mp hr, Function.update_self]
  · intro a ha
    have hne : a ≠ key s := fun heq => ha s (by simp) heq.symm
    rw [Function.update_of_ne hne]
    exact h.kept a (fun r hr => ha r (List.mem_append_left _ hr))

theorem congr (h : Overwrites key g S m₀ m) (hmem : ∀ s, s ∈ S ↔ s ∈ S') :
    Overwrites key g S' m₀ m where
  written := fun s hs => h.written s ((hmem s).mpr hs)
  kept := fun a ha => h.kept a (fun s hs => ha s ((hmem s).mp hs))

theorem unique (h : Overwrites key g S m₀ m) (h' : Overwrites key g S m₀ m') : m = m' := by
  funext a
  by_cases ha : ∃ s ∈ S, key s = a
  · obtain ⟨s,hs,rfl⟩ := ha
    rw [h.written s hs, h'.written s hs]
  · have hfree : ∀ s ∈ S, key s ≠ a := fun s hs heq => ha ⟨s,hs,heq⟩
    rw [h.kept a hfree, h'.kept a hfree]

end Overwrites

theorem Overwrites.eq_of_same {γ : Type*} {key : κ → α} {g g' : κ → Option γ} {S S' : List κ}
    {m : α → Option γ} (hinj : Set.InjOn key {s | s ∈ S ∨ s ∈ S'})
    (h : Overwrites key g S (fun _ => none) m) (h' : Overwrites key g' S' (fun _ => none) m)
    (hmem : ∀ s, g s ≠ none → s ∈ S) (hmem' : ∀ s, g' s ≠ none → s ∈ S') : g = g' := by
  have hread : ∀ {f f' : κ → Option γ} {T T' : List κ}, (∀ s, s ∈ T ∨ s ∈ T' → s ∈ S ∨ s ∈ S') →
      Overwrites key f T (fun _ => none) m → Overwrites key f' T' (fun _ => none) m →
      ∀ s, s ∈ T → f s ≠ none → f' s = f s := by
    intro f f' T T' hsub hf hf' s hs hne
    have hvalue := hf.written s hs
    by_cases hs' : s ∈ T'
    · rw [← hf'.written s hs', hvalue]
    · refine absurd (hvalue.symm.trans (hf'.kept (key s) ?_)) hne
      intro r hr heq
      have hrs := hinj (hsub r (Or.inr hr)) (hsub s (Or.inl hs)) heq
      exact hs' (hrs ▸ hr)
  funext s
  by_cases hs : g s = none
  · by_cases hs' : g' s = none
    · rw [hs, hs']
    · exact hread (fun _ hr => hr.symm) h' h s (hmem' s hs') hs'
  · exact (hread (fun _ hr => hr) h h' s (hmem s hs) hs).symm

/-- Two runs of writes that agree wherever a value is not the default give one map. -/
theorem Overwrites.ext {γ : Type*} {key : κ → α} {g : κ → Option γ} {S S' : List κ}
    {m m' : α → Option γ} (h : Overwrites key g S (fun _ => none) m)
    (h' : Overwrites key g S' (fun _ => none) m') (hmem : ∀ s, g s ≠ none → s ∈ S ∧ s ∈ S') :
    m = m' := by
  have hwhere : ∀ {T n}, Overwrites key g T (fun _ => none) n → ∀ a, n a ≠ none →
      ∃ s, g s ≠ none ∧ key s = a := by
    intro T n hn a ha
    by_contra hnone
    refine ha (hn.kept a (fun s hs heq => hnone ⟨s,?_,heq⟩))
    rwa [← hn.written s hs, heq]
  funext a
  by_cases ha : ∃ s, g s ≠ none ∧ key s = a
  · obtain ⟨s,hs,rfl⟩ := ha
    rw [h.written s (hmem s hs).1, h'.written s (hmem s hs).2]
  · have hnone : m a = none := not_not.mp (fun hne => ha (hwhere h a hne))
    have hnone' : m' a = none := not_not.mp (fun hne => ha (hwhere h' a hne))
    rw [hnone, hnone']

/-- A map holds the entries `g`, each under its key. -/
def Keyed (key : κ → α) (g : κ → Option β) (m : α → Option β) : Prop :=
  ∀ a b, m a = some b ↔ ∃ s, key s = a ∧ g s = some b

namespace Keyed
variable {key : κ → α} {g g₀ : κ → Option β} {m m₀ : α → Option β} {S : List κ}

theorem empty (key : κ → α) : Keyed key (fun _ => (none : Option β)) (fun _ => none) := by
  intro a b
  constructor
  · exact nofun
  · rintro ⟨s,-,hs⟩
    cases hs

theorem eq_none_iff (h : Keyed key g m) : m = (fun _ => none) ↔ ∀ s, g s = none := by
  constructor
  · intro hm s
    cases hs : g s with
    | none => rfl
    | some b =>
      have hsome := (h (key s) b).mpr ⟨s,rfl,hs⟩
      rw [hm] at hsome
      cases hsome
  · intro hg
    funext a
    rw [Option.eq_none_iff_forall_ne_some]
    intro b hb
    obtain ⟨s,-,hs⟩ := (h a b).mp hb
    rw [hg s] at hs
    cases hs

theorem overwritten (h : Keyed key g₀ m₀) (hover : Overwrites key g S m₀ m)
    (hinj : Set.InjOn key {s | s ∈ S ∨ g₀ s ≠ none}) {g' : κ → Option β}
    (hin : ∀ s ∈ S, g' s = g s) (hout : ∀ s, s ∉ S → g' s = g₀ s) : Keyed key g' m := by
  intro a b
  by_cases ha : ∃ s ∈ S, key s = a
  · obtain ⟨s,hs,rfl⟩ := ha
    rw [hover.written s hs]
    constructor
    · exact fun hb => ⟨s,rfl,by rw [hin s hs, hb]⟩
    · rintro ⟨r,hr,hb⟩
      have hentry : r ∈ S ∨ g₀ r ≠ none := by
        by_cases hrS : r ∈ S
        · exact Or.inl hrS
        · rw [hout r hrS] at hb
          exact Or.inr (fun hnone => by rw [hnone] at hb; cases hb)
      have hsame : r = s := hinj hentry (Or.inl hs) hr
      rwa [hsame, hin s hs] at hb
  · have hfresh : ∀ s ∈ S, key s ≠ a := fun s hs heq => ha ⟨s,hs,heq⟩
    rw [hover.kept a hfresh, h a b]
    constructor
    · rintro ⟨s,hs,hb⟩
      exact ⟨s,hs,by rwa [hout s (fun hmem => hfresh s hmem hs)]⟩
    · rintro ⟨s,hs,hb⟩
      rw [hout s (fun hmem => hfresh s hmem hs)] at hb
      exact ⟨s,hs,hb⟩

end Keyed

end ZbxChain
