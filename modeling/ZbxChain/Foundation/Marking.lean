import Mathlib.Data.Finset.Insert

/-! # Marking what is reachable

References lead to nodes, and nodes to further references. A traversal keeps the keys of the nodes
it has been at and a list of references to go on with; it does not visit a key twice. Several
references may have one key, and then what the second one would have led to is only marked if the
references agree.
-/
namespace ZbxChain.Marking

variable {ρ κ : Type*}

/-- A node leads to a reference: it is among the links of the node and does not stand for nothing. -/
def Link (null : ρ → Prop) (links : ρ → Option (List ρ)) (r s : ρ) : Prop :=
  ∃ l, links r = some l ∧ s ∈ l ∧ ¬ null s

def Reached (null : ρ → Prop) (links : ρ → Option (List ρ)) (roots : ρ → Prop) (s : ρ) : Prop :=
  ∃ root, roots root ∧ ¬ null root ∧ Relation.ReflTransGen (Link null links) root s

/-- Reached references with one key lead to the same keys. -/
def Agrees (key : ρ → κ) (null : ρ → Prop) (links : ρ → Option (List ρ)) (roots : ρ → Prop) : Prop :=
  ∀ r r' s, Reached null links roots r → Reached null links roots r' → key r = key r' → Link null links r s →
    ∀ l, links r' = some l → ∃ s' ∈ l, ¬ null s' ∧ key s' = key s

def Grows (links links' : ρ → Option (List ρ)) : Prop := ∀ r l, links r = some l → links' r = some l

structure Traversal (ρ κ : Type*) where
  live : Finset κ
  calls : List ρ

/-- The traversal has been at the references `V`. -/
structure Marked (key : ρ → κ) (null : ρ → Prop) (links : ρ → Option (List ρ)) (roots : ρ → Prop)
    (m : Traversal ρ κ) (V : Set ρ) : Prop where
  live_iff : ∀ k, k ∈ m.live ↔ ∃ r ∈ V, key r = k
  reached : ∀ r ∈ V, Reached null links roots r
  followed : ∀ r ∈ V, ∃ l, links r = some l ∧ ∀ s ∈ l, null s ∨ key s ∈ m.live ∨ s ∈ m.calls
  calls_reached : ∀ s ∈ m.calls, null s ∨ Reached null links roots s
  roots_marked : ∀ root, roots root → null root ∨ key root ∈ m.live ∨ root ∈ m.calls

variable {key : ρ → κ} {null : ρ → Prop} {links links' : ρ → Option (List ρ)} {roots : ρ → Prop} {r s : ρ}
  {calls : List ρ} {live : Finset κ} {V : Set ρ}

theorem Link.mono (hgrow : Grows links links') (h : Link null links r s) : Link null links' r s := by
  obtain ⟨l,hl,hs⟩ := h
  exact ⟨l,hgrow r l hl,hs⟩

theorem Reached.mono (hgrow : Grows links links') (h : Reached null links roots s) : Reached null links' roots s := by
  obtain ⟨root,hroot,hne,hpath⟩ := h
  exact ⟨root,hroot,hne,hpath.lift id fun _ _ => Link.mono hgrow⟩

theorem Reached.tail (h : Reached null links roots r) (hlink : Link null links r s) : Reached null links roots s := by
  obtain ⟨root,hroot,hne,hpath⟩ := h
  exact ⟨root,hroot,hne,hpath.tail hlink⟩

theorem Reached.not_null (h : Reached null links roots s) : ¬ null s := by
  obtain ⟨root,-,hne,hpath⟩ := h
  cases hpath with
  | refl => exact hne
  | tail _ hlink =>
    obtain ⟨-,-,-,hne⟩ := hlink
    exact hne

namespace Marked

theorem start {l : List ρ} (hl : ∀ root, roots root ↔ root ∈ l) : Marked key null links roots ⟨∅,l⟩ ∅ where
  live_iff k := by simp
  reached := nofun
  followed := nofun
  calls_reached s hs := or_iff_not_imp_left.mpr fun hne => ⟨s,(hl s).mpr hs,hne,.refl⟩
  roots_marked root hroot := .inr (.inr ((hl root).mp hroot))

theorem mono {m : Traversal ρ κ} (h : Marked key null links roots m V) (hgrow : Grows links links') :
    Marked key null links' roots m V where
  live_iff := h.live_iff
  reached r hr := (h.reached r hr).mono hgrow
  followed r hr := by
    obtain ⟨l,hl,hfollow⟩ := h.followed r hr
    exact ⟨l,hgrow r l hl,hfollow⟩
  calls_reached s hs := (h.calls_reached s hs).imp_right (Reached.mono hgrow)
  roots_marked := h.roots_marked

theorem drop (h : Marked key null links roots ⟨live,r :: calls⟩ V) (hdone : null r ∨ key r ∈ live) :
    Marked key null links roots ⟨live,calls⟩ V := by
  have hrest : ∀ s, null s ∨ key s ∈ live ∨ s ∈ r :: calls → null s ∨ key s ∈ live ∨ s ∈ calls := by
    rintro s (hs | hs | hs)
    · exact .inl hs
    · exact .inr (.inl hs)
    · rcases List.mem_cons.mp hs with rfl | hs
      · exact hdone.imp_right .inl
      · exact .inr (.inr hs)
  refine ⟨h.live_iff,h.reached,fun s hs => ?_,fun s hs => h.calls_reached s (List.mem_cons_of_mem _ hs),
    fun root hroot => hrest root (h.roots_marked root hroot)⟩
  obtain ⟨l,hl,hfollow⟩ := h.followed s hs
  exact ⟨l,hl,fun s' hs' => hrest s' (hfollow s' hs')⟩

theorem visit [DecidableEq κ] (h : Marked key null links roots ⟨live,r :: calls⟩ V) (hne : ¬ null r) {l : List ρ}
    (hl : links r = some l) : Marked key null links roots ⟨insert (key r) live,l ++ calls⟩ (insert r V) := by
  have hreached : Reached null links roots r := (h.calls_reached r List.mem_cons_self).resolve_left hne
  have hrest : ∀ s, null s ∨ key s ∈ live ∨ s ∈ r :: calls →
      null s ∨ key s ∈ insert (key r) live ∨ s ∈ l ++ calls := by
    rintro s (hs | hs | hs)
    · exact .inl hs
    · exact .inr (.inl (Finset.mem_insert_of_mem hs))
    · rcases List.mem_cons.mp hs with rfl | hs
      · exact .inr (.inl (Finset.mem_insert_self ..))
      · exact .inr (.inr (List.mem_append_right _ hs))
  refine ⟨fun k => ?_,?_,?_,fun s hs => ?_,fun root hroot => hrest root (h.roots_marked root hroot)⟩
  · rw [Finset.mem_insert, h.live_iff]
    simp [eq_comm]
  · rintro s (rfl | hs)
    · exact hreached
    · exact h.reached s hs
  · rintro s (rfl | hs)
    · exact ⟨l,hl,fun s hs => .inr (.inr (List.mem_append_left _ hs))⟩
    · obtain ⟨l',hl',hfollow⟩ := h.followed s hs
      exact ⟨l',hl',fun s' hs' => hrest s' (hfollow s' hs')⟩
  · rcases List.mem_append.mp hs with hs | hs
    · exact or_iff_not_imp_left.mpr fun hne' => hreached.tail ⟨l,hl,hs,hne'⟩
    · exact h.calls_reached s (List.mem_cons_of_mem _ hs)

/-- Where no work is left, all that is reached is live. -/
theorem complete (h : Marked key null links roots ⟨live,[]⟩ V) (hagrees : Agrees key null links roots)
    (hs : Reached null links roots s) : key s ∈ live := by
  obtain ⟨root,hroot,hne,hpath⟩ := hs
  induction hpath with
  | refl => exact ((h.roots_marked root hroot).resolve_left hne).resolve_right List.not_mem_nil
  | tail hpath hlink ih =>
    -- the traversal may have come to the node by another reference
    obtain ⟨r',hr',hkey⟩ := (h.live_iff _).mp ih
    obtain ⟨l,hl,hfollow⟩ := h.followed r' hr'
    obtain ⟨s',hs',hne',hsame⟩ :=
      hagrees _ r' _ ⟨root,hroot,hne,hpath⟩ (h.reached r' hr') hkey.symm hlink l hl
    rw [← hsame]
    exact ((hfollow s' hs').resolve_left hne').resolve_right List.not_mem_nil

/-- What is live has been reached. -/
theorem sound (h : Marked key null links roots ⟨live,calls⟩ V) {k : κ} (hk : k ∈ live) :
    ∃ r, key r = k ∧ Reached null links roots r := by
  obtain ⟨r,hr,hkey⟩ := (h.live_iff k).mp hk
  exact ⟨r,hkey,h.reached r hr⟩

end Marked

end ZbxChain.Marking
