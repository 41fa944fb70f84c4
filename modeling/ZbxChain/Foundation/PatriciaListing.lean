import Mathlib.Data.List.Pairwise
import ZbxChain.Foundation.Patricia

/-! # Listing a Patricia tree

A walk that goes through the children of a branch, letter by letter, before it comes to the value
of the branch itself lists every word once, and a word after all those it is a prefix of. So it
lists the words in lexicographic order just when none of them is a prefix of another.
-/
namespace ZbxChain

section Order
variable {α : Type*} [LT α] {xs ys : List α}

/-- The lexicographic order, but for a word that comes after those it is a prefix of. -/
def Before : List α → List α → Prop
  | _ :: _, [] => True
  | a :: xs, b :: ys => a < b ∨ a = b ∧ Before xs ys
  | [], _ => False

theorem Before.append_left (h : Before xs ys) (p : List α) : Before (p ++ xs) (p ++ ys) := by
  induction p with
  | nil => exact h
  | cons a p ih => exact Or.inr ⟨rfl,ih⟩

theorem Before.lt_or_prefix (h : Before xs ys) : xs < ys ∨ ys <+: xs := by
  induction xs generalizing ys with
  | nil => exact h.elim
  | cons a xs ih =>
    cases ys with
    | nil => exact Or.inr List.nil_prefix
    | cons b ys =>
      rcases h with hlt | ⟨rfl,h⟩
      · exact Or.inl (List.cons_lt_cons_iff.mpr (Or.inl hlt))
      · rcases ih h with hlt | hpre
        · exact Or.inl (List.cons_lt_cons_iff.mpr (Or.inr ⟨rfl,hlt⟩))
        · exact Or.inr ((List.prefix_cons_inj a).mpr hpre)

variable [Std.Irrefl (α := α) (· < ·)]

theorem Before.not_prefix (h : Before xs ys) : ¬ xs <+: ys := by
  induction xs generalizing ys with
  | nil => exact h.elim
  | cons a xs ih =>
    intro hpre
    cases ys with
    | nil => exact List.cons_ne_nil a xs (List.prefix_nil.mp hpre)
    | cons b ys =>
      obtain ⟨rfl,hpre'⟩ := List.cons_prefix_cons.mp hpre
      rcases h with hlt | ⟨-,h⟩
      · exact Std.Irrefl.irrefl (r := (· < ·)) a hlt
      · exact ih h hpre'

theorem not_lt_of_isPrefix (h : ys <+: xs) : ¬ xs < ys := by
  induction ys generalizing xs with
  | nil => exact List.not_lt_nil xs
  | cons b ys ih =>
    cases xs with
    | nil => exact absurd (List.prefix_nil.mp h) (List.cons_ne_nil b ys)
    | cons a xs =>
      obtain ⟨rfl,hpre⟩ := List.cons_prefix_cons.mp h
      intro hlt
      rcases List.cons_lt_cons_iff.mp hlt with hlt | ⟨-,hlt⟩
      · exact Std.Irrefl.irrefl (r := (· < ·)) b hlt
      · exact ih hpre hlt

theorem pairwise_lt_iff {l : List (List α)} (h : l.Pairwise Before) :
    l.Pairwise (· < ·) ↔ ∀ x ∈ l, ∀ y ∈ l, x <+: y → x = y := by
  constructor
  · intro hlt
    have happart : l.Pairwise fun x y => (x <+: y → x = y) ∧ (y <+: x → y = x) := by
      refine (h.and hlt).imp ?_
      rintro x y ⟨hbefore,hlt⟩
      exact ⟨fun hpre => absurd hpre hbefore.not_prefix,fun hpre => absurd hlt (not_lt_of_isPrefix hpre)⟩
    have hsymm : Std.Symm fun x y : List α => (x <+: y → x = y) ∧ (y <+: x → y = x) := ⟨fun _ _ h => h.symm⟩
    intro x hx y hy
    exact (happart.forall_of_forall (fun x _ => ⟨fun _ => rfl,fun _ => rfl⟩) hx hy).1
  · intro hfree
    refine h.imp_of_mem ?_
    intro x y hx hy hbefore
    rcases hbefore.lt_or_prefix with hlt | hpre
    · exact hlt
    · obtain rfl := hfree y hy x hx hpre
      exact absurd hpre hbefore.not_prefix

end Order

namespace Patricia
variable {α β : Type*} (letters : List α)

def listing : Patricia α β → List (List α × β)
  | empty => []
  | leaf path value => [(path,value)]
  | ext path child => (listing child).map fun e => (path ++ e.1,e.2)
  | branch children value =>
    (letters.flatMap fun a => (listing (children a)).map fun e => (a :: e.1,e.2)) ++
      value.toList.map fun v => ([],v)

variable {letters} [DecidableEq α]

/-- The listing has the entries of the map. -/
theorem mem_listing (hall : ∀ a, a ∈ letters) {t : Patricia α β} {word : List α} {v : β} :
    (word,v) ∈ t.listing letters ↔ t.get word = some v := by
  induction t generalizing word with
  | empty => simp [listing]
  | leaf path value =>
    rw [listing, List.mem_singleton, get_leaf, Prod.mk.injEq]
    constructor
    · rintro ⟨rfl,rfl⟩
      exact if_pos rfl
    · intro h
      split at h
      · rename_i hword
        exact ⟨hword,(Option.some.inj h).symm⟩
      · cases h
  | ext path child ih =>
    rw [listing, get_ext, List.mem_map, Option.bind_eq_some_iff]
    constructor
    · rintro ⟨⟨rest,v'⟩,hmem,heq⟩
      cases heq
      exact ⟨rest,dropPrefix?_append path rest,ih.mp hmem⟩
    · rintro ⟨rest,hdrop,hget⟩
      refine ⟨(rest,v),ih.mpr hget,?_⟩
      rw [dropPrefix?_eq_some.mp hdrop]
  | branch children value ih =>
    rw [listing, List.mem_append, List.mem_flatMap, List.mem_map]
    cases word with
    | nil =>
      rw [get_branch_nil]
      constructor
      · rintro (⟨a,-,hmem⟩ | ⟨w,hw,heq⟩)
        · obtain ⟨e,-,heq⟩ := List.mem_map.mp hmem
          cases heq
        · cases heq
          exact Option.mem_toList.mp hw
      · intro h
        exact Or.inr ⟨v,Option.mem_toList.mpr h,rfl⟩
    | cons a rest =>
      rw [get_branch_cons]
      constructor
      · rintro (⟨b,-,hmem⟩ | ⟨w,-,heq⟩)
        · obtain ⟨e,he,heq⟩ := List.mem_map.mp hmem
          cases heq
          exact (ih _).mp he
        · cases heq
      · intro h
        exact Or.inl ⟨a,hall a,List.mem_map.mpr ⟨(rest,v),(ih a).mpr h,rfl⟩⟩

omit [DecidableEq α] in
/-- The listing is in order, where a word comes behind the longer ones it begins. -/
theorem pairwise_listing [LT α] (hsorted : letters.Pairwise (· < ·)) (t : Patricia α β) :
    (t.listing letters).Pairwise fun e e' => Before e.1 e'.1 := by
  induction t with
  | empty => exact List.Pairwise.nil
  | leaf path value => exact List.pairwise_singleton _ _
  | ext path child ih =>
    rw [listing, List.pairwise_map]
    exact ih.imp fun h => h.append_left path
  | branch children value ih =>
    rw [listing, List.pairwise_append, List.pairwise_flatMap]
    refine ⟨⟨?_,?_⟩,?_,?_⟩
    · intro a _
      rw [List.pairwise_map]
      exact (ih a).imp fun h => Or.inr ⟨rfl,h⟩
    · refine hsorted.imp ?_
      intro a b hlt x hx y hy
      obtain ⟨e,-,rfl⟩ := List.mem_map.mp hx
      obtain ⟨e',-,rfl⟩ := List.mem_map.mp hy
      exact Or.inl hlt
    · cases value with
      | none => exact List.Pairwise.nil
      | some v => exact List.pairwise_singleton _ _
    · intro x hx y hy
      obtain ⟨a,-,hx⟩ := List.mem_flatMap.mp hx
      obtain ⟨e,-,rfl⟩ := List.mem_map.mp hx
      obtain ⟨v,-,rfl⟩ := List.mem_map.mp hy
      trivial

end Patricia

end ZbxChain
