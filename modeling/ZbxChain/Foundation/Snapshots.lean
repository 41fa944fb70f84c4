import Mathlib.Data.List.Basic

/-! # Snapshots that are kept on a stack

A snapshot is committed, which keeps the changes made since, or reverted to, which takes them
back together with the snapshots above it. A journal says what holds between two states of a
run with such snapshots; a stack of snapshots that is kept as documented gives one.
-/
namespace ZbxChain

/-- The operations on the states `σ`, with identifiers `ι`. -/
structure SnapshotOps (ι σ : Type) where
  snapshot : σ → ι × σ
  revertTo : ι → σ → σ
  commit : ι → σ → σ

/-- Relations between an earlier state and a later one: nothing happened; the same snapshots
are open; these and one more, under its identifier; these and maybe more. -/
structure Journal {ι σ : Type} (O : SnapshotOps ι σ) where
  same : σ → σ → Prop
  kept : σ → σ → Prop
  opened : ι → σ → σ → Prop
  broken : σ → σ → Prop
  same_refl : ∀ s, same s s
  same_trans : ∀ {s₁ s₂ s₃}, same s₁ s₂ → same s₂ s₃ → same s₁ s₃
  kept_of_same : ∀ {s₁ s₂}, same s₁ s₂ → kept s₁ s₂
  kept_trans : ∀ {s₁ s₂ s₃}, kept s₁ s₂ → kept s₂ s₃ → kept s₁ s₃
  broken_of_kept : ∀ {s₁ s₂}, kept s₁ s₂ → broken s₁ s₂
  broken_of_opened : ∀ {i s₁ s₂}, opened i s₁ s₂ → broken s₁ s₂
  broken_trans : ∀ {s₁ s₂ s₃}, broken s₁ s₂ → broken s₂ s₃ → broken s₁ s₃
  opened_snapshot : ∀ s, opened (O.snapshot s).1 s (O.snapshot s).2
  opened_kept : ∀ {i s₁ s₂ s₃}, opened i s₁ s₂ → kept s₂ s₃ → opened i s₁ s₃
  same_revertTo : ∀ {i s₁ s₂ s₃}, opened i s₁ s₂ → broken s₂ s₃ → same s₁ (O.revertTo i s₃)
  kept_commit : ∀ {i s₁ s₂}, opened i s₁ s₂ → kept s₁ (O.commit i s₂)

namespace Journal
variable {ι σ ω : Type} {O : SnapshotOps ι σ}

instance (J : Journal O) : IsPreorder σ J.same where
  refl := J.same_refl
  trans _ _ _ := J.same_trans

instance (J : Journal O) : IsPreorder σ J.kept where
  refl s := J.kept_of_same (J.same_refl s)
  trans _ _ _ := J.kept_trans

/-- Nothing is asked of the operations. -/
def free (O : SnapshotOps ι σ) : Journal O where
  same _ _ := True
  kept _ _ := True
  opened _ _ _ := True
  broken _ _ := True
  same_refl _ := trivial
  same_trans _ _ := trivial
  kept_of_same _ := trivial
  kept_trans _ _ := trivial
  broken_of_kept _ := trivial
  broken_of_opened _ := trivial
  broken_trans _ _ := trivial
  opened_snapshot _ := trivial
  opened_kept _ _ := trivial
  same_revertTo _ _ := trivial
  kept_commit _ := trivial

end Journal

/-- The documented discipline, over what a snapshot holds of a state and the open snapshots,
the last one first: a snapshot has an identifier of its own, a commit drops it, and a revert
drops those above it as well and brings back what it holds. -/
structure Disciplined {ι σ ω : Type} (O : SnapshotOps ι σ) (world : σ → ω) (stack : σ → List (ι × ω)) : Prop where
  fresh : ∀ s, (O.snapshot s).1 ∉ (stack s).map Prod.fst
  stack_snapshot : ∀ s, stack (O.snapshot s).2 = ((O.snapshot s).1,world s) :: stack s
  world_revertTo : ∀ {s above below i w}, stack s = above ++ (i,w) :: below → i ∉ above.map Prod.fst →
    world (O.revertTo i s) = w
  stack_revertTo : ∀ {s above below i w}, stack s = above ++ (i,w) :: below → i ∉ above.map Prod.fst →
    stack (O.revertTo i s) = below
  stack_commit : ∀ {s above below i w}, stack s = above ++ (i,w) :: below → i ∉ above.map Prod.fst →
    stack (O.commit i s) = above ++ below

namespace Disciplined
variable {ι σ ω : Type} {O : SnapshotOps ι σ} {world : σ → ω} {stack : σ → List (ι × ω)}

def Above (extra below : List (ι × ω)) : Prop := ∀ i ∈ extra.map Prod.fst, i ∉ below.map Prod.fst

theorem Above.append {extra extra' below : List (ι × ω)} (h : Above extra below) (h' : Above extra' (extra ++ below)) :
    Above (extra' ++ extra) below := by
  intro i hi
  rw [List.map_append, List.mem_append] at hi
  rcases hi with hi | hi
  · have hout := h' i hi
    rw [List.map_append, List.mem_append] at hout
    exact fun hbelow => hout (Or.inr hbelow)
  · exact h i hi

/-- The journal of a disciplined stack, where a change that `E` allows counts for none. -/
def journal (hO : Disciplined O world stack) (E : ω → ω → Prop) [IsPreorder ω E] : Journal O where
  same s s' := E (world s) (world s') ∧ stack s' = stack s
  kept s s' := stack s' = stack s
  opened i s s' := stack s' = (i,world s) :: stack s ∧ i ∉ (stack s).map Prod.fst
  broken s s' := ∃ extra, stack s' = extra ++ stack s ∧ Above extra (stack s)
  same_refl s := ⟨Std.Refl.refl _,rfl⟩
  same_trans h h' := ⟨IsTrans.trans _ _ _ h.1 h'.1,h'.2.trans h.2⟩
  kept_of_same h := h.2
  kept_trans h h' := h'.trans h
  broken_of_kept h := ⟨[],h,by rintro i ⟨⟩⟩
  broken_of_opened := by
    rintro i s₁ s₂ ⟨hstack,hfresh⟩
    refine ⟨[(i,world s₁)],hstack,?_⟩
    intro j hj
    rw [List.map_singleton, List.mem_singleton] at hj
    exact hj ▸ hfresh
  broken_trans := by
    rintro s₁ s₂ s₃ ⟨extra,hstack,habove⟩ ⟨extra',hstack',habove'⟩
    rw [hstack] at hstack' habove'
    exact ⟨extra' ++ extra,hstack'.trans (List.append_assoc _ _ _).symm,habove.append habove'⟩
  opened_snapshot s := ⟨hO.stack_snapshot s,hO.fresh s⟩
  opened_kept h hkept := ⟨hkept.trans h.1,h.2⟩
  same_revertTo := by
    rintro i s₁ s₂ s₃ ⟨hstack,-⟩ ⟨extra,hstack',habove⟩
    rw [hstack] at hstack' habove
    have hout : i ∉ extra.map Prod.fst := fun hi => habove i hi (by simp)
    exact ⟨by rw [hO.world_revertTo hstack' hout]; exact Std.Refl.refl _,hO.stack_revertTo hstack' hout⟩
  kept_commit := by
    rintro i s₁ s₂ ⟨hstack,-⟩
    have hlast : stack s₂ = [] ++ (i,world s₁) :: stack s₁ := hstack
    exact hO.stack_commit hlast List.not_mem_nil

end Disciplined

end ZbxChain
