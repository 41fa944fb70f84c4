import ZbxChain.Execution.Phases
import ZbxChain.Zvm.Effects

/-! # What a failed call costs

The executor takes no snapshot before a call runs. A call that fails pays its fee, and gets its
value back; what its code did to the view before it failed stays, and its logs go into the
receipt. Precompiles and the EVM do not touch the view at all.
-/
namespace ZbxChain
open StateProgram

section Views

/-- Accounts, words and deletions are the same but for the balance of one account. -/
structure SameBut (addr : Address) (v w : ExecView) : Prop where
  others : ∀ a, a ≠ addr → w.getAccount a = v.getAccount a
  self : w.getAccount addr = { v.getAccount addr with balance := (w.getAccount addr).balance }
  words : ∀ a slot, w.state.getStorage a slot = v.state.getStorage a slot
  deleted : ∀ a, a ∈ w.state.toDelete ↔ a ∈ v.state.toDelete

variable {view v w : ExecView} {addr : Address} {state : AccountState}

theorem SameBut.refl (addr : Address) (v : ExecView) : SameBut addr v v :=
  ⟨fun _ _ => rfl,rfl,fun _ _ => rfl,fun _ => Iff.rfl⟩

theorem SameBut.trans {u : ExecView} (h : SameBut addr u v) (h' : SameBut addr v w) : SameBut addr u w := by
  refine ⟨fun a ha => (h'.others a ha).trans (h.others a ha),?_,
    fun a slot => (h'.words a slot).trans (h.words a slot),fun a => (h'.deleted a).trans (h.deleted a)⟩
  rw [h'.self, h.self]

end Views

section Calls
variable {P : Platform} {M : Machines} {tx : SignedTransaction} {header : BlockHeader} {view : ExecView}

end Calls

section RevertedCalls

end RevertedCalls

end ZbxChain
