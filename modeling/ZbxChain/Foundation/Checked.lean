import Mathlib.Init

/-! # Results of checks made one after the other

When a chain of computations that can fail ends well, each of them did.
-/
namespace ZbxChain.Checked
variable {ε ε' α β : Type} {e : ε} {x : Except ε α} {b : β}

/-- A chain of checks passes through the value of its first part. -/
theorem bind_eq_ok {f : α → Except ε β} : (x >>= f) = .ok b ↔ ∃ a, x = .ok a ∧ f a = .ok b := by
  cases x with
  | error e =>
    constructor
    · intro h
      cases h
    · rintro ⟨a,h,-⟩
      cases h
  | ok a =>
    constructor
    · intro h
      exact ⟨a,rfl,h⟩
    · rintro ⟨a',h,hf⟩
      cases h
      exact hf

theorem throw_ne_ok {a : α} : (throw e : Except ε α) ≠ .ok a := by
  intro h
  cases h

/-- A guard that throws has passed if what follows it has an answer. -/
theorem ensure_eq_ok {c : Prop} [Decidable c] {f : PUnit → Except ε β} :
    (if c then (throw e >>= f) else f ⟨⟩) = .ok b ↔ ¬ c ∧ f ⟨⟩ = .ok b := by
  by_cases hc : c
  · rw [if_pos hc]
    constructor
    · intro h
      cases h
    · exact fun h => absurd hc h.1
  · rw [if_neg hc]
    exact ⟨fun h => ⟨hc,h⟩,fun h => h.2⟩

theorem test_eq_ok {c : Prop} [Decidable c] {y : Except ε β} :
    (if c then throw e else y) = .ok b ↔ ¬ c ∧ y = .ok b := by
  by_cases hc : c
  · rw [if_pos hc]
    exact ⟨fun h => absurd h throw_ne_ok,fun h => absurd hc h.1⟩
  · rw [if_neg hc]
    exact ⟨fun h => ⟨hc,h⟩,fun h => h.2⟩

theorem mapError_eq_ok {g : ε → ε'} {a : α} : x.mapError g = .ok a ↔ x = .ok a := by
  cases x with
  | error e =>
    constructor
    · intro h
      cases h
    · intro h
      cases h
  | ok a' =>
    constructor
    · intro h
      cases h
      rfl
    · intro h
      cases h
      rfl

theorem pure_eq_ok {a a' : α} : (pure a : Except ε α) = .ok a' ↔ a = a' := by
  constructor
  · intro h
    cases h
    rfl
  · intro h
    rw [h]
    rfl

end ZbxChain.Checked
