import Mathlib.Algebra.Order.BigOperators.Group.Finset

/-! # Sums over epochs

A quantity that only depends on the epoch, summed over the heights of the epochs.
-/
namespace ZbxChain.Epochs

variable {M : Type*} [AddCommMonoid M] (f : ℕ → M) {len : ℕ}

theorem sum_epoch (q : ℕ) {r : ℕ} (hr : r ≤ len) :
    ∑ i ∈ Finset.range r, f ((q * len + i) / len) = r • f q := by
  have hconst : ∀ i ∈ Finset.range r, f ((q * len + i) / len) = f q := by
    intro i hi
    have hlt : i < len := (Finset.mem_range.mp hi).trans_le hr
    rw [Nat.mul_comm, Nat.mul_add_div (Nat.zero_lt_of_lt hlt), Nat.div_eq_of_lt hlt, Nat.add_zero]
  rw [Finset.sum_congr rfl hconst, Finset.sum_const, Finset.card_range]

theorem sum_heights (q : ℕ) {r : ℕ} (hr : r ≤ len) :
    ∑ h ∈ Finset.range (q * len + r), f (h / len) = len • ∑ i ∈ Finset.range q, f i + r • f q := by
  induction q generalizing r with
  | zero => simpa using sum_epoch f 0 hr
  | succ q ih =>
    have hstart : (q + 1) * len = q * len + len := Nat.succ_mul q len
    rw [Finset.sum_range_add, sum_epoch f (q + 1) hr, hstart, ih le_rfl, Finset.sum_range_succ, nsmul_add]

end ZbxChain.Epochs
