import Mathlib.Order.Interval.Finset.Nat
import ZbxChain.Execution.Executor
import ZbxChain.Foundation.Epochs

/-! # The block rewards and the supply cap

The rewards halve at every interval and sum up to less than twice the first interval, which
is more than the cap.
-/
namespace ZbxChain

def totalSupply : ℕ := 150000000 * 10 ^ 18

/-- The rewards of the heights from 1 to `H`. -/
def minted (H : UInt64) : ℕ := ∑ h ∈ Finset.Icc 1 H.toNat, blockRewardAt (UInt64.ofNat h)

section Sum

theorem blockRewardAt_eq (height : UInt64) :
    blockRewardAt height = initialBlockReward / 2 ^ (height.toNat / halvingInterval) := by
  unfold blockRewardAt
  dsimp only
  split
  · rename_i h
    symm
    apply Nat.div_eq_of_lt
    exact (by decide : initialBlockReward < 2 ^ 64).trans_le (Nat.pow_le_pow_right (by decide) h)
  · exact Nat.shiftRight_eq_div_pow _ _

theorem minted_add (H : UInt64) : minted H + initialBlockReward =
    ∑ h ∈ Finset.range (H.toNat + 1), initialBlockReward / 2 ^ (h / halvingInterval) := by
  have hterms : ∀ h ∈ Finset.Icc 1 H.toNat,
      blockRewardAt (UInt64.ofNat h) = initialBlockReward / 2 ^ (h / halvingInterval) := by
    intro h hh
    have hlt : h < 2 ^ 64 := (Finset.mem_Icc.mp hh).2.trans_lt H.toNat_lt
    rw [blockRewardAt_eq, UInt64.toNat_ofNat_of_lt' hlt]
  have hrange : Finset.range (H.toNat + 1) = insert 0 (Finset.Icc 1 H.toNat) := by
    ext h
    simp only [Finset.mem_range, Finset.mem_insert, Finset.mem_Icc]
    omega
  rw [minted, Finset.sum_congr rfl hterms, hrange, Finset.sum_insert (by simp), Nat.add_comm]
  simp

theorem minted_eq {H : UInt64} {q r : ℕ} (hr : r ≤ halvingInterval)
    (hH : H.toNat + 1 = q * halvingInterval + r) :
    minted H + initialBlockReward =
      halvingInterval * ∑ i ∈ Finset.range q, initialBlockReward / 2 ^ i + r * (initialBlockReward / 2 ^ q) := by
  rw [minted_add, hH, Epochs.sum_heights (fun q => initialBlockReward / 2 ^ q) q hr, nsmul_eq_mul, nsmul_eq_mul]
  rfl

theorem minted_mono {H H' : UInt64} (h : H ≤ H') : minted H ≤ minted H' :=
  Finset.sum_le_sum_of_subset (Finset.Icc_subset_Icc_right (UInt64.le_iff_toNat_le.mp h))

end Sum

section Cap

def lastCappedHeight : UInt64 := 86928001

theorem minted_lastCappedHeight : minted lastCappedHeight = totalSupply := by
  have hsum := minted_eq (H := lastCappedHeight) (q := 1) (r := 23856002) (by decide) (by decide)
  generalize minted lastCappedHeight = total at hsum ⊢
  rw [Finset.sum_range_one] at hsum
  norm_num [initialBlockReward, halvingInterval] at hsum
  unfold totalSupply
  omega

theorem minted_next : totalSupply < minted (lastCappedHeight + 1) := by
  have hsum := minted_eq (H := lastCappedHeight + 1) (q := 1) (r := 23856003) (by decide) (by decide)
  rw [Finset.sum_range_one] at hsum
  norm_num [initialBlockReward, halvingInterval] at hsum
  unfold totalSupply
  omega

/-- The rewards stay within the cap up to height 86,928,001 and no further. -/
theorem minted_le_iff (H : UInt64) : minted H ≤ totalSupply ↔ H ≤ lastCappedHeight := by
  constructor
  · intro hcap
    by_contra hlater
    have hnext : lastCappedHeight + 1 ≤ H := by
      have hlt := UInt64.lt_iff_toNat_lt.mp (UInt64.not_le.mp hlater)
      exact UInt64.le_iff_toNat_le.mpr hlt
    exact absurd hcap (not_le.mpr (minted_next.trans_le (minted_mono hnext)))
  · intro hH
    exact minted_lastCappedHeight ▸ minted_mono hH

theorem minted_exceeds_cap : ¬ ∀ H : UInt64, minted H ≤ totalSupply :=
  fun hall => absurd (hall (lastCappedHeight + 1)) (not_le.mpr minted_next)

end Cap

end ZbxChain
