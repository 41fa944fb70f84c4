import Mathlib.Algebra.Order.BigOperators.Group.Finset
import Mathlib.Tactic.Linarith
import Mathlib.Tactic.Ring

/-! # A pool that is paid out by stake, one share after the other or all at once

A holder that claims with part of its stake gets the same part of the pool, rounded down, and
the stake is taken out of the denominator. What each rounding leaves raises the later shares,
but no holder gets more than one unit above its due for each share that is paid. Paid at once,
every holder gets its part of the whole by weight, rounded down.
-/
namespace ZbxChain

/-- A pool under payment: what is left of it, the stake that has not claimed, what of that each
holder has, what each has got, and how many shares have been paid. -/
structure Payout (ι : Type*) where
  pool : ℕ
  denominator : ℕ
  rest : ι → ℕ
  got : ι → ℕ
  shares : ℕ

namespace Payout
variable {ι : Type*} [DecidableEq ι] {holders : Finset ι} {due : ι → ℕ} {total whole : ℕ} {s s' : Payout ι}

/-- A pool of `total` is paid out to holders with the stakes `due`, `whole` in sum, so that no
holder has more than its part and a unit for each share, nor will have by the stake it has left. -/
structure Fair (holders : Finset ι) (due : ι → ℕ) (total whole : ℕ) (s : Payout ι) : Prop where
  rest_le : ∀ i, s.rest i ≤ due i
  outside : ∀ i, i ∉ holders → due i = 0
  sum_rest : ∑ i ∈ holders, s.rest i = s.denominator
  got_zero : ∀ i, due i = 0 → s.got i = 0
  got_le : ∀ i, s.got i * whole ≤ total * due i + s.shares * whole
  rate_le : ∀ i, (s.got i * s.denominator + s.rest i * s.pool) * whole ≤
    (total * due i + s.shares * whole) * s.denominator

omit [DecidableEq ι] in
theorem fair_start (houtside : ∀ i, i ∉ holders → due i = 0) :
    Fair holders due total (∑ i ∈ holders, due i)
      ⟨total,∑ i ∈ holders, due i,due,fun _ => 0,0⟩ where
  rest_le := fun _ => le_refl _
  outside := houtside
  sum_rest := rfl
  got_zero := fun _ _ => rfl
  got_le := fun i => by simp
  rate_le := fun i => by
    dsimp only
    simp [Nat.mul_comm]

/-- One claim: `claimant` gets what its stake is worth, or less. -/
structure Pays (claimant : ι) (stake : ℕ) (s s' : Payout ι) : Prop where
  positive : 0 < stake
  covered : stake ≤ s.rest claimant
  pool : s'.pool + s.pool * stake / s.denominator = s.pool
  denominator : s'.denominator = s.denominator - stake
  rest : s'.rest = Function.update s.rest claimant (s.rest claimant - stake)
  got_self : s'.got claimant ≤ s.got claimant + s.pool * stake / s.denominator
  got_other : ∀ i, i ≠ claimant → s'.got i = s.got i
  shares : s'.shares = s.shares + 1

section Arithmetic
variable {got rest pool denominator stake share remainder bound : ℕ}

theorem worth_after (hdiv : denominator * share + remainder = pool * stake) {pool' denominator' : ℕ}
    (hpool : pool' + share = pool) (hdenominator : denominator' + stake = denominator) :
    denominator * pool' = pool * denominator' + remainder := by
  subst hpool hdenominator
  nlinarith

theorem claimant_worth (hdiv : denominator * share + remainder = pool * stake) (hpositive : 0 < denominator)
    {pool' denominator' rest' : ℕ} (hpool : pool' + share = pool)
    (hdenominator : denominator' + stake = denominator) (hrest : rest' + stake = rest)
    (hle : rest' ≤ denominator')
    (h : (got * denominator + rest * pool) * whole ≤ bound * denominator) :
    ((got + share) * denominator' + rest' * pool') * whole ≤ bound * denominator' := by
  refine Nat.le_of_mul_le_mul_left ?_ hpositive
  have hafter := worth_after hdiv hpool hdenominator
  have hexact : denominator * ((got + share) * denominator' + rest' * pool') + remainder * denominator' =
      denominator' * (got * denominator + rest * pool) + rest' * remainder := by
    calc denominator * ((got + share) * denominator' + rest' * pool') + remainder * denominator'
        = denominator' * (got * denominator + (denominator * share + remainder)) +
            rest' * (denominator * pool') := by ring
      _ = denominator' * (got * denominator + pool * stake) + rest' * (pool * denominator' + remainder) := by
          rw [hdiv, hafter]
      _ = denominator' * (got * denominator + rest * pool) + rest' * remainder := by
          rw [← hrest]
          ring
  have hless : rest' * remainder ≤ remainder * denominator' := by
    rw [Nat.mul_comm remainder]
    exact Nat.mul_le_mul_right _ hle
  have hworth : denominator * ((got + share) * denominator' + rest' * pool') ≤
      denominator' * (got * denominator + rest * pool) := by omega
  calc denominator * (((got + share) * denominator' + rest' * pool') * whole)
      = denominator * ((got + share) * denominator' + rest' * pool') * whole := by ring
    _ ≤ denominator' * (got * denominator + rest * pool) * whole := Nat.mul_le_mul_right _ hworth
    _ = denominator' * ((got * denominator + rest * pool) * whole) := by ring
    _ ≤ denominator' * (bound * denominator) := Nat.mul_le_mul_left _ h
    _ = denominator * (bound * denominator') := by ring

theorem other_worth (hdiv : denominator * share + remainder = pool * stake)
    (hremainder : remainder < denominator) {pool' denominator' : ℕ} (hpool : pool' + share = pool)
    (hdenominator : denominator' + stake = denominator) (hle : rest ≤ denominator')
    (h : (got * denominator + rest * pool) * whole ≤ bound * denominator) :
    (got * denominator' + rest * pool') * whole ≤ (bound + whole) * denominator' := by
  refine Nat.le_of_mul_le_mul_left ?_ (Nat.zero_lt_of_lt hremainder)
  have hafter := worth_after hdiv hpool hdenominator
  have hexact : denominator * (got * denominator' + rest * pool') =
      denominator' * (got * denominator + rest * pool) + rest * remainder := by
    calc denominator * (got * denominator' + rest * pool')
        = denominator' * (got * denominator) + rest * (denominator * pool') := by ring
      _ = denominator' * (got * denominator + rest * pool) + rest * remainder := by
          rw [hafter]
          ring
  have hless : rest * remainder ≤ denominator' * denominator := Nat.mul_le_mul hle hremainder.le
  calc denominator * ((got * denominator' + rest * pool') * whole)
      = denominator * (got * denominator' + rest * pool') * whole := by ring
    _ = denominator' * ((got * denominator + rest * pool) * whole) + rest * remainder * whole := by
        rw [hexact]
        ring
    _ ≤ denominator' * (bound * denominator) + denominator' * denominator * whole :=
        Nat.add_le_add (Nat.mul_le_mul_left _ h) (Nat.mul_le_mul_right _ hless)
    _ = denominator * ((bound + whole) * denominator') := by ring

end Arithmetic

omit [DecidableEq ι] in
theorem Fair.rest_outside (h : Fair holders due total whole s) {i : ι} (hi : i ∉ holders) : s.rest i = 0 :=
  Nat.le_zero.mp ((h.rest_le i).trans (h.outside i hi).le)

omit [DecidableEq ι] in
theorem Fair.rest_le_denominator (h : Fair holders due total whole s) (i : ι) :
    s.rest i ≤ s.denominator := by
  by_cases hi : i ∈ holders
  · rw [← h.sum_rest]
    exact Finset.single_le_sum (fun _ _ => Nat.zero_le _) hi
  · rw [h.rest_outside hi]
    exact Nat.zero_le _

theorem Fair.two_le (h : Fair holders due total whole s) {i j : ι} (hij : i ≠ j) :
    s.rest i + s.rest j ≤ s.denominator := by
  by_cases hi : i ∈ holders
  · by_cases hj : j ∈ holders
    · rw [← h.sum_rest, ← Finset.sum_pair hij]
      refine Finset.sum_le_sum_of_subset (fun k hk => ?_)
      rcases Finset.mem_insert.mp hk with rfl | hk
      · exact hi
      · exact Finset.mem_singleton.mp hk ▸ hj
    · rw [h.rest_outside hj, Nat.add_zero]
      exact h.rest_le_denominator i
  · rw [h.rest_outside hi, Nat.zero_add]
    exact h.rest_le_denominator j

/-- A claim within the stake that the claimant has left keeps the payout fair. -/
theorem Fair.pays (h : Fair holders due total whole s) {claimant : ι} {stake : ℕ}
    (hpays : Pays claimant stake s s') : Fair holders due total whole s' := by
  have hmem : claimant ∈ holders := by
    by_contra hnot
    have hzero := h.rest_outside hnot
    have := hpays.positive
    have := hpays.covered
    omega
  have hrest_le : s.rest claimant ≤ s.denominator := h.rest_le_denominator claimant
  have hpositive : 0 < s.denominator := hpays.positive.trans_le (hpays.covered.trans hrest_le)
  have hdenominator : s'.denominator + stake = s.denominator := by
    rw [hpays.denominator]
    exact Nat.sub_add_cancel (hpays.covered.trans hrest_le)
  have hself : s'.rest claimant + stake = s.rest claimant := by
    rw [hpays.rest, Function.update_self]
    exact Nat.sub_add_cancel hpays.covered
  have hother : ∀ i, i ≠ claimant → s'.rest i = s.rest i := fun i hi => by
    rw [hpays.rest, Function.update_of_ne hi]
  have hdiv := Nat.div_add_mod (s.pool * stake) s.denominator
  have hremainder := Nat.mod_lt (s.pool * stake) hpositive
  refine ⟨?_,h.outside,?_,?_,?_,?_⟩
  · intro i
    by_cases hi : i = claimant
    · subst hi
      have := h.rest_le i
      omega
    · rw [hother i hi]
      exact h.rest_le i
  · have hsplit := Finset.add_sum_erase holders s.rest hmem
    have hsplit' := Finset.add_sum_erase holders s'.rest hmem
    have hsame : ∑ i ∈ holders.erase claimant, s'.rest i = ∑ i ∈ holders.erase claimant, s.rest i :=
      Finset.sum_congr rfl fun i hi => hother i (Finset.ne_of_mem_erase hi)
    have hsum := h.sum_rest
    omega
  · intro i hi
    have hne : i ≠ claimant := by
      rintro rfl
      have := h.rest_le i
      have := hpays.positive
      have := hpays.covered
      omega
    rw [hpays.got_other i hne]
    exact h.got_zero i hi
  · intro i
    rw [hpays.shares]
    by_cases hi : i = claimant
    · subst hi
      -- what the claim pays is covered by the worth of the stake it is made with
      have hrate := h.rate_le i
      have hshare : s.denominator * (s.pool * stake / s.denominator) ≤ s.rest i * s.pool := by
        refine (Nat.mul_div_le _ _).trans ?_
        rw [Nat.mul_comm]
        exact Nat.mul_le_mul_right _ hpays.covered
      refine (Nat.mul_le_mul_right _ hpays.got_self).trans ?_
      refine Nat.le_of_mul_le_mul_left ?_ hpositive
      calc s.denominator * ((s.got i + s.pool * stake / s.denominator) * whole)
          = (s.got i * s.denominator + s.denominator * (s.pool * stake / s.denominator)) * whole := by ring
        _ ≤ (s.got i * s.denominator + s.rest i * s.pool) * whole :=
            Nat.mul_le_mul_right _ (Nat.add_le_add_left hshare _)
        _ ≤ (total * due i + s.shares * whole) * s.denominator := hrate
        _ ≤ s.denominator * (total * due i + (s.shares + 1) * whole) := by
            rw [Nat.mul_comm]
            exact Nat.mul_le_mul_left _ (Nat.add_le_add_left (Nat.mul_le_mul_right _ (Nat.le_succ _)) _)
    · rw [hpays.got_other i hi]
      have := h.got_le i
      rw [Nat.add_mul, Nat.one_mul]
      omega
  · intro i
    rw [hpays.shares]
    by_cases hi : i = claimant
    · subst hi
      have hle : s'.rest i ≤ s'.denominator := by omega
      refine le_trans ?_ ((claimant_worth hdiv hpositive hpays.pool hdenominator hself hle (h.rate_le i)).trans
        (Nat.mul_le_mul_right _ (Nat.add_le_add_left (Nat.mul_le_mul_right _ (Nat.le_succ _)) _)))
      exact Nat.mul_le_mul_right _ (Nat.add_le_add_right (Nat.mul_le_mul_right _ hpays.got_self) _)
    · have htwo := h.two_le hi
      have hle : s.rest i ≤ s'.denominator := by omega
      have hworth := other_worth hdiv hremainder hpays.pool hdenominator hle (h.rate_le i)
      rw [hpays.got_other i hi, hother i hi]
      refine hworth.trans (le_of_eq ?_)
      ring

omit [DecidableEq ι] in
/-- Nobody is more than a unit for each paid share above its due. -/
theorem Fair.got_bound (h : Fair holders due total whole s) (hwhole : 0 < whole) (i : ι) :
    s.got i ≤ (total * due i + whole - 1) / whole + s.shares := by
  have hgot := h.got_le i
  rw [← Nat.add_mul_div_right _ _ hwhole, Nat.le_div_iff_mul_le hwhole]
  omega

end Payout

section Shares
variable (whole total : ℕ) (weights : List ℕ)

theorem sum_shares_add_mod : total * (weights.map (fun w => whole * w / total)).sum +
    (weights.map (fun w => whole * w % total)).sum = whole * weights.sum := by
  induction weights with
  | nil => simp
  | cons w weights ih =>
    have hdiv := Nat.div_add_mod (whole * w) total
    simp only [List.map_cons, List.sum_cons, Nat.mul_add]
    omega

variable {total weights}

/-- Rounded shares stay within the whole. -/
theorem sum_shares_le (hsum : weights.sum = total) (hpos : 0 < total) :
    (weights.map (fun w => whole * w / total)).sum ≤ whole := by
  have hsplit := sum_shares_add_mod whole total weights
  rw [hsum, Nat.mul_comm whole] at hsplit
  exact Nat.le_of_mul_le_mul_left (Nat.le_of_add_right_le hsplit.le) hpos

theorem whole_le_shares (hsum : weights.sum = total) (hpos : 0 < total) :
    whole ≤ (weights.map (fun w => whole * w / total)).sum + weights.length := by
  have hsplit := sum_shares_add_mod whole total weights
  have hmod : (weights.map (fun w => whole * w % total)).sum ≤ weights.length * total := by
    have hall := List.sum_le_card_nsmul (weights.map (fun w => whole * w % total)) total (by
      intro r hr
      obtain ⟨w,-,rfl⟩ := List.mem_map.mp hr
      exact (Nat.mod_lt _ hpos).le)
    rwa [List.length_map, Nat.nsmul_eq_mul] at hall
  rw [hsum, Nat.mul_comm whole] at hsplit
  refine Nat.le_of_mul_le_mul_left ?_ hpos
  rw [Nat.mul_add, Nat.mul_comm total weights.length]
  omega

end Shares

end ZbxChain
