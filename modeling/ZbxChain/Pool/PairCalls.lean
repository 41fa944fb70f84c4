import ZbxChain.Foundation.Checked
import ZbxChain.Pool.Pair

/-! # What a call does to a pair

A swap is refused, or it fails with its fee booked because the product of the new reserves does
not fit into 128 bits, or it succeeds; the product never gets smaller. A deposit that fails may
have stored one or both reserves. A withdrawal that fails has stored nothing.
-/
namespace ZbxChain.Pool
open Checked

section Checks
variable {e : AmmError} {x y z : ℕ}

theorem checkedMul_eq_ok : checkedMul e x y = .ok z ↔ x * y ≤ maxU128 ∧ x * y = z := by
  unfold checkedMul
  split <;> simp_all [pure_eq_ok, throw_ne_ok]

theorem checkedAdd_eq_ok : checkedAdd e x y = .ok z ↔ x + y ≤ maxU128 ∧ x + y = z := by
  unfold checkedAdd
  split <;> simp_all [pure_eq_ok, throw_ne_ok]

theorem checkedSub_eq_ok : checkedSub e x y = .ok z ↔ y ≤ x ∧ x - y = z := by
  unfold checkedSub
  split <;> simp_all [pure_eq_ok, throw_ne_ok]

theorem safeMulDiv_eq_ok {a b c : ℕ} : safeMulDiv a b c = .ok z ↔ 0 < c ∧ a * b ≤ maxU128 ∧ a * b / c = z := by
  unfold safeMulDiv
  rw [test_eq_ok, bind_eq_ok]
  simp only [checkedMul_eq_ok, pure_eq_ok, Nat.pos_iff_ne_zero]
  constructor
  · rintro ⟨hc,num,⟨hmul,rfl⟩,hz⟩
    exact ⟨hc,hmul,hz⟩
  · rintro ⟨hc,hmul,hz⟩
    exact ⟨hc,_,⟨hmul,rfl⟩,hz⟩

end Checks

theorem product_le {x y dx dy mult : ℕ} (hmult : 0 < mult) (hfee : mult ≤ 10000) (hy : dy ≤ y)
    (hquote : dy * (x * 10000 + dx * mult) ≤ dx * mult * y) : x * y ≤ (x + dx) * (y - dy) := by
  obtain ⟨rest,rfl⟩ := Nat.exists_eq_add_of_le hy
  rw [Nat.add_sub_cancel_left]
  have hless : dy * (x * mult + dx * mult) ≤ dx * mult * (dy + rest) :=
    le_trans (Nat.mul_le_mul_left _ (by nlinarith)) hquote
  have hscaled : mult * (x * (dy + rest)) ≤ mult * ((x + dx) * rest) := by nlinarith
  exact Nat.le_of_mul_le_mul_left hscaled hmult

namespace Pair
variable {pair : Pair} {p : SwapParams} {quote : SwapQuote}

theorem bps_le (tier : FeeTier) : tier.bps ≤ 100 := by
  cases tier <;> decide

section Quotes

structure Quoted (pair : Pair) (p : SwapParams) (quote : SwapQuote) : Prop where
  amount_pos : 0 < p.amountIn
  out_pos : 0 < quote.amountOut
  quoted : quote.amountOut = pair.getAmountOut p.amountIn p.aToB
  protocolFee : quote.protocolFee = p.amountIn * pair.feeTier.protocolBps / 10000
  fee_lt : quote.protocolFee < 2 ^ 128
  newIn : quote.newIn = (pair.reserves p.aToB).1 + p.amountIn
  newOut : quote.newOut + quote.amountOut = (pair.reserves p.aToB).2
  oldK_le : quote.oldK ≤ quote.newIn * quote.newOut
  oldK : quote.oldK = (pair.reserves p.aToB).1 * (pair.reserves p.aToB).2

theorem splitFee_snd {amountIn : ℕ} {tier : FeeTier} (h : amountIn * (10000 - tier.bps) ≤ maxU128) :
    (splitFee amountIn tier).2 = amountIn * tier.protocolBps / 10000 ∧ (splitFee amountIn tier).2 < 2 ^ 128 := by
  have hbps : tier.protocolBps ≤ 10000 - tier.bps := by cases tier <;> decide
  have hfits : amountIn * tier.protocolBps ≤ maxU128 := le_trans (Nat.mul_le_mul_left _ hbps) h
  have hlt : amountIn * tier.protocolBps < 2 ^ 128 := by
    unfold maxU128 at hfits
    omega
  rw [splitFee, Staking.wrap128, Staking.wrap128, Nat.mod_eq_of_lt hlt]
  exact ⟨rfl,lt_of_le_of_lt (Nat.div_le_self _ _) hlt⟩

theorem quoted_of_ok (h : pair.swapQuote p = .ok quote) : Quoted pair p quote := by
  unfold swapQuote at h
  simp only [ensure_eq_ok, bind_eq_ok, checkedMul_eq_ok, checkedAdd_eq_ok, checkedSub_eq_ok,
    pure_eq_ok] at h
  obtain ⟨_,-,hamount,hempty,_,-,_,-,dxFee,⟨hdx,rfl⟩,numerator,⟨hnum,rfl⟩,scaled,⟨hscaled,rfl⟩,denom,⟨hdenom,rfl⟩,
    hout,_,-,_,-,oldK,⟨-,rfl⟩,newIn,⟨-,rfl⟩,newOut,⟨hdrain,rfl⟩,rfl⟩ := h
  obtain ⟨hfee,hfee_lt⟩ := splitFee_snd hdx
  have hk : pair.reserveA * pair.reserveB = (pair.reserves p.aToB).1 * (pair.reserves p.aToB).2 := by
    unfold reserves
    split
    · rfl
    · exact Nat.mul_comm _ _
  have hbps := bps_le pair.feeTier
  constructor
  · exact Nat.pos_of_ne_zero hamount
  · exact Nat.pos_of_ne_zero hout
  · unfold getAmountOut
    have hne : ¬ ((pair.reserves p.aToB).1 = 0 ∨ (pair.reserves p.aToB).2 = 0 ∨ p.amountIn = 0) := by
      rintro (hzero | hzero | hzero)
      · exact hempty (.inl hzero)
      · exact hempty (.inr hzero)
      · exact hamount hzero
    simp only [if_neg hne, if_pos (show _ ∧ _ ∧ _ from ⟨hdx,hnum,hdenom⟩)]
  · exact hfee
  · exact hfee_lt
  · rfl
  · exact Nat.sub_add_cancel hdrain
  · dsimp only
    rw [hk]
    exact product_le (by omega) (by omega) hdrain (Nat.div_mul_le_self _ _)
  · exact hk

end Quotes

section Guards
variable {α : Type} {inner : Pair → Outcome α}

/-- Neither paused nor within another call. -/
def Open (pair : Pair) : Prop := pair.circuit.paused = false ∧ pair.locked = false

theorem guarded_closed (h : ¬ pair.Open) : ∃ e, pair.guarded inner = (.error (.error e),pair) := by
  unfold guarded CircuitBreaker.check
  cases hpaused : pair.circuit.paused with
  | true => exact ⟨_,rfl⟩
  | false =>
    cases hlocked : pair.locked with
    | true => exact ⟨_,rfl⟩
    | false => exact absurd ⟨hpaused,hlocked⟩ h

theorem guarded_open (h : pair.Open) : pair.guarded inner =
    match inner { pair with locked := true } with
    | (.error .panic,pair') => (.error .panic,pair')
    | (result,pair') => (result,{ pair' with locked := false }) := by
  unfold guarded CircuitBreaker.check
  rw [h.1, h.2]
  rfl

theorem unlock (h : pair.Open) : { { pair with locked := true } with locked := false } = pair := by
  obtain ⟨reserveA,reserveB,totalLp,feeA,feeB,feeTier,locked,circuit⟩ := pair
  obtain ⟨-,rfl⟩ := h
  rfl

end Guards

section Swaps

def swapped (pair : Pair) (p : SwapParams) (quote : SwapQuote) : Pair :=
  (pair.chargeFee p.aToB quote.protocolFee).setReserves p.aToB quote.newIn quote.newOut

def swapResult (pair : Pair) (p : SwapParams) (quote : SwapQuote) : SwapResult :=
  ⟨quote.amountOut,quote.lpFee,quote.protocolFee,(pair.swapped p quote).reserveA,(pair.swapped p quote).reserveB⟩

inductive SwapCase (pair : Pair) (p : SwapParams) : Outcome SwapResult → Prop where
  | refused (e : AmmError) (h : pair.Open → ∀ quote, pair.swapQuote p ≠ .ok quote) :
      SwapCase pair p (.error (.error e),pair)
  | booked (hopen : pair.Open) (quote : SwapQuote) (hquote : pair.swapQuote p = .ok quote)
      (hk : maxU128 < quote.newIn * quote.newOut) :
      SwapCase pair p (.error (.error .invariantOverflow),pair.chargeFee p.aToB quote.protocolFee)
  | done (hopen : pair.Open) (quote : SwapQuote) (hquote : pair.swapQuote p = .ok quote)
      (hk : quote.newIn * quote.newOut ≤ maxU128) :
      SwapCase pair p (.ok (pair.swapResult p quote),pair.swapped p quote)

/-- A swap is refused, or pays out by the formula. -/
theorem swap_cases (pair : Pair) (p : SwapParams) : SwapCase pair p (pair.swap p) := by
  by_cases hopen : pair.Open
  · obtain ⟨inside,hinside⟩ : ∃ inside : Pair, { pair with locked := true } = inside := ⟨_,rfl⟩
    have hquote : inside.swapQuote p = pair.swapQuote p := by rw [← hinside]; rfl
    have hcharge : ∀ fee, { inside.chargeFee p.aToB fee with locked := false } = pair.chargeFee p.aToB fee := by
      intro fee
      have hunlock := unlock hopen
      rw [hinside] at hunlock
      rw [← hunlock]
      unfold chargeFee
      split <;> rfl
    have hstore : ∀ quote, { inside.swapped p quote with locked := false } = pair.swapped p quote := by
      intro quote
      unfold swapped
      rw [← hcharge]
      unfold setReserves
      split <;> rfl
    have hresult : ∀ quote, inside.swapResult p quote = pair.swapResult p quote := by
      intro quote
      unfold swapResult
      rw [← hstore]
    rw [swap, guarded_open hopen, hinside, swapInner, hquote]
    cases hq : pair.swapQuote p with
    | error e =>
      have hunlock := unlock hopen
      rw [hinside] at hunlock
      dsimp only
      rw [hunlock]
      refine .refused e ?_
      intro _ quote heq
      rw [hq] at heq
      cases heq
    | ok quote =>
      have hk := (quoted_of_ok hq).oldK_le
      dsimp only
      by_cases hfits : maxU128 < quote.newIn * quote.newOut
      · rw [if_pos hfits]
        dsimp only
        rw [hcharge]
        exact .booked hopen quote hq hfits
      · rw [if_neg hfits, if_neg (by omega)]
        have hdone := SwapCase.done hopen quote hq (by omega)
        rw [← hstore, ← hresult] at hdone
        exact hdone
  · obtain ⟨e,he⟩ : ∃ e, pair.guarded (·.swapInner p) = (.error (.error e),pair) := guarded_closed hopen
    rw [swap, he]
    exact .refused e fun h => absurd h hopen

end Swaps

section Deposits
variable {p : AddLiquidityParams} {lp usedA usedB : ℕ}

theorem sharesFor_eq_ok (h : pair.sharesFor p = .ok (lp,usedA,usedB)) :
    (pair.totalLp = 0 ∧ usedA = p.amountA ∧ usedB = p.amountB) ∨
    (0 < pair.totalLp ∧ 0 < pair.reserveA ∧ 0 < pair.reserveB ∧
      lp = min (p.amountA * pair.totalLp / pair.reserveA) (p.amountB * pair.totalLp / pair.reserveB) ∧
      usedA = lp * pair.reserveA / pair.totalLp ∧ usedB = lp * pair.reserveB / pair.totalLp) := by
  unfold sharesFor at h
  simp only [bind_eq_ok, ensure_eq_ok, mapError_eq_ok] at h
  obtain ⟨_,-,-,h⟩ := h
  by_cases hzero : pair.totalLp = 0
  · rw [if_pos hzero] at h
    simp only [bind_eq_ok, ensure_eq_ok, mapError_eq_ok, pure_eq_ok, Prod.mk.injEq] at h
    obtain ⟨product,-,sqrt,-,-,-,hA,hB⟩ := h
    exact .inl ⟨hzero,hA.symm,hB.symm⟩
  · rw [if_neg hzero] at h
    simp only [bind_eq_ok, mapError_eq_ok, safeMulDiv_eq_ok, pure_eq_ok, Prod.mk.injEq] at h
    obtain ⟨lpA,⟨hA,-,rfl⟩,lpB,⟨hB,-,rfl⟩,a,⟨-,-,rfl⟩,b,⟨-,-,rfl⟩,rfl,rfl,rfl⟩ := h
    exact .inr ⟨Nat.pos_of_ne_zero hzero,hA,hB,rfl,rfl,rfl⟩

theorem mul_div_le_of_le_div {amount reserve total : ℕ} (h : lp ≤ amount * total / reserve) :
    lp * reserve / total ≤ amount := by
  apply Nat.div_le_of_le_mul
  calc lp * reserve ≤ amount * total / reserve * reserve := Nat.mul_le_mul_right _ h
    _ ≤ amount * total := Nat.div_mul_le_self _ _
    _ = total * amount := Nat.mul_comm _ _

theorem used_le (h : pair.sharesFor p = .ok (lp,usedA,usedB)) : usedA ≤ p.amountA ∧ usedB ≤ p.amountB := by
  rcases sharesFor_eq_ok h with ⟨-,rfl,rfl⟩ | ⟨-,-,-,hlp,rfl,rfl⟩
  · exact ⟨le_refl _,le_refl _⟩
  · exact ⟨mul_div_le_of_le_div (hlp ▸ min_le_left _ _),mul_div_le_of_le_div (hlp ▸ min_le_right _ _)⟩

/-- The deposit comes as far as its first store. -/
structure Accepts (pair : Pair) (p : AddLiquidityParams) (lp usedA usedB : ℕ) : Prop where
  isOpen : pair.Open
  shares : pair.sharesFor p = .ok (lp,usedA,usedB)
  least : p.minLpOut ≤ lp

theorem Accepts.unique {lp' usedA' usedB' : ℕ} (h : pair.Accepts p lp usedA usedB)
    (h' : pair.Accepts p lp' usedA' usedB') : lp' = lp ∧ usedA' = usedA ∧ usedB' = usedB := by
  have heq := h'.shares.symm.trans h.shares
  simpa using heq

inductive AddCase (pair : Pair) (p : AddLiquidityParams) : Outcome AddLiquidityResult → Prop where
  | refused (e : AmmError) (h : ∀ lp usedA usedB, pair.Accepts p lp usedA usedB → maxU128 < pair.reserveA + usedA) :
      AddCase pair p (.error (.error e),pair)
  | panicked (h : ∀ lp usedA usedB, ¬ pair.Accepts p lp usedA usedB) :
      AddCase pair p (.error .panic,{ pair with locked := true })
  | storedA (lp usedA usedB : ℕ) (h : pair.Accepts p lp usedA usedB) (hA : pair.reserveA + usedA ≤ maxU128)
      (hB : maxU128 < pair.reserveB + usedB) :
      AddCase pair p (.error (.error .overflow),{ pair with reserveA := pair.reserveA + usedA })
  | storedBoth (lp usedA usedB : ℕ) (h : pair.Accepts p lp usedA usedB) (hA : pair.reserveA + usedA ≤ maxU128)
      (hB : pair.reserveB + usedB ≤ maxU128) (hlp : maxU128 < pair.totalLp + lp) :
      AddCase pair p (.error (.error .overflow),
        { pair with reserveA := pair.reserveA + usedA, reserveB := pair.reserveB + usedB })
  | done (lp usedA usedB : ℕ) (h : pair.Accepts p lp usedA usedB) (hA : pair.reserveA + usedA ≤ maxU128)
      (hB : pair.reserveB + usedB ≤ maxU128) (hlp : pair.totalLp + lp ≤ maxU128) :
      AddCase pair p (.ok ⟨lp,usedA,usedB⟩,
        { pair with
          reserveA := pair.reserveA + usedA
          reserveB := pair.reserveB + usedB
          totalLp := pair.totalLp + lp })

/-- Liquidity is refused, or mints the shares of its lesser side. -/
theorem addLiquidity_cases (pair : Pair) (p : AddLiquidityParams) : AddCase pair p (pair.addLiquidity p) := by
  by_cases hopen : pair.Open
  · have hshares : { pair with locked := true }.sharesFor p = pair.sharesFor p := rfl
    have hunlock : pair.locked = false := hopen.2
    rw [addLiquidity, guarded_open hopen, addLiquidityInner, hshares]
    obtain ⟨reserveA,reserveB,totalLp,feeA,feeB,feeTier,locked,circuit⟩ := pair
    obtain rfl : locked = false := hunlock
    cases hq : Pair.sharesFor ⟨reserveA,reserveB,totalLp,feeA,feeB,feeTier,false,circuit⟩ p with
    | error e =>
      have hnone : ∀ lp usedA usedB,
          ¬ Accepts ⟨reserveA,reserveB,totalLp,feeA,feeB,feeTier,false,circuit⟩ p lp usedA usedB := by
        rintro lp usedA usedB ⟨-,hsome,-⟩
        rw [hq] at hsome
        cases hsome
      cases e with
      | panic => exact .panicked hnone
      | error e => exact .refused e fun lp usedA usedB h => absurd h (hnone lp usedA usedB)
    | ok shares =>
      obtain ⟨lp,usedA,usedB⟩ := shares
      dsimp only
      by_cases hleast : lp < p.minLpOut
      · rw [if_pos hleast]
        refine .refused _ ?_
        rintro lp' usedA' usedB' ⟨-,hsome,hle⟩
        rw [hq] at hsome
        cases hsome
        omega
      · rw [if_neg hleast]
        have haccepts : Accepts ⟨reserveA,reserveB,totalLp,feeA,feeB,feeTier,false,circuit⟩ p lp usedA usedB :=
          ⟨hopen,hq,by omega⟩
        by_cases hA : maxU128 < reserveA + usedA
        · rw [if_pos hA]
          refine .refused _ ?_
          intro lp' usedA' usedB' h
          obtain ⟨-,rfl,-⟩ := haccepts.unique h
          exact hA
        · rw [if_neg hA]
          by_cases hB : maxU128 < reserveB + usedB
          · rw [if_pos hB]
            exact .storedA lp usedA usedB haccepts (by dsimp only; omega) hB
          · rw [if_neg hB]
            by_cases hlp : maxU128 < totalLp + lp
            · rw [if_pos hlp]
              exact .storedBoth lp usedA usedB haccepts (by dsimp only; omega) (by dsimp only; omega) hlp
            · rw [if_neg hlp]
              exact .done lp usedA usedB haccepts (by dsimp only; omega) (by dsimp only; omega) (by dsimp only; omega)
  · obtain ⟨e,he⟩ : ∃ e, pair.guarded (·.addLiquidityInner p) = (.error (.error e),pair) := guarded_closed hopen
    rw [addLiquidity, he]
    exact .refused e fun lp usedA usedB h => absurd h.isOpen hopen

end Deposits

section Withdrawals
variable {p : RemoveLiquidityParams} {amountA amountB : ℕ}

theorem amountsFor_eq_ok (h : pair.amountsFor p = .ok (amountA,amountB)) :
    0 < p.lpAmount ∧ p.lpAmount ≤ pair.totalLp ∧ 0 < amountA ∧ 0 < amountB ∧
      amountA = p.lpAmount * pair.reserveA / pair.totalLp ∧ amountB = p.lpAmount * pair.reserveB / pair.totalLp := by
  unfold amountsFor at h
  simp only [bind_eq_ok, ensure_eq_ok, safeMulDiv_eq_ok, pure_eq_ok, Prod.mk.injEq] at h
  obtain ⟨_,-,hzero,hle,a,⟨-,-,rfl⟩,b,⟨-,-,rfl⟩,hpos,_,-,_,-,rfl,rfl⟩ := h
  rw [not_or] at hpos
  exact ⟨Nat.pos_of_ne_zero hzero,not_lt.mp hle,Nat.pos_of_ne_zero hpos.1,Nat.pos_of_ne_zero hpos.2,rfl,rfl⟩

theorem mul_div_le_reserve {lpAmount total reserve : ℕ} (h : lpAmount ≤ total) : lpAmount * reserve / total ≤ reserve :=
  Nat.div_le_of_le_mul (Nat.mul_le_mul_right _ h)

inductive RemoveCase (pair : Pair) (p : RemoveLiquidityParams) : Outcome RemoveLiquidityResult → Prop where
  | refused (e : AmmError) : RemoveCase pair p (.error (.error e),pair)
  | done (amountA amountB : ℕ) (h : pair.amountsFor p = .ok (amountA,amountB)) :
      RemoveCase pair p (.ok ⟨amountA,amountB⟩,
        { pair with
          reserveA := pair.reserveA - amountA
          reserveB := pair.reserveB - amountB
          totalLp := pair.totalLp - p.lpAmount })

/-- A withdrawal is refused, or pays its part of both reserves. -/
theorem removeLiquidity_cases (pair : Pair) (p : RemoveLiquidityParams) :
    RemoveCase pair p (pair.removeLiquidity p) := by
  by_cases hopen : pair.Open
  · have hamounts : { pair with locked := true }.amountsFor p = pair.amountsFor p := rfl
    have hunlock : pair.locked = false := hopen.2
    rw [removeLiquidity, guarded_open hopen, removeLiquidityInner, hamounts]
    obtain ⟨reserveA,reserveB,totalLp,feeA,feeB,feeTier,locked,circuit⟩ := pair
    obtain rfl : locked = false := hunlock
    cases hq : Pair.amountsFor ⟨reserveA,reserveB,totalLp,feeA,feeB,feeTier,false,circuit⟩ p with
    | error e => exact .refused e
    | ok amounts =>
      obtain ⟨amountA,amountB⟩ := amounts
      obtain ⟨-,hle,-,-,hA,hB⟩ := amountsFor_eq_ok hq
      have hleA : amountA ≤ reserveA := hA ▸ mul_div_le_reserve hle
      have hleB : amountB ≤ reserveB := hB ▸ mul_div_le_reserve hle
      dsimp only at hle ⊢
      rw [if_neg (by omega), if_neg (by omega), if_neg (by omega)]
      exact .done amountA amountB hq
  · obtain ⟨e,he⟩ : ∃ e, pair.guarded (·.removeLiquidityInner p) = (.error (.error e),pair) := guarded_closed hopen
    rw [removeLiquidity, he]
    exact .refused e

end Withdrawals

end Pair

end ZbxChain.Pool
