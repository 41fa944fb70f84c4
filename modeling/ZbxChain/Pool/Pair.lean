import Mathlib.Tactic.Linarith
import ZbxChain.Mempool.Pool
import ZbxChain.Staking.Validator

/-! # `zbx_pool::pair`: a constant-product pool of two tokens

A call checks, computes, and then stores field by field; a check that fails after the first store
leaves what was stored. The protocol fees are counted in words of 128 bits that wrap.
-/
namespace ZbxChain.Pool
open Staking (wrap128)

/-- What ends a call early. -/
inductive Stopped (ε : Type) where
  | error (e : ε)
  | panic
  deriving DecidableEq

inductive AmmError where
  | reentrancy
  | poolPaused (reason : String)
  | priceImpactTooHigh (impactBps maxBps : ℕ)
  | slippageExceeded (got min : ℕ)
  | deadlineExpired (now deadline : UInt64)
  | reserveDrainExceeded (drainBps maxBps : ℕ)
  | oraclePriceDeviation (deviationBps maxBps : ℕ)
  | overflow
  | divisionByZero
  | invariantOverflow
  | emptyReserve
  | insufficientLiquidityBurned
  | insufficientLpBalance
  | belowMinLiquidity
  | zeroAmount
  | zeroOutput
  | invariantViolation
  | pairNotFound
  deriving DecidableEq

section Fees

inductive FeeTier where
  | lowest
  | standard
  | high
  deriving DecidableEq

def FeeTier.bps : FeeTier → ℕ
  | lowest => 5
  | standard => 30
  | high => 100

def FeeTier.protocolBps (tier : FeeTier) : ℕ := tier.bps / 5

/-- The share of the liquidity providers and that of the protocol. -/
def splitFee (amountIn : ℕ) (tier : FeeTier) : ℕ × ℕ :=
  let totalFee := wrap128 (amountIn * tier.bps) / 10000
  let protocol := wrap128 (amountIn * tier.protocolBps) / 10000
  (totalFee - protocol,protocol)

end Fees

section Security

def minLiquidity : ℕ := 1000
def maxPriceImpactBps : ℕ := 3000
def maxOracleDeviationBps : ℕ := 1500
def maxReserveDrainBps : ℕ := 3000

/-- A `u128` cast to `u32`. -/
def asU32 (n : ℕ) : ℕ := n % 2 ^ 32

def checkPriceImpact (amountIn reserveIn : ℕ) : Except AmmError Unit :=
  if reserveIn = 0 then throw .emptyReserve
  else
    let denom := saturatingAdd128 reserveIn amountIn
    let impactBps := asU32 (saturatingMul128 amountIn 10000 / denom)
    if maxPriceImpactBps < impactBps then throw (.priceImpactTooHigh impactBps maxPriceImpactBps) else pure ()

def checkSlippage (amountOut minAmountOut : ℕ) : Except AmmError Unit :=
  if amountOut < minAmountOut then throw (.slippageExceeded amountOut minAmountOut) else pure ()

def checkDeadline (blockTimestamp deadline : UInt64) : Except AmmError Unit :=
  if deadline < blockTimestamp then throw (.deadlineExpired blockTimestamp deadline) else pure ()

def checkReserveDrain (amountOut reserveOut : ℕ) : Except AmmError Unit :=
  if reserveOut = 0 then throw .emptyReserve
  else
    let drainBps := asU32 (saturatingMul128 amountOut 10000 / reserveOut)
    if maxReserveDrainBps < drainBps then throw (.reserveDrainExceeded drainBps maxReserveDrainBps) else pure ()

def checkOracleDeviation (poolSpot oraclePrice : ℕ) : Except AmmError Unit :=
  if oraclePrice = 0 then pure ()
  else if poolSpot = 0 then throw (.oraclePriceDeviation 10000 maxOracleDeviationBps)
  else
    let diff := if oraclePrice < poolSpot then poolSpot - oraclePrice else oraclePrice - poolSpot
    let deviationBps := asU32 (saturatingMul128 diff 10000 / oraclePrice)
    if maxOracleDeviationBps < deviationBps then throw (.oraclePriceDeviation deviationBps maxOracleDeviationBps)
    else pure ()

/-- `checked_mul` with the error for an overflow; `checkedAdd` and `checkedSub` are alike. -/
def checkedMul (e : AmmError) (x y : ℕ) : Except AmmError ℕ := if x * y ≤ maxU128 then pure (x * y) else throw e

def checkedAdd (e : AmmError) (x y : ℕ) : Except AmmError ℕ := if x + y ≤ maxU128 then pure (x + y) else throw e

def checkedSub (e : AmmError) (x y : ℕ) : Except AmmError ℕ := if y ≤ x then pure (x - y) else throw e

def safeMulDiv (a b c : ℕ) : Except AmmError ℕ :=
  if c = 0 then throw .divisionByZero
  else do
    let num ← checkedMul .overflow a b
    pure (num / c)

structure CircuitBreaker where
  paused : Bool
  reason : Option String
  deriving DecidableEq

def CircuitBreaker.check (breaker : CircuitBreaker) : Except AmmError Unit :=
  if breaker.paused then throw (.poolPaused (breaker.reason.getD "")) else pure ()

end Security

section Sqrt

/-- The loop of `integer_sqrt`, which ends as `x` falls. -/
def sqrtLoop (n x y : ℕ) : ℕ := if y < x then sqrtLoop n y ((y + n / y) / 2) else x
termination_by x

/-- `integer_sqrt`. At the largest number `x + 1` wraps, and the loop divides by zero. -/
def integerSqrt (n : ℕ) : Except (Stopped AmmError) ℕ :=
  if n = 0 then pure 0
  else if n = maxU128 then throw .panic
  else pure (sqrtLoop n n ((n + 1) / 2))

theorem lt_next_sq {n x : ℕ} (hx : 0 < x) : n < ((x + n / x) / 2 + 1) * ((x + n / x) / 2 + 1) := by
  have hdiv : n < x * (n / x + 1) := Nat.lt_mul_div_succ n hx
  have hsum : x + (n / x + 1) ≤ 2 * ((x + n / x) / 2 + 1) := by omega
  generalize (x + n / x) / 2 + 1 = y at hsum ⊢
  generalize n / x + 1 = q at hdiv hsum
  zify at hdiv hsum ⊢
  nlinarith [sq_nonneg ((x : ℤ) - q)]

/-- The loop ends at the root, from any guess above it. -/
theorem sqrtLoop_eq {n x : ℕ} (hx : 0 < x) (hn : n < (x + 1) * (x + 1)) :
    sqrtLoop n x ((x + n / x) / 2) = n.sqrt := by
  induction x using Nat.strong_induction_on with
  | _ x ih =>
    rw [sqrtLoop]
    by_cases hlt : (x + n / x) / 2 < x
    · rw [if_pos hlt]
      have hnext := lt_next_sq (n := n) hx
      rcases Nat.eq_zero_or_pos ((x + n / x) / 2) with hzero | hpos
      · -- then nothing is left of `n`
        rw [hzero] at hnext ⊢
        have hn0 : n = 0 := by omega
        rw [hn0, sqrtLoop]
        rfl
      · exact ih _ hlt hpos hnext
    · rw [if_neg hlt]
      have hle : x ≤ n / x := by omega
      exact Nat.eq_sqrt.mpr ⟨(Nat.le_div_iff_mul_le hx).mp hle,hn⟩

theorem integerSqrt_eq {n : ℕ} (hn : n ≠ maxU128) : integerSqrt n = .ok n.sqrt := by
  unfold integerSqrt
  by_cases hzero : n = 0
  · rw [if_pos hzero, hzero]
    rfl
  · have hone : n / n = 1 := Nat.div_self (by omega)
    have hloop := sqrtLoop_eq (by omega) (show n < (n + 1) * (n + 1) by nlinarith)
    rw [hone] at hloop
    rw [if_neg hzero, if_neg hn, hloop]
    rfl

theorem integerSqrt_ten : integerSqrt 10 = .ok (Nat.sqrt 10) := integerSqrt_eq (by decide)

end Sqrt

section Pools

structure SwapParams where
  aToB : Bool
  amountIn : ℕ
  minAmountOut : ℕ
  deadline : UInt64
  oracleTwap : ℕ
  blockTimestamp : UInt64

structure AddLiquidityParams where
  amountA : ℕ
  amountB : ℕ
  minLpOut : ℕ
  deadline : UInt64
  blockTimestamp : UInt64

structure RemoveLiquidityParams where
  lpAmount : ℕ
  minAOut : ℕ
  minBOut : ℕ
  deadline : UInt64
  blockTimestamp : UInt64

structure SwapResult where
  amountOut : ℕ
  lpFee : ℕ
  protocolFee : ℕ
  newReserveA : ℕ
  newReserveB : ℕ
  deriving DecidableEq

structure AddLiquidityResult where
  lpMinted : ℕ
  usedA : ℕ
  usedB : ℕ
  deriving DecidableEq

structure RemoveLiquidityResult where
  amountA : ℕ
  amountB : ℕ
  deriving DecidableEq

/-- `locked` is the reentrancy guard. -/
structure Pair where
  reserveA : ℕ
  reserveB : ℕ
  totalLp : ℕ
  feeA : BitVec 128
  feeB : BitVec 128
  feeTier : FeeTier
  locked : Bool
  circuit : CircuitBreaker
  deriving DecidableEq

structure SwapQuote where
  amountOut : ℕ
  lpFee : ℕ
  protocolFee : ℕ
  oldK : ℕ
  newIn : ℕ
  newOut : ℕ
  deriving DecidableEq

namespace Pair

def new (feeTier : FeeTier) : Pair := ⟨0,0,0,0,0,feeTier,false,⟨false,none⟩⟩

def spotPriceAInB (pair : Pair) : ℕ :=
  if pair.reserveA = 0 then 0
  else if pair.reserveB * 10 ^ 18 ≤ maxU128 then pair.reserveB * 10 ^ 18 / pair.reserveA
  else
    let scaled := saturatingMul128 (pair.reserveB / 1000000) (10 ^ 12)
    saturatingMul128 (scaled / pair.reserveA) 1000000

def reserves (pair : Pair) (aToB : Bool) : ℕ × ℕ :=
  if aToB then (pair.reserveA,pair.reserveB) else (pair.reserveB,pair.reserveA)

/-- The quoted output of `get_amount_out`, which is 0 where a product does not fit. -/
def getAmountOut (pair : Pair) (amountIn : ℕ) (aToB : Bool) : ℕ :=
  let (rIn,rOut) := pair.reserves aToB
  if rIn = 0 ∨ rOut = 0 ∨ amountIn = 0 then 0
  else
    let dxFee := amountIn * (10000 - pair.feeTier.bps)
    if dxFee ≤ maxU128 ∧ dxFee * rOut ≤ maxU128 ∧ rIn * 10000 + dxFee ≤ maxU128 then
      dxFee * rOut / (rIn * 10000 + dxFee)
    else 0

/-- `swap_inner` up to its first store. -/
def swapQuote (pair : Pair) (p : SwapParams) : Except AmmError SwapQuote := do
  checkDeadline p.blockTimestamp p.deadline
  if p.amountIn = 0 then throw .zeroAmount
  let (rIn,rOut) := pair.reserves p.aToB
  if rIn = 0 ∨ rOut = 0 then throw .emptyReserve
  checkOracleDeviation pair.spotPriceAInB p.oracleTwap
  checkPriceImpact p.amountIn rIn
  let dxFee ← checkedMul .overflow p.amountIn (10000 - pair.feeTier.bps)
  let numerator ← checkedMul .overflow dxFee rOut
  let scaled ← checkedMul .overflow rIn 10000
  let denom ← checkedAdd .overflow scaled dxFee
  let amountOut := numerator / denom
  if amountOut = 0 then throw .zeroOutput
  checkReserveDrain amountOut rOut
  checkSlippage amountOut p.minAmountOut
  let (lpFee,protocolFee) := splitFee p.amountIn pair.feeTier
  let oldK ← checkedMul .invariantOverflow pair.reserveA pair.reserveB
  let newIn ← checkedAdd .overflow rIn p.amountIn
  let newOut ← checkedSub .insufficientLiquidityBurned rOut amountOut
  pure ⟨amountOut,lpFee,protocolFee,oldK,newIn,newOut⟩

def chargeFee (pair : Pair) (aToB : Bool) (protocolFee : ℕ) : Pair :=
  if aToB then { pair with feeA := pair.feeA + BitVec.ofNat 128 protocolFee }
  else { pair with feeB := pair.feeB + BitVec.ofNat 128 protocolFee }

def setReserves (pair : Pair) (aToB : Bool) (newIn newOut : ℕ) : Pair :=
  if aToB then { pair with reserveA := newIn, reserveB := newOut }
  else { pair with reserveA := newOut, reserveB := newIn }

abbrev Outcome (α : Type) := Except (Stopped AmmError) α × Pair

def swapInner (pair : Pair) (p : SwapParams) : Outcome SwapResult :=
  match pair.swapQuote p with
  | .error e => (.error (.error e),pair)
  | .ok quote =>
    let charged := pair.chargeFee p.aToB quote.protocolFee
    -- the fee is booked by now, whatever comes of the product
    if maxU128 < quote.newIn * quote.newOut then (.error (.error .invariantOverflow),charged)
    else if quote.newIn * quote.newOut < quote.oldK then (.error (.error .invariantViolation),charged)
    else
      let stored := charged.setReserves p.aToB quote.newIn quote.newOut
      (.ok ⟨quote.amountOut,quote.lpFee,quote.protocolFee,stored.reserveA,stored.reserveB⟩,stored)

/-- The shares that `add_liquidity_inner` mints and the amounts it takes for them. -/
def sharesFor (pair : Pair) (p : AddLiquidityParams) : Except (Stopped AmmError) (ℕ × ℕ × ℕ) := do
  (checkDeadline p.blockTimestamp p.deadline).mapError .error
  if p.amountA = 0 ∨ p.amountB = 0 then throw (.error .zeroAmount)
  if pair.totalLp = 0 then
    let product ← (checkedMul .overflow p.amountA p.amountB).mapError .error
    let sqrt ← integerSqrt product
    if sqrt ≤ minLiquidity then throw (.error .belowMinLiquidity)
    pure (sqrt - minLiquidity,p.amountA,p.amountB)
  else
    let lpA ← (safeMulDiv p.amountA pair.totalLp pair.reserveA).mapError .error
    let lpB ← (safeMulDiv p.amountB pair.totalLp pair.reserveB).mapError .error
    let lp := min lpA lpB
    let usedA ← (safeMulDiv lp pair.reserveA pair.totalLp).mapError .error
    let usedB ← (safeMulDiv lp pair.reserveB pair.totalLp).mapError .error
    pure (lp,usedA,usedB)

def addLiquidityInner (pair : Pair) (p : AddLiquidityParams) : Outcome AddLiquidityResult :=
  match pair.sharesFor p with
  | .error e => (.error e,pair)
  | .ok (lpMinted,usedA,usedB) =>
    if lpMinted < p.minLpOut then (.error (.error (.slippageExceeded lpMinted p.minLpOut)),pair)
    else if maxU128 < pair.reserveA + usedA then (.error (.error .overflow),pair)
    else
      let pair := { pair with reserveA := pair.reserveA + usedA }
      if maxU128 < pair.reserveB + usedB then (.error (.error .overflow),pair)
      else
        let pair := { pair with reserveB := pair.reserveB + usedB }
        if maxU128 < pair.totalLp + lpMinted then (.error (.error .overflow),pair)
        else (.ok ⟨lpMinted,usedA,usedB⟩,{ pair with totalLp := pair.totalLp + lpMinted })

/-- The amounts that `remove_liquidity_inner` pays for the shares. -/
def amountsFor (pair : Pair) (p : RemoveLiquidityParams) : Except AmmError (ℕ × ℕ) := do
  checkDeadline p.blockTimestamp p.deadline
  if p.lpAmount = 0 then throw .zeroAmount
  if pair.totalLp < p.lpAmount then throw .insufficientLpBalance
  let amountA ← safeMulDiv p.lpAmount pair.reserveA pair.totalLp
  let amountB ← safeMulDiv p.lpAmount pair.reserveB pair.totalLp
  if amountA = 0 ∨ amountB = 0 then throw .insufficientLiquidityBurned
  checkSlippage amountA p.minAOut
  checkSlippage amountB p.minBOut
  pure (amountA,amountB)

def removeLiquidityInner (pair : Pair) (p : RemoveLiquidityParams) : Outcome RemoveLiquidityResult :=
  match pair.amountsFor p with
  | .error e => (.error (.error e),pair)
  | .ok (amountA,amountB) =>
    if pair.reserveA < amountA then (.error (.error .insufficientLiquidityBurned),pair)
    else
      let pair := { pair with reserveA := pair.reserveA - amountA }
      if pair.reserveB < amountB then (.error (.error .insufficientLiquidityBurned),pair)
      else
        let pair := { pair with reserveB := pair.reserveB - amountB }
        if pair.totalLp < p.lpAmount then (.error (.error .insufficientLpBalance),pair)
        else (.ok ⟨amountA,amountB⟩,{ pair with totalLp := pair.totalLp - p.lpAmount })

/-- The circuit breaker and the reentrancy guard around a call. A panic leaves the guard locked. -/
def guarded {α : Type} (pair : Pair) (inner : Pair → Outcome α) : Outcome α :=
  match pair.circuit.check with
  | .error e => (.error (.error e),pair)
  | .ok () =>
    if pair.locked then (.error (.error .reentrancy),pair)
    else
      match inner { pair with locked := true } with
      | (.error .panic,pair') => (.error .panic,pair')
      | (result,pair') => (result,{ pair' with locked := false })

def swap (pair : Pair) (p : SwapParams) : Outcome SwapResult := pair.guarded (·.swapInner p)

def addLiquidity (pair : Pair) (p : AddLiquidityParams) : Outcome AddLiquidityResult :=
  pair.guarded (·.addLiquidityInner p)

def removeLiquidity (pair : Pair) (p : RemoveLiquidityParams) : Outcome RemoveLiquidityResult :=
  pair.guarded (·.removeLiquidityInner p)

end Pair

end Pools

end ZbxChain.Pool
