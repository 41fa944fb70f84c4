import ZbxChain.Pool.Pair

/-! # `zbx_pool::dex`: the engine over pools, balances and allowances

A table gives 0 where it has no entry, so the entries of 0 that `or_insert(0)` leaves behind are
left out. Tokens, pool creation, events and volumes are left out too, since no trade reads them.
-/
namespace ZbxChain.Pool
open Staking (wrap128)

structure PairId where
  tokenA : Address
  tokenB : Address
  deriving DecidableEq

/-- The smaller address first. -/
def PairId.new (a b : Address) : PairId := if a < b then ⟨a,b⟩ else ⟨b,a⟩

section Approvals

structure Approval where
  amount : ℕ
  expireAtBlock : UInt64
  deriving DecidableEq

def Approval.expired (entry : Approval) (currentBlock : UInt64) : Bool :=
  entry.expireAtBlock != 0 && decide (entry.expireAtBlock < currentBlock)

inductive ApprovalError where
  | zeroAddressRecipient
  | insufficientAllowance (have_ need : ℕ)
  | approvalExpired (expiredAt current : UInt64)
  | insufficientBalance (have_ need : ℕ)
  deriving DecidableEq

/-- The approvals by token, owner and spender, and the balances by token and owner. -/
structure AllowanceRegistry where
  allowances : Table (Address × Address × Address) Approval
  balances : Table (Address × Address) ℕ

namespace AllowanceRegistry
variable (reg : AllowanceRegistry)

def balanceOf (token owner : Address) : ℕ := (reg.balances.lookup (token,owner)).getD 0

def addBalance (token owner : Address) (amount : ℕ) : AllowanceRegistry :=
  { reg with balances := reg.balances.insert (token,owner) (saturatingAdd128 (reg.balanceOf token owner) amount) }

def subBalance (token owner : Address) (amount : ℕ) : Except ApprovalError AllowanceRegistry :=
  let b := reg.balanceOf token owner
  if b < amount then .error (.insufficientBalance b amount)
  else .ok { reg with balances := reg.balances.insert (token,owner) (b - amount) }

def spendAllowance (token owner spender : Address) (amount : ℕ) (currentBlock : UInt64) :
    Except ApprovalError AllowanceRegistry :=
  match reg.allowances.lookup (token,owner,spender) with
  | none => .error (.insufficientAllowance 0 amount)
  | some entry =>
    if entry.expired currentBlock then .error (.approvalExpired entry.expireAtBlock currentBlock)
    else if entry.amount < amount then .error (.insufficientAllowance entry.amount amount)
    else if entry.amount = maxU128 then .ok reg
    else .ok { reg with
      allowances := reg.allowances.insert (token,owner,spender) { entry with amount := entry.amount - amount } }

/-- The allowance is spent before the balance is looked at. -/
def transferFrom (token owner recipient spender : Address) (amount : ℕ) (currentBlock : UInt64) :
    Except ApprovalError Unit × AllowanceRegistry :=
  if recipient = 0 then (.error .zeroAddressRecipient,reg)
  else if amount = 0 then (.ok (),reg)
  else
    match reg.spendAllowance token owner spender amount currentBlock with
    | .error e => (.error e,reg)
    | .ok reg =>
      match reg.subBalance token owner amount with
      | .error e => (.error e,reg)
      | .ok reg => (.ok (),reg.addBalance token recipient amount)

def transfer (token owner recipient : Address) (amount : ℕ) : Except ApprovalError Unit × AllowanceRegistry :=
  if recipient = 0 then (.error .zeroAddressRecipient,reg)
  else if amount = 0 then (.ok (),reg)
  else
    match reg.subBalance token owner amount with
    | .error e => (.error e,reg)
    | .ok reg => (.ok (),reg.addBalance token recipient amount)

end AllowanceRegistry

end Approvals

section LpTokens

inductive LpError where
  | insufficientBalance (have_ need : ℕ)

def LpError.text : LpError → String
  | insufficientBalance have_ need => s!"insufficient LP balance: have {have_}, need {need}"

structure LpRegistry where
  balances : Table (PairId × Address) ℕ
  totalSupply : Table PairId ℕ

namespace LpRegistry
variable (reg : LpRegistry)

def balance (pair : PairId) (owner : Address) : ℕ := (reg.balances.lookup (pair,owner)).getD 0

def mint (pair : PairId) (recipient : Address) (amount : ℕ) : LpRegistry :=
  if amount = 0 then reg
  else
    { balances := reg.balances.insert (pair,recipient) (wrap128 (reg.balance pair recipient + amount))
      totalSupply := reg.totalSupply.insert pair (wrap128 ((reg.totalSupply.lookup pair).getD 0 + amount)) }

/-- The total is looked up by index, which panics where a pair has none. -/
def burn (pair : PairId) (owner : Address) (amount : ℕ) : Except (Stopped LpError) LpRegistry :=
  let bal := reg.balance pair owner
  if bal < amount then .error (.error (.insufficientBalance bal amount))
  else
    match reg.totalSupply.lookup pair with
    | none => .error .panic
    | some supply => .ok ⟨reg.balances.insert (pair,owner) (bal - amount),reg.totalSupply.insert pair (supply - amount)⟩

end LpRegistry

end LpTokens

section Routes

abbrev Pairs := Table PairId Pair

/-- `WZBX_ADDR`. -/
def wzbx : Address := 1

/-- `ZUSD_ADDR`. -/
def zusd : Address := 0x231d0001

structure SwapStep where
  pairId : PairId
  aToB : Bool
  deriving DecidableEq

structure SwapRoute where
  steps : List SwapStep
  amountIn : ℕ

/-- The step from one token to another. -/
def SwapStep.between (origin target : Address) : SwapStep :=
  let pid := PairId.new origin target
  ⟨pid,decide (pid.tokenA = origin)⟩

def simulateFrom (pairs : Pairs) : ℕ → List SwapStep → ℕ
  | amount, [] => amount
  | amount, step :: rest =>
    match pairs.lookup step.pairId with
    | none => 0
    | some pair =>
      let amount := pair.getAmountOut amount step.aToB
      if amount = 0 then 0 else simulateFrom pairs amount rest

def SwapRoute.simulate (route : SwapRoute) (pairs : Pairs) : ℕ := simulateFrom pairs route.amountIn route.steps

def buildDirect (origin target : Address) (amountIn : ℕ) (pairs : Pairs) : Option SwapRoute :=
  if (pairs.lookup (PairId.new origin target)).isSome then some ⟨[.between origin target],amountIn⟩ else none

def buildTwoHop (origin mid target : Address) (amountIn : ℕ) (pairs : Pairs) : Option SwapRoute :=
  if (pairs.lookup (PairId.new origin mid)).isSome && (pairs.lookup (PairId.new mid target)).isSome then
    some ⟨[.between origin mid,.between mid target],amountIn⟩
  else none

/-- `max_by_key`: the last of the greatest. -/
def maxByKey {α : Type} (key : α → ℕ) (l : List α) : Option α :=
  l.foldl (fun best a =>
    match best with
    | none => some a
    | some b => if key b ≤ key a then some a else some b) none

def findBestRoute (origin target : Address) (amountIn : ℕ) (pairs : Pairs) : Option SwapRoute :=
  if origin = target ∨ amountIn = 0 then none
  else
    let direct := (buildDirect origin target amountIn pairs).toList
    let viaWzbx := if origin ≠ wzbx ∧ target ≠ wzbx then (buildTwoHop origin wzbx target amountIn pairs).toList else []
    let viaZusd := if origin ≠ zusd ∧ target ≠ zusd then (buildTwoHop origin zusd target amountIn pairs).toList else []
    maxByKey (·.simulate pairs) (direct ++ viaWzbx ++ viaZusd)

/-- What a caller gives along with a trade. -/
structure Terms where
  minAmountOut : ℕ
  deadline : UInt64
  blockTimestamp : UInt64

def hopParams (terms : Terms) (step : SwapStep) (amount : ℕ) (last : Bool) : SwapParams :=
  ⟨step.aToB,amount,if last then terms.minAmountOut else 0,terms.deadline,0,terms.blockTimestamp⟩

/-- The loop of `execute_route`: what comes out and the protocol fees so far. A hop that fails leaves
the hops before it. -/
def executeSteps (terms : Terms) (pairs : Pairs) (amount fees : ℕ) :
    List SwapStep → Except (Stopped AmmError) (ℕ × ℕ) × Pairs
  | [] => (.ok (amount,fees),pairs)
  | step :: rest =>
    match pairs.lookup step.pairId with
    | none => (.error (.error .emptyReserve),pairs)
    | some pair =>
      match pair.swap (hopParams terms step amount rest.isEmpty) with
      | (.error e,pair) => (.error e,pairs.insert step.pairId pair)
      | (.ok result,pair) =>
        executeSteps terms (pairs.insert step.pairId pair) result.amountOut
          (saturatingAdd128 fees result.protocolFee) rest

def executeRoute (route : SwapRoute) (pairs : Pairs) (terms : Terms) : Except (Stopped AmmError) (ℕ × ℕ) × Pairs :=
  executeSteps terms pairs route.amountIn 0 route.steps

end Routes

section Engine

inductive DexError where
  | amm (e : AmmError)
  | approval (e : ApprovalError)
  | noRoute
  | insufficientInputBalance (have_ need : ℕ)
  | lpTransferFailed (text : String)

structure DexEngine where
  pairs : Pairs
  allowances : AllowanceRegistry
  lpRegistry : LpRegistry
  protocolFees : Table Address ℕ

def Stopped.toDex : Stopped AmmError → Stopped DexError
  | .error e => .error (.amm e)
  | .panic => .panic

namespace DexEngine

abbrev Outcome (α : Type) := Except (Stopped DexError) α × DexEngine

/-- `buy`, with the amount that it pays. -/
def buy (dex : DexEngine) (trader tokenIn tokenOut : Address) (amountIn : ℕ) (terms : Terms) : Outcome ℕ :=
  let balance := dex.allowances.balanceOf tokenIn trader
  if balance < amountIn then (.error (.error (.insufficientInputBalance balance amountIn)),dex)
  else
    match findBestRoute tokenIn tokenOut amountIn dex.pairs with
    | none => (.error (.error .noRoute),dex)
    | some route =>
      match executeRoute route dex.pairs terms with
      | (.error e,pairs) => (.error e.toDex,{ dex with pairs := pairs })
      | (.ok (amountOut,totalProtocolFee),pairs) =>
        let dex := { dex with pairs := pairs }
        match dex.allowances.subBalance tokenIn trader amountIn with
        | .error e => (.error (.error (.approval e)),dex)
        | .ok allowances =>
          (.ok amountOut,
            { dex with
              allowances := allowances.addBalance tokenOut trader amountOut
              protocolFees := dex.protocolFees.insert tokenIn
                (wrap128 ((dex.protocolFees.lookup tokenIn).getD 0 + totalProtocolFee)) })

def sell (dex : DexEngine) (trader tokenIn tokenOut : Address) (amountIn : ℕ) (terms : Terms) : Outcome ℕ :=
  dex.buy trader tokenIn tokenOut amountIn terms

def addLiquidity (dex : DexEngine) (provider tokenA tokenB : Address) (p : AddLiquidityParams) :
    Outcome AddLiquidityResult :=
  let pairId := PairId.new tokenA tokenB
  let balA := dex.allowances.balanceOf pairId.tokenA provider
  let balB := dex.allowances.balanceOf pairId.tokenB provider
  if balA < p.amountA then (.error (.error (.insufficientInputBalance balA p.amountA)),dex)
  else if balB < p.amountB then (.error (.error (.insufficientInputBalance balB p.amountB)),dex)
  else
    match dex.pairs.lookup pairId with
    | none => (.error (.error (.amm .pairNotFound)),dex)
    | some pair =>
      match pair.addLiquidity p with
      | (.error e,pair) => (.error e.toDex,{ dex with pairs := dex.pairs.insert pairId pair })
      | (.ok result,pair) =>
        let dex := { dex with pairs := dex.pairs.insert pairId pair }
        match dex.allowances.subBalance pairId.tokenA provider result.usedA with
        | .error e => (.error (.error (.approval e)),dex)
        | .ok allowances =>
          let dex := { dex with allowances := allowances }
          match dex.allowances.subBalance pairId.tokenB provider result.usedB with
          | .error e => (.error (.error (.approval e)),dex)
          | .ok allowances =>
            (.ok result,
              { dex with
                allowances := allowances
                lpRegistry := dex.lpRegistry.mint pairId provider result.lpMinted })

def removeLiquidity (dex : DexEngine) (provider tokenA tokenB : Address) (p : RemoveLiquidityParams) :
    Outcome RemoveLiquidityResult :=
  let pairId := PairId.new tokenA tokenB
  if dex.lpRegistry.balance pairId provider < p.lpAmount then (.error (.error (.amm .insufficientLpBalance)),dex)
  else
    match dex.pairs.lookup pairId with
    | none => (.error (.error (.amm .pairNotFound)),dex)
    | some pair =>
      match pair.removeLiquidity p with
      | (.error e,pair) => (.error e.toDex,{ dex with pairs := dex.pairs.insert pairId pair })
      | (.ok result,pair) =>
        let dex := { dex with pairs := dex.pairs.insert pairId pair }
        match dex.lpRegistry.burn pairId provider p.lpAmount with
        | .error .panic => (.error .panic,dex)
        | .error (.error e) => (.error (.error (.lpTransferFailed e.text)),dex)
        | .ok lpRegistry =>
          (.ok result,
            { dex with
              lpRegistry := lpRegistry
              allowances := (dex.allowances.addBalance pairId.tokenA provider result.amountA).addBalance
                pairId.tokenB provider result.amountB })

def onAllowances (dex : DexEngine) : Except ApprovalError Unit × AllowanceRegistry → Outcome Unit
  | (.error e,reg) => (.error (.error (.approval e)),{ dex with allowances := reg })
  | (.ok (),reg) => (.ok (),{ dex with allowances := reg })

def transferFrom (dex : DexEngine) (token owner recipient spender : Address) (amount : ℕ) (currentBlock : UInt64) :
    Outcome Unit :=
  dex.onAllowances (dex.allowances.transferFrom token owner recipient spender amount currentBlock)

def transfer (dex : DexEngine) (token owner recipient : Address) (amount : ℕ) : Outcome Unit :=
  dex.onAllowances (dex.allowances.transfer token owner recipient amount)

end DexEngine

end Engine

end ZbxChain.Pool
