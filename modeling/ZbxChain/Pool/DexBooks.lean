import Mathlib.Algebra.Order.BigOperators.Group.List
import ZbxChain.Pool.Dex
import ZbxChain.Pool.PairCalls

/-! # The books of the engine

A token is counted over all balances and over the reserves of all pairs. What a hop or a payment
does to these sums is said here once.
-/
namespace ZbxChain.Pool

def held (token : Address) (id : PairId) (pair : Pair) : ℕ :=
  (if id.tokenA = token then pair.reserveA else 0) + (if id.tokenB = token then pair.reserveB else 0)

def balanceIn (token : Address) (key : Address × Address) (amount : ℕ) : ℕ := if key.1 = token then amount else 0

structure PairBooks where
  reserveA : ℕ
  reserveB : ℕ
  totalLp : ℕ
  feeA : BitVec 128
  feeB : BitVec 128

def Pair.books (pair : Pair) : PairBooks := ⟨pair.reserveA,pair.reserveB,pair.totalLp,pair.feeA,pair.feeB⟩

namespace DexEngine

def tokenTotal (dex : DexEngine) (token : Address) : ℕ :=
  dex.allowances.balances.sumOf (balanceIn token) + dex.pairs.sumOf (held token)

structure SameBooks (dex dex' : DexEngine) : Prop where
  balances : ∀ token owner, dex'.allowances.balanceOf token owner = dex.allowances.balanceOf token owner
  approvals : ∀ key, dex'.allowances.allowances.lookup key = dex.allowances.allowances.lookup key
  lpBalances : ∀ id owner, dex'.lpRegistry.balance id owner = dex.lpRegistry.balance id owner
  pairs : ∀ id, (dex'.pairs.lookup id).map Pair.books = (dex.pairs.lookup id).map Pair.books

inductive DexCall where
  | buy (trader tokenIn tokenOut : Address) (amountIn : ℕ) (terms : Terms)
  | sell (trader tokenIn tokenOut : Address) (amountIn : ℕ) (terms : Terms)
  | addLiquidity (provider tokenA tokenB : Address) (p : AddLiquidityParams)
  | removeLiquidity (provider tokenA tokenB : Address) (p : RemoveLiquidityParams)
  | transfer (token owner recipient : Address) (amount : ℕ)
  | transferFrom (token owner recipient spender : Address) (amount : ℕ) (currentBlock : UInt64)

def discard {α : Type} (out : Outcome α) : Outcome Unit := (out.1.map fun _ => (),out.2)

def perform (dex : DexEngine) : DexCall → Outcome Unit
  | .buy trader tokenIn tokenOut amountIn terms => discard (dex.buy trader tokenIn tokenOut amountIn terms)
  | .sell trader tokenIn tokenOut amountIn terms => discard (dex.sell trader tokenIn tokenOut amountIn terms)
  | .addLiquidity provider tokenA tokenB p => discard (dex.addLiquidity provider tokenA tokenB p)
  | .removeLiquidity provider tokenA tokenB p => discard (dex.removeLiquidity provider tokenA tokenB p)
  | .transfer token owner recipient amount => dex.transfer token owner recipient amount
  | .transferFrom token owner recipient spender amount currentBlock =>
    dex.transferFrom token owner recipient spender amount currentBlock

/-- A call that returns keeps every token's total, and with an error all books. -/
def KeepsBooks (dex : DexEngine) {α : Type} (out : Outcome α) : Prop :=
  match out with
  | (.ok _,dex') => ∀ token, dex'.tokenTotal token = dex.tokenTotal token
  | (.error (.error _),dex') => (∀ token, dex'.tokenTotal token = dex.tokenTotal token) ∧ SameBooks dex dex'
  | (.error .panic,_) => True

section Conditions

/-- The swap passes its checks, and the product of the new reserves fits. -/
def Passes (pair : Pair) (p : SwapParams) : Prop :=
  pair.Open ∧ ∃ quote, pair.swapQuote p = .ok quote ∧ quote.newIn * quote.newOut ≤ maxU128

/-- The swap does not fail on the product with a fee of one unit or more. -/
def BooksNoFee (pair : Pair) (p : SwapParams) : Prop :=
  pair.Open → ∀ quote, pair.swapQuote p = .ok quote → maxU128 < quote.newIn * quote.newOut →
    p.amountIn * pair.feeTier.protocolBps < 10000

def CleanSteps (terms : Terms) (pairs : Pairs) (amount : ℕ) : List SwapStep → Prop
  | [step] => ∀ pair, pairs.lookup step.pairId = some pair → BooksNoFee pair (hopParams terms step amount true)
  | [step,step'] => ∀ pair pair', pairs.lookup step.pairId = some pair → pairs.lookup step'.pairId = some pair' →
      BooksNoFee pair (hopParams terms step amount false) ∧
      (Passes pair (hopParams terms step amount false) →
        Passes pair' (hopParams terms step' (pair.getAmountOut amount step.aToB) true))
  | _ => True

def CleanBuy (dex : DexEngine) (trader tokenIn tokenOut : Address) (amountIn : ℕ) (terms : Terms) : Prop :=
  amountIn ≤ dex.allowances.balanceOf tokenIn trader →
    ∀ route, findBestRoute tokenIn tokenOut amountIn dex.pairs = some route →
      CleanSteps terms dex.pairs amountIn route.steps

/-- A deposit that comes to its stores does not fail on the number of shares, unless it takes nothing, and
does not take more of a token than there is when it takes the same token twice. -/
def CleanDeposit (dex : DexEngine) (provider tokenA tokenB : Address) (p : AddLiquidityParams) : Prop :=
  let id := PairId.new tokenA tokenB
  p.amountA ≤ dex.allowances.balanceOf id.tokenA provider → p.amountB ≤ dex.allowances.balanceOf id.tokenB provider →
    ∀ pair, dex.pairs.lookup id = some pair → ∀ lp usedA usedB, pair.Accepts p lp usedA usedB →
      if pair.totalLp + lp ≤ maxU128 then
        id.tokenA = id.tokenB → usedA + usedB ≤ dex.allowances.balanceOf id.tokenA provider
      else usedA = 0 ∧ usedB = 0

def CleanTransferFrom (dex : DexEngine) (token owner recipient spender : Address) (amount : ℕ)
    (currentBlock : UInt64) : Prop :=
  recipient ≠ 0 → amount ≠ 0 → ∀ entry, dex.allowances.allowances.lookup (token,owner,spender) = some entry →
    entry.expired currentBlock = false → amount ≤ entry.amount → entry.amount ≠ maxU128 →
      amount ≤ dex.allowances.balanceOf token owner

def Clean (dex : DexEngine) : DexCall → Prop
  | .buy trader tokenIn tokenOut amountIn terms => dex.CleanBuy trader tokenIn tokenOut amountIn terms
  | .sell trader tokenIn tokenOut amountIn terms => dex.CleanBuy trader tokenIn tokenOut amountIn terms
  | .addLiquidity provider tokenA tokenB p => dex.CleanDeposit provider tokenA tokenB p
  | .removeLiquidity .. => True
  | .transfer .. => True
  | .transferFrom token owner recipient spender amount currentBlock =>
    dex.CleanTransferFrom token owner recipient spender amount currentBlock

end Conditions

end DexEngine

section Balances
variable {reg : AllowanceRegistry} {token token' owner owner' : Address} {amount : ℕ}

theorem balance_le (reg : AllowanceRegistry) (token owner : Address) :
    reg.balanceOf token owner ≤ reg.balances.sumOf (balanceIn token) := by
  have hle := AList.countOf_le reg.balances (balanceIn token) (token,owner)
  refine le_trans (le_of_eq ?_) hle
  rw [AllowanceRegistry.balanceOf, AList.countOf]
  cases reg.balances.lookup (token,owner) with
  | none => rfl
  | some amount => simp [balanceIn]

theorem sum_setBalance (reg : AllowanceRegistry) (token owner : Address) (amount : ℕ) (token' : Address) :
    (reg.balances.insert (token,owner) amount).sumOf (balanceIn token') +
        (if token = token' then reg.balanceOf token owner else 0) =
      reg.balances.sumOf (balanceIn token') + if token = token' then amount else 0 := by
  have hsum := AList.sumOf_insert reg.balances (balanceIn token') (token,owner) amount
  have hcount : reg.balances.countOf (balanceIn token') (token,owner) =
      if token = token' then reg.balanceOf token owner else 0 := by
    rw [AllowanceRegistry.balanceOf, AList.countOf]
    cases reg.balances.lookup (token,owner) with
    | none => simp
    | some amount => simp [balanceIn]
  rw [hcount] at hsum
  exact hsum

/-- A credit that fits adds to the books of its token alone. -/
theorem sum_addBalance (reg : AllowanceRegistry) (token owner : Address) (amount : ℕ) (token' : Address)
    (hfits : reg.balanceOf token owner + amount ≤ maxU128) :
    (reg.addBalance token owner amount).balances.sumOf (balanceIn token') =
      reg.balances.sumOf (balanceIn token') + if token = token' then amount else 0 := by
  have hset := sum_setBalance reg token owner (reg.balanceOf token owner + amount) token'
  rw [AllowanceRegistry.addBalance, saturatingAdd128, min_eq_left hfits]
  change (reg.balances.insert (token,owner) (reg.balanceOf token owner + amount)).sumOf (balanceIn token') = _
  by_cases htoken : token = token'
  · rw [if_pos htoken, if_pos htoken] at hset
    rw [if_pos htoken]
    omega
  · rw [if_neg htoken, if_neg htoken] at hset
    rw [if_neg htoken]
    omega

theorem sum_subBalance {reg' : AllowanceRegistry} (h : reg.subBalance token owner amount = .ok reg')
    (token' : Address) : reg'.balances.sumOf (balanceIn token') + (if token = token' then amount else 0) =
      reg.balances.sumOf (balanceIn token') := by
  unfold AllowanceRegistry.subBalance at h
  dsimp only at h
  split at h
  · cases h
  · cases h
    have hset := sum_setBalance reg token owner (reg.balanceOf token owner - amount) token'
    dsimp only
    by_cases htoken : token = token'
    · rw [if_pos htoken, if_pos htoken] at hset
      rw [if_pos htoken]
      omega
    · rw [if_neg htoken, if_neg htoken] at hset
      rw [if_neg htoken]
      omega

theorem subBalance_eq (h : amount ≤ reg.balanceOf token owner) : reg.subBalance token owner amount =
    .ok { reg with balances := reg.balances.insert (token,owner) (reg.balanceOf token owner - amount) } :=
  if_neg (not_lt.mpr h)

theorem balanceOf_insert (reg : AllowanceRegistry) (token owner : Address) (amount : ℕ) (token' owner' : Address) :
    ({ reg with balances := reg.balances.insert (token,owner) amount } : AllowanceRegistry).balanceOf token' owner' =
      if (token',owner') = (token,owner) then amount else reg.balanceOf token' owner' := by
  unfold AllowanceRegistry.balanceOf
  dsimp only
  by_cases hkey : (token',owner') = (token,owner)
  · rw [if_pos hkey, hkey, AList.lookup_insert]
    rfl
  · rw [if_neg hkey, AList.lookup_insert_ne hkey]

end Balances

section Hops
variable {origin target : Address} {pair : Pair} {p : SwapParams} {quote : SwapQuote}

theorem tokens_new (origin target : Address) :
    (PairId.new origin target = ⟨origin,target⟩ ∨ PairId.new origin target = ⟨target,origin⟩) := by
  unfold PairId.new
  split
  · exact .inl rfl
  · exact .inr rfl

theorem held_swapped (hne : origin ≠ target) (hdir : p.aToB = (SwapStep.between origin target).aToB)
    (hquote : Pair.Quoted pair p quote) (token : Address) :
    held token (PairId.new origin target) (pair.swapped p quote) + (if target = token then quote.amountOut else 0) =
      held token (PairId.new origin target) pair + if origin = token then p.amountIn else 0 := by
  have hIn := hquote.newIn
  have hOut := hquote.newOut
  rcases tokens_new origin target with hid | hid
  · have htrue : p.aToB = true := by simp [hdir, SwapStep.between, hid]
    simp only [htrue, Pair.reserves, if_true] at hIn hOut
    simp only [hid, held, Pair.swapped, htrue, Pair.setReserves, Pair.chargeFee, if_true]
    split <;> split <;> omega
  · have hfalse : p.aToB = false := by simp [hdir, SwapStep.between, hid, hne.symm]
    simp only [hfalse, Pair.reserves, Bool.false_eq_true, if_false] at hIn hOut
    simp only [hid, held, Pair.swapped, hfalse, Pair.setReserves, Pair.chargeFee, Bool.false_eq_true, if_false]
    split <;> split <;> omega

theorem held_chargeFee (token : Address) (id : PairId) (aToB : Bool) (fee : ℕ) :
    held token id (pair.chargeFee aToB fee) = held token id pair := by
  cases aToB <;> rfl

theorem sum_setPair {pairs : Pairs} {id : PairId} (h : pairs.lookup id = some pair) (pair' : Pair) (token : Address) :
    (pairs.insert id pair').sumOf (held token) + held token id pair =
      pairs.sumOf (held token) + held token id pair' := by
  have hsum := AList.sumOf_insert pairs (held token) id pair'
  rwa [AList.countOf_of_some h] at hsum

structure Hop (pairs : Pairs) (step : SwapStep) (origin target : Address) (pair : Pair) : Prop where
  between : step = .between origin target
  ne : origin ≠ target
  lookup : pairs.lookup step.pairId = some pair

theorem Hop.sum_swapped {pairs : Pairs} {step : SwapStep} (h : Hop pairs step origin target pair)
    (hdir : p.aToB = step.aToB) (hquote : Pair.Quoted pair p quote) (token : Address) :
    (pairs.insert step.pairId (pair.swapped p quote)).sumOf (held token) +
        (if target = token then quote.amountOut else 0) =
      pairs.sumOf (held token) + if origin = token then p.amountIn else 0 := by
  have hset := sum_setPair h.lookup (pair.swapped p quote) token
  rw [h.between] at hdir
  have hheld := held_swapped h.ne hdir hquote token
  have hid : step.pairId = PairId.new origin target := by rw [h.between]; rfl
  rw [hid] at hset ⊢
  omega

end Hops

section Routes
variable {origin mid target : Address} {amountIn : ℕ} {pairs : Pairs} {route : SwapRoute}

theorem maxByKey_mem {α : Type} {key : α → ℕ} {l : List α} {a : α} (h : maxByKey key l = some a) : a ∈ l := by
  unfold maxByKey at h
  refine List.foldlRecOn (motive := fun best => ∀ a, best = some a → a ∈ l) l _ ?_ ?_ a h
  · exact fun a h => by cases h
  · intro best hbest b hb a ha
    cases best with
    | none =>
      cases ha
      exact hb
    | some b' =>
      dsimp only at ha
      split at ha
      · cases ha
        exact hb
      · exact hbest a ha

/-- A route is one hop, or two over a third token. -/
inductive RouteShape (pairs : Pairs) (origin target : Address) : List SwapStep → Prop where
  | direct (step : SwapStep) (pair : Pair) (hop : Hop pairs step origin target pair) :
      RouteShape pairs origin target [step]
  | twoHop (mid : Address) (step step' : SwapStep) (pair pair' : Pair) (hop : Hop pairs step origin mid pair)
      (hop' : Hop pairs step' mid target pair') (hne : step'.pairId ≠ step.pairId) :
      RouteShape pairs origin target [step,step']

theorem buildTwoHop_shape (hne : origin ≠ target) (hmid : origin ≠ mid ∧ target ≠ mid)
    (h : buildTwoHop origin mid target amountIn pairs = some route) :
    route.amountIn = amountIn ∧ RouteShape pairs origin target route.steps := by
  unfold buildTwoHop at h
  split at h
  · rename_i hpairs
    rw [Bool.and_eq_true] at hpairs
    obtain ⟨pair,hpair⟩ := Option.isSome_iff_exists.mp hpairs.1
    obtain ⟨pair',hpair'⟩ := Option.isSome_iff_exists.mp hpairs.2
    cases h
    refine ⟨rfl,.twoHop mid _ _ pair pair' ⟨rfl,hmid.1,hpair⟩ ⟨rfl,hmid.2.symm,hpair'⟩ ?_⟩
    intro hsame
    change PairId.new mid target = PairId.new origin mid at hsame
    rcases tokens_new mid target with hid | hid <;> rcases tokens_new origin mid with hid' | hid' <;>
      rw [hid, hid', PairId.mk.injEq] at hsame
    · exact hmid.1 hsame.1.symm
    · exact hne hsame.2.symm
    · exact hne hsame.1.symm
    · exact hmid.2 hsame.1
  · cases h

/-- A route goes from the first token to the last, over one pool or two. -/
theorem findBestRoute_shape (h : findBestRoute origin target amountIn pairs = some route) :
    origin ≠ target ∧ 0 < amountIn ∧ route.amountIn = amountIn ∧ RouteShape pairs origin target route.steps := by
  unfold findBestRoute at h
  split at h
  · cases h
  · rename_i hargs
    rw [not_or] at hargs
    refine ⟨hargs.1,Nat.pos_of_ne_zero hargs.2,?_⟩
    have hmem := maxByKey_mem h
    simp only [List.mem_append, Option.mem_toList] at hmem
    rcases hmem with (hdirect | hwzbx) | hzusd
    · unfold buildDirect at hdirect
      split at hdirect
      · rename_i hpair
        obtain ⟨pair,hpair⟩ := Option.isSome_iff_exists.mp hpair
        cases hdirect
        exact ⟨rfl,.direct _ pair ⟨rfl,hargs.1,hpair⟩⟩
      · cases hdirect
    · split at hwzbx
      · rename_i hmid
        exact buildTwoHop_shape hargs.1 hmid (Option.mem_toList.mp hwzbx)
      · simp at hwzbx
    · split at hzusd
      · rename_i hmid
        exact buildTwoHop_shape hargs.1 hmid (Option.mem_toList.mp hzusd)
      · simp at hzusd

end Routes

end ZbxChain.Pool
