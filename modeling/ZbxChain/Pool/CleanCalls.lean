import ZbxChain.Pool.DexBooks

/-! # What calls on the engine do to the tokens, and what a failed call leaves

Three kinds of calls can fail half done: a trade over two pools whose second hop fails, or whose
first hop books its fee and then fails; a deposit whose last sums do not fit, or that takes the
same token twice; and a transfer from an owner who does not have what was approved.
-/
namespace ZbxChain.Pool

namespace DexEngine
variable {dex : DexEngine}

section Books

theorem SameBooks.refl (dex : DexEngine) : SameBooks dex dex :=
  ⟨fun _ _ => rfl,fun _ => rfl,fun _ _ => rfl,fun _ => rfl⟩

theorem keepsBooks_discard {α : Type} {out : Outcome α} : KeepsBooks dex (discard out) ↔ KeepsBooks dex out := by
  rcases out with ⟨(_ | _) | _,_⟩ <;> exact Iff.rfl

theorem keepsBooks_same {α : Type} (e : DexError) : KeepsBooks dex ((.error (.error e),dex) : Outcome α) :=
  ⟨fun _ => rfl,SameBooks.refl dex⟩

theorem sameBooks_setPair {id : PairId} {pair pair' : Pair} (h : dex.pairs.lookup id = some pair) :
    SameBooks dex { dex with pairs := dex.pairs.insert id pair' } ↔ pair'.books = pair.books := by
  constructor
  · intro hsame
    have hid := hsame.pairs id
    rw [h] at hid
    dsimp only at hid
    rw [AList.lookup_insert] at hid
    exact Option.some.inj hid
  · intro hbooks
    refine ⟨fun _ _ => rfl,fun _ => rfl,fun _ _ => rfl,?_⟩
    intro id'
    dsimp only
    by_cases hid : id' = id
    · rw [hid, AList.lookup_insert, h, Option.map_some, Option.map_some, hbooks]
    · rw [AList.lookup_insert_ne hid]

theorem tokenTotal_setPair {id : PairId} {pair pair' : Pair} (h : dex.pairs.lookup id = some pair) {token : Address}
    (hheld : held token id pair' = held token id pair) :
    tokenTotal { dex with pairs := dex.pairs.insert id pair' } token = dex.tokenTotal token := by
  have hset := sum_setPair h pair' token
  unfold tokenTotal
  dsimp only
  omega

theorem keepsBooks_setPair {α : Type} {id : PairId} {pair : Pair} (h : dex.pairs.lookup id = some pair) (e : DexError) :
    KeepsBooks dex ((.error (.error e),{ dex with pairs := dex.pairs.insert id pair }) : Outcome α) :=
  ⟨fun _ => tokenTotal_setPair h rfl,(sameBooks_setPair h).mpr rfl⟩

end Books

section Trades
variable {trader tokenIn tokenOut : Address} {amountIn : ℕ} {terms : Terms}

theorem settle {pairs : Pairs} {amountOut : ℕ} (hne : tokenIn ≠ tokenOut)
    (hbal : amountIn ≤ dex.allowances.balanceOf tokenIn trader) (htotal : ∀ token, dex.tokenTotal token < 2 ^ 127)
    (hpairs : ∀ token, pairs.sumOf (held token) + (if tokenOut = token then amountOut else 0) =
      dex.pairs.sumOf (held token) + if tokenIn = token then amountIn else 0) :
    ∃ reg, dex.allowances.subBalance tokenIn trader amountIn = .ok reg ∧
      ∀ token, (reg.addBalance tokenOut trader amountOut).balances.sumOf (balanceIn token) +
        pairs.sumOf (held token) = dex.tokenTotal token := by
  have hsub := subBalance_eq hbal
  refine ⟨_,hsub,?_⟩
  intro token
  have hpaid := sum_subBalance hsub
  generalize ({ dex.allowances with balances := _ } : AllowanceRegistry) = reg at hpaid
  have hfits : reg.balanceOf tokenOut trader + amountOut ≤ maxU128 := by
    have hle := balance_le reg tokenOut trader
    have hout := hpaid tokenOut
    have hin := hpairs tokenOut
    have hless := htotal tokenOut
    rw [if_neg hne] at hout hin
    rw [if_pos rfl] at hin
    unfold tokenTotal at hless
    unfold maxU128
    omega
  have hgot := sum_addBalance reg tokenOut trader amountOut token hfits
  have htoken := hpaid token
  have hpair := hpairs token
  rw [hgot, tokenTotal]
  omega

theorem buy_keeps_iff_of_route {route : SwapRoute} (hbal : amountIn ≤ dex.allowances.balanceOf tokenIn trader)
    (hroute : findBestRoute tokenIn tokenOut amountIn dex.pairs = some route)
    (htotal : ∀ token, dex.tokenTotal token < 2 ^ 127) {clean : Prop}
    (hfailed : ∀ e pairs, executeRoute route dex.pairs terms = (.error e,pairs) →
      (KeepsBooks dex ((.error e.toDex,{ dex with pairs := pairs }) : Outcome ℕ) ↔ clean))
    (hdone : ∀ amountOut fees pairs, executeRoute route dex.pairs terms = (.ok (amountOut,fees),pairs) →
      clean ∧ ∀ token, pairs.sumOf (held token) + (if tokenOut = token then amountOut else 0) =
        dex.pairs.sumOf (held token) + if tokenIn = token then amountIn else 0) :
    KeepsBooks dex (dex.buy trader tokenIn tokenOut amountIn terms) ↔ clean := by
  have hshape := findBestRoute_shape hroute
  rw [buy]
  dsimp only
  rw [if_neg (by omega), hroute]
  dsimp only
  rcases hexec : executeRoute route dex.pairs terms with ⟨e | ⟨amountOut,fees⟩,pairs⟩
  · exact hfailed e pairs hexec
  · obtain ⟨hclean,hpairs⟩ := hdone amountOut fees pairs hexec
    obtain ⟨reg,hreg,hsums⟩ := settle hshape.1 hbal htotal hpairs
    dsimp only
    rw [hreg]
    exact ⟨fun _ => hclean,fun _ => hsums⟩

theorem books_chargeFee {pair : Pair} {p : SwapParams} {quote : SwapQuote} (h : Pair.Quoted pair p quote) :
    (pair.chargeFee p.aToB quote.protocolFee).books = pair.books ↔ p.amountIn * pair.feeTier.protocolBps < 10000 := by
  have hzero : p.amountIn * pair.feeTier.protocolBps < 10000 ↔ quote.protocolFee = 0 := by
    rw [h.protocolFee, Nat.div_eq_zero_iff]
    omega
  have hword : BitVec.ofNat 128 quote.protocolFee = 0#128 ↔ quote.protocolFee = 0 := by
    constructor
    · intro hword
      have hnat := congrArg BitVec.toNat hword
      rwa [BitVec.toNat_ofNat, Nat.mod_eq_of_lt h.fee_lt, BitVec.toNat_ofNat, Nat.zero_mod] at hnat
    · intro hfee
      rw [hfee]
  rw [hzero, ← hword]
  cases p.aToB with
  | true => simp [Pair.chargeFee, Pair.books]
  | false => simp [Pair.chargeFee, Pair.books]

/-- The loop of `execute_route` after the swap of a step. -/
def afterHop (terms : Terms) (pairs : Pairs) (step : SwapStep) (fees : ℕ) (rest : List SwapStep) :
    Pair.Outcome SwapResult → Except (Stopped AmmError) (ℕ × ℕ) × Pairs
  | (.error e,pair) => (.error e,pairs.insert step.pairId pair)
  | (.ok result,pair) =>
    executeSteps terms (pairs.insert step.pairId pair) result.amountOut
      (saturatingAdd128 fees result.protocolFee) rest

theorem executeSteps_cons {pairs : Pairs} {step : SwapStep} {pair : Pair} {amount fees : ℕ}
    {rest : List SwapStep} (hlookup : pairs.lookup step.pairId = some pair) :
    executeSteps terms pairs amount fees (step :: rest) =
      afterHop terms pairs step fees rest (pair.swap (hopParams terms step amount rest.isEmpty)) := by
  rw [executeSteps, hlookup]
  rfl

theorem conditions_of_case {pair : Pair} {p : SwapParams} {out : Pair.Outcome SwapResult}
    (hcase : Pair.SwapCase pair p out) : Passes pair p ↔ ∃ result, out.1 = .ok result := by
  cases hcase with
  | refused e hnone =>
    constructor
    · rintro ⟨hopen,quote,hquote,-⟩
      exact absurd hquote (hnone hopen quote)
    · rintro ⟨result,hresult⟩
      cases hresult
  | booked hopen quote hquote hk =>
    constructor
    · rintro ⟨-,quote',hquote',hk'⟩
      rw [hquote] at hquote'
      cases hquote'
      omega
    · rintro ⟨result,hresult⟩
      cases hresult
  | done hopen quote hquote hk => exact ⟨fun _ => ⟨_,rfl⟩,fun _ => ⟨hopen,quote,hquote,hk⟩⟩

theorem failedHop_keeps_iff {id : PairId} {pair pair' : Pair} {p : SwapParams} {e : Stopped AmmError}
    (hlookup : dex.pairs.lookup id = some pair) (hcase : Pair.SwapCase pair p (.error e,pair')) :
    KeepsBooks dex ((.error e.toDex,{ dex with pairs := dex.pairs.insert id pair' }) : Outcome ℕ) ↔
      BooksNoFee pair p := by
  cases hcase with
  | refused e' hnone =>
    refine ⟨fun _ => ?_,fun _ => keepsBooks_setPair hlookup _⟩
    intro hopen quote hquote
    exact absurd hquote (hnone hopen quote)
  | booked hopen quote hquote hk =>
    have hbooks := books_chargeFee (Pair.quoted_of_ok hquote)
    constructor
    · rintro ⟨-,hsame⟩ _ quote' hquote' _
      exact hbooks.mp ((sameBooks_setPair hlookup).mp hsame)
    · intro hfee
      exact ⟨fun token => tokenTotal_setPair hlookup (held_chargeFee _ _ _ _),
        (sameBooks_setPair hlookup).mpr (hbooks.mpr (hfee hopen quote hquote hk))⟩

theorem booksNoFee_of_passes {pair : Pair} {p : SwapParams} (h : Passes pair p) : BooksNoFee pair p := by
  obtain ⟨-,quote,hquote,hk⟩ := h
  intro _ quote' hquote' hk'
  rw [hquote] at hquote'
  cases hquote'
  omega

theorem direct_keeps_iff {route : SwapRoute} {step : SwapStep} {pair : Pair}
    (hbal : amountIn ≤ dex.allowances.balanceOf tokenIn trader)
    (hroute : findBestRoute tokenIn tokenOut amountIn dex.pairs = some route)
    (htotal : ∀ token, dex.tokenTotal token < 2 ^ 127) (hsteps : route.steps = [step])
    (hhop : Hop dex.pairs step tokenIn tokenOut pair) :
    KeepsBooks dex (dex.buy trader tokenIn tokenOut amountIn terms) ↔
      BooksNoFee pair (hopParams terms step amountIn true) := by
  have hamount : route.amountIn = amountIn := (findBestRoute_shape hroute).2.2.1
  have hexec : executeRoute route dex.pairs terms =
      afterHop terms dex.pairs step 0 [] (pair.swap (hopParams terms step amountIn true)) := by
    rw [executeRoute, hsteps, executeSteps_cons hhop.lookup, hamount]
    rfl
  have hcase := Pair.swap_cases pair (hopParams terms step amountIn true)
  rcases hout : pair.swap (hopParams terms step amountIn true) with ⟨e | result,pair'⟩
  · rw [hout] at hexec hcase
    apply buy_keeps_iff_of_route hbal hroute htotal
    · intro e' pairs herror
      rw [hexec] at herror
      cases herror
      exact failedHop_keeps_iff hhop.lookup hcase
    · intro amountOut fees pairs hok
      rw [hexec] at hok
      cases hok
  · rw [hout] at hexec hcase
    have hpasses := (conditions_of_case hcase).mpr ⟨result,rfl⟩
    cases hcase with
    | done hopen quote hquote hk =>
      apply buy_keeps_iff_of_route hbal hroute htotal
      · intro e' pairs herror
        rw [hexec] at herror
        cases herror
      · intro amountOut fees pairs hok
        rw [hexec] at hok
        cases hok
        exact ⟨booksNoFee_of_passes hpasses,hhop.sum_swapped rfl (Pair.quoted_of_ok hquote)⟩

theorem books_swapped_ne {pair : Pair} {p : SwapParams} {quote : SwapQuote} (h : Pair.Quoted pair p quote) :
    (pair.swapped p quote).books ≠ pair.books := by
  have hin := h.newIn
  have hpos := h.amount_pos
  intro hbooks
  have hA := congrArg PairBooks.reserveA hbooks
  have hB := congrArg PairBooks.reserveB hbooks
  cases hdir : p.aToB with
  | true =>
    simp only [Pair.books, Pair.swapped, hdir, Pair.setReserves, Pair.reserves, if_true] at hin hA
    omega
  | false =>
    simp only [Pair.books, Pair.swapped, hdir, Pair.setReserves, Pair.reserves, Bool.false_eq_true, if_false] at hin hB
    omega

/-- After a first hop that was taken, the books are kept just when the second one passes. -/
theorem secondHop_keeps_iff {route : SwapRoute} {mid : Address} {step step' : SwapStep} {pair pair' : Pair}
    {quote : SwapQuote} {fees : ℕ} (hbal : amountIn ≤ dex.allowances.balanceOf tokenIn trader)
    (hroute : findBestRoute tokenIn tokenOut amountIn dex.pairs = some route)
    (htotal : ∀ token, dex.tokenTotal token < 2 ^ 127)
    (hhop : Hop dex.pairs step tokenIn mid pair) (hhop' : Hop dex.pairs step' mid tokenOut pair')
    (hne : step'.pairId ≠ step.pairId)
    (hquoted : Pair.Quoted pair (hopParams terms step amountIn false) quote)
    (hexec : executeRoute route dex.pairs terms =
      afterHop terms (dex.pairs.insert step.pairId (pair.swapped (hopParams terms step amountIn false) quote)) step' fees
        [] (pair'.swap (hopParams terms step' quote.amountOut true))) :
    KeepsBooks dex (dex.buy trader tokenIn tokenOut amountIn terms) ↔
      Passes pair' (hopParams terms step' quote.amountOut true) := by
  have hcase := Pair.swap_cases pair' (hopParams terms step' quote.amountOut true)
  have hpasses := conditions_of_case hcase
  apply buy_keeps_iff_of_route hbal hroute htotal
  · intro e pairs herror
    rw [hexec] at herror
    rcases hout : pair'.swap (hopParams terms step' quote.amountOut true) with ⟨e' | result,pair''⟩
    · rw [hout] at hcase hpasses herror
      have hnot : ¬ Passes pair' (hopParams terms step' quote.amountOut true) := by
        rw [hpasses]
        rintro ⟨result,hresult⟩
        cases hresult
      cases herror
      -- the first hop has been taken, and stays
      have hsame : ∀ dex' : DexEngine, dex'.pairs = (dex.pairs.insert step.pairId
          (pair.swapped (hopParams terms step amountIn false) quote)).insert step'.pairId pair'' →
          ¬ SameBooks dex dex' := by
        intro dex' hdex hsame
        have hid := hsame.pairs step.pairId
        rw [hdex, AList.lookup_insert_ne hne.symm, AList.lookup_insert, hhop.lookup, Option.map_some,
          Option.map_some, Option.some.injEq] at hid
        exact books_swapped_ne hquoted hid
      refine ⟨fun hkeeps => ?_,fun hpass => absurd hpass hnot⟩
      -- a swap does not panic
      cases hcase with
      | refused e hnone => exact absurd hkeeps.2 (hsame _ rfl)
      | booked hopen quote' hquote' hk => exact absurd hkeeps.2 (hsame _ rfl)
    · rw [hout] at herror
      cases herror
  · intro amountOut fees pairs hok
    have hlookup' : (dex.pairs.insert step.pairId (pair.swapped (hopParams terms step amountIn false) quote)).lookup
        step'.pairId = some pair' := by
      rw [AList.lookup_insert_ne hne, hhop'.lookup]
    have hhop'' : Hop (dex.pairs.insert step.pairId (pair.swapped (hopParams terms step amountIn false) quote)) step'
        mid tokenOut pair' := ⟨hhop'.between,hhop'.ne,hlookup'⟩
    rw [hexec] at hok
    generalize pair'.swap (hopParams terms step' quote.amountOut true) = out at hcase hpasses hok
    cases hcase with
    | refused e' hnone => cases hok
    | booked hopen' quote' hquote' hk' => cases hok
    | done hopen' quote' hquote' hk' =>
      cases hok
      refine ⟨hpasses.mpr ⟨_,rfl⟩,fun token => ?_⟩
      have hin := hhop.sum_swapped (p := hopParams terms step amountIn false) rfl hquoted token
      have hout := hhop''.sum_swapped (p := hopParams terms step' quote.amountOut true) rfl
        (Pair.quoted_of_ok hquote') token
      simp only [hopParams] at hin hout ⊢
      dsimp only [Pair.swapResult]
      omega

theorem twoHop_keeps_iff {route : SwapRoute} {mid : Address} {step step' : SwapStep} {pair pair' : Pair}
    (hbal : amountIn ≤ dex.allowances.balanceOf tokenIn trader)
    (hroute : findBestRoute tokenIn tokenOut amountIn dex.pairs = some route)
    (htotal : ∀ token, dex.tokenTotal token < 2 ^ 127) (hsteps : route.steps = [step,step'])
    (hhop : Hop dex.pairs step tokenIn mid pair) (hhop' : Hop dex.pairs step' mid tokenOut pair')
    (hne : step'.pairId ≠ step.pairId) :
    KeepsBooks dex (dex.buy trader tokenIn tokenOut amountIn terms) ↔
      BooksNoFee pair (hopParams terms step amountIn false) ∧
      (Passes pair (hopParams terms step amountIn false) →
        Passes pair' (hopParams terms step' (pair.getAmountOut amountIn step.aToB) true)) := by
  have hamount : route.amountIn = amountIn := (findBestRoute_shape hroute).2.2.1
  have hexec : executeRoute route dex.pairs terms =
      afterHop terms dex.pairs step 0 [step'] (pair.swap (hopParams terms step amountIn false)) := by
    rw [executeRoute, hsteps, executeSteps_cons hhop.lookup, hamount]
    rfl
  have hcase := Pair.swap_cases pair (hopParams terms step amountIn false)
  have hpasses := conditions_of_case hcase
  rcases hout : pair.swap (hopParams terms step amountIn false) with ⟨e | result,pair₁⟩
  · rw [hout] at hexec hcase hpasses
    have hnot : ¬ Passes pair (hopParams terms step amountIn false) := by
      rw [hpasses]
      rintro ⟨result,hresult⟩
      cases hresult
    apply buy_keeps_iff_of_route hbal hroute htotal
    · intro e' pairs herror
      rw [hexec] at herror
      cases herror
      rw [failedHop_keeps_iff hhop.lookup hcase]
      exact ⟨fun hfee => ⟨hfee,fun hpass => absurd hpass hnot⟩,fun hclean => hclean.1⟩
    · intro amountOut fees pairs hok
      rw [hexec] at hok
      cases hok
  · rw [hout] at hexec hcase hpasses
    have hpass := hpasses.mpr ⟨result,rfl⟩
    have hnofee := booksNoFee_of_passes hpass
    cases hcase with
    | done hopen quote hquote hk =>
      have hquoted := Pair.quoted_of_ok hquote
      have hmid : quote.amountOut = pair.getAmountOut amountIn step.aToB := hquoted.quoted
      -- the second hop meets the pair as it was
      have hlookup' : (dex.pairs.insert step.pairId (pair.swapped (hopParams terms step amountIn false) quote)).lookup
          step'.pairId = some pair' := by
        rw [AList.lookup_insert_ne hne, hhop'.lookup]
      dsimp only [afterHop, Pair.swapResult] at hexec
      rw [executeSteps_cons hlookup'] at hexec
      rw [secondHop_keeps_iff hbal hroute htotal hhop hhop' hne hquoted hexec, hmid]
      exact ⟨fun hsecond => ⟨hnofee,fun _ => hsecond⟩,fun hclean => hclean.2 hpass⟩

theorem buy_keeps_iff (htotal : ∀ token, dex.tokenTotal token < 2 ^ 127) :
    KeepsBooks dex (dex.buy trader tokenIn tokenOut amountIn terms) ↔
      CleanBuy dex trader tokenIn tokenOut amountIn terms := by
  unfold CleanBuy
  by_cases hbal : amountIn ≤ dex.allowances.balanceOf tokenIn trader
  · cases hroute : findBestRoute tokenIn tokenOut amountIn dex.pairs with
    | none =>
      have hbuy : dex.buy trader tokenIn tokenOut amountIn terms = (.error (.error .noRoute),dex) := by
        rw [buy]
        dsimp only
        rw [if_neg (by omega), hroute]
      rw [hbuy]
      refine ⟨fun _ _ route h => ?_,fun _ => keepsBooks_same _⟩
      cases h
    | some route =>
      have hgoal : ∀ clean : Prop, (KeepsBooks dex (dex.buy trader tokenIn tokenOut amountIn terms) ↔ clean) →
          (clean ↔ CleanSteps terms dex.pairs amountIn route.steps) →
          (KeepsBooks dex (dex.buy trader tokenIn tokenOut amountIn terms) ↔
            (amountIn ≤ dex.allowances.balanceOf tokenIn trader → ∀ route', some route = some route' →
              CleanSteps terms dex.pairs amountIn route'.steps)) := by
        intro clean hkeeps hsteps
        rw [hkeeps, hsteps]
        refine ⟨fun h _ route' heq => ?_,fun h => h hbal route rfl⟩
        cases heq
        exact h
      obtain ⟨-,-,-,hshape⟩ := findBestRoute_shape hroute
      generalize hsteps : route.steps = steps at hshape hgoal
      cases hshape with
      | direct step pair hhop =>
        refine hgoal _ (direct_keeps_iff hbal hroute htotal hsteps hhop) ?_
        unfold CleanSteps
        simp only [hhop.lookup, Option.some.injEq, forall_eq']
      | twoHop mid step step' pair pair' hhop hhop' hne =>
        refine hgoal _ (twoHop_keeps_iff hbal hroute htotal hsteps hhop hhop' hne) ?_
        unfold CleanSteps
        simp only [hhop.lookup, hhop'.lookup, Option.some.injEq]
        constructor
        · rintro hclean _ _ rfl rfl
          exact hclean
        · exact fun hclean => hclean _ _ rfl rfl
  · have hbuy : dex.buy trader tokenIn tokenOut amountIn terms =
        (.error (.error (.insufficientInputBalance (dex.allowances.balanceOf tokenIn trader) amountIn)),dex) := by
      rw [buy]
      dsimp only
      rw [if_pos (by omega)]
    rw [hbuy]
    exact ⟨fun _ h => absurd h hbal,fun _ => keepsBooks_same _⟩

end Trades

section Deposits
variable {provider tokenA tokenB : Address} {p : AddLiquidityParams}

theorem balance_add_held_le {id : PairId} {pair : Pair} (h : dex.pairs.lookup id = some pair) (token owner : Address) :
    dex.allowances.balanceOf token owner + held token id pair ≤ dex.tokenTotal token := by
  have hbal := balance_le dex.allowances token owner
  have hpair := AList.countOf_le dex.pairs (held token) id
  rw [AList.countOf_of_some h] at hpair
  unfold tokenTotal
  omega

theorem reserves_fit {id : PairId} {pair : Pair} {usedA usedB : ℕ} (h : dex.pairs.lookup id = some pair)
    (htotal : ∀ token, dex.tokenTotal token < 2 ^ 127) (hA : usedA ≤ dex.allowances.balanceOf id.tokenA provider)
    (hB : usedB ≤ dex.allowances.balanceOf id.tokenB provider) :
    pair.reserveA + usedA ≤ maxU128 ∧ pair.reserveB + usedB ≤ maxU128 := by
  have hleA := balance_add_held_le h id.tokenA provider
  have hleB := balance_add_held_le h id.tokenB provider
  have hlessA := htotal id.tokenA
  have hlessB := htotal id.tokenB
  unfold held at hleA hleB
  rw [if_pos rfl] at hleA
  rw [if_pos (c := id.tokenB = id.tokenB) rfl] at hleB
  unfold maxU128
  omega

theorem cleanDeposit_iff {pair : Pair} {lp usedA usedB : ℕ}
    (hA : p.amountA ≤ dex.allowances.balanceOf (PairId.new tokenA tokenB).tokenA provider)
    (hB : p.amountB ≤ dex.allowances.balanceOf (PairId.new tokenA tokenB).tokenB provider)
    (hpair : dex.pairs.lookup (PairId.new tokenA tokenB) = some pair) (haccepts : pair.Accepts p lp usedA usedB) :
    CleanDeposit dex provider tokenA tokenB p ↔
      if pair.totalLp + lp ≤ maxU128 then (PairId.new tokenA tokenB).tokenA = (PairId.new tokenA tokenB).tokenB →
        usedA + usedB ≤ dex.allowances.balanceOf (PairId.new tokenA tokenB).tokenA provider
      else usedA = 0 ∧ usedB = 0 := by
  refine ⟨fun h => h hA hB pair hpair lp usedA usedB haccepts,?_⟩
  rintro h - - pair' hpair' lp' usedA' usedB' haccepts'
  cases hpair.symm.trans hpair'
  obtain ⟨rfl,rfl,rfl⟩ := haccepts.unique haccepts'
  exact h

/-- The end of `add_liquidity`: the provider pays for the deposit. -/
def payDeposit (dex : DexEngine) (id : PairId) (provider : Address) (pair : Pair) (result : AddLiquidityResult) :
    Outcome AddLiquidityResult :=
  let dex := { dex with pairs := dex.pairs.insert id pair }
  match dex.allowances.subBalance id.tokenA provider result.usedA with
  | .error e => (.error (.error (.approval e)),dex)
  | .ok allowances =>
    let dex := { dex with allowances := allowances }
    match dex.allowances.subBalance id.tokenB provider result.usedB with
    | .error e => (.error (.error (.approval e)),dex)
    | .ok allowances =>
      (.ok result,
        { dex with
          allowances := allowances
          lpRegistry := dex.lpRegistry.mint id provider result.lpMinted })

theorem tokenTotal_deposited {id : PairId} {pair : Pair} {lp usedA usedB : ℕ} {reg reg' : AllowanceRegistry}
    {lpRegistry : LpRegistry} (hpair : dex.pairs.lookup id = some pair)
    (hpaidA : dex.allowances.subBalance id.tokenA provider usedA = .ok reg)
    (hpaidB : reg.subBalance id.tokenB provider usedB = .ok reg') (token : Address) :
    ({ dex with
      pairs := dex.pairs.insert id
        { pair with
          reserveA := pair.reserveA + usedA
          reserveB := pair.reserveB + usedB
          totalLp := pair.totalLp + lp }
      allowances := reg'
      lpRegistry := lpRegistry } : DexEngine).tokenTotal token = dex.tokenTotal token := by
  have hset := sum_setPair hpair { pair with
    reserveA := pair.reserveA + usedA
    reserveB := pair.reserveB + usedB
    totalLp := pair.totalLp + lp } token
  have hfirst := sum_subBalance hpaidA token
  have hlast := sum_subBalance hpaidB token
  unfold tokenTotal
  dsimp only
  simp only [held] at hset
  by_cases htokenA : id.tokenA = token
  · by_cases htokenB : id.tokenB = token
    · simp only [if_pos htokenA, if_pos htokenB] at hset hfirst hlast
      omega
    · simp only [if_pos htokenA, if_neg htokenB] at hset hfirst hlast
      omega
  · by_cases htokenB : id.tokenB = token
    · simp only [if_neg htokenA, if_pos htokenB] at hset hfirst hlast
      omega
    · simp only [if_neg htokenA, if_neg htokenB] at hset hfirst hlast
      omega

/-- The payment fails after the pair is stored just when one token is taken twice and there is not
enough of it. -/
theorem payDeposit_keeps_iff {id : PairId} {pair : Pair} {lp usedA usedB : ℕ} (hpair : dex.pairs.lookup id = some pair)
    (hleA : usedA ≤ dex.allowances.balanceOf id.tokenA provider)
    (hleB : usedB ≤ dex.allowances.balanceOf id.tokenB provider) :
    KeepsBooks dex (payDeposit dex id provider
      { pair with
        reserveA := pair.reserveA + usedA
        reserveB := pair.reserveB + usedB
        totalLp := pair.totalLp + lp } ⟨lp,usedA,usedB⟩) ↔
      (id.tokenA = id.tokenB → usedA + usedB ≤ dex.allowances.balanceOf id.tokenA provider) := by
  have hpaidA := subBalance_eq hleA
  have hrest := balanceOf_insert dex.allowances id.tokenA provider
    (dex.allowances.balanceOf id.tokenA provider - usedA) id.tokenB provider
  unfold payDeposit
  dsimp only
  rw [hpaidA]
  generalize ({ dex.allowances with balances := _ } : AllowanceRegistry) = reg at hpaidA hrest
  dsimp only
  by_cases hsecond : usedB ≤ reg.balanceOf id.tokenB provider
  · rw [subBalance_eq hsecond]
    refine ⟨fun _ htwice => ?_,fun _ token => tokenTotal_deposited hpair hpaidA (subBalance_eq hsecond) token⟩
    rw [htwice, if_pos rfl] at hrest
    rw [htwice] at hleA ⊢
    omega
  · have htwice : id.tokenB = id.tokenA := by
      by_contra hne
      rw [if_neg (by rw [Prod.mk.injEq]; exact fun h => hne h.1)] at hrest
      omega
    rw [htwice, if_pos rfl] at hrest
    have hshort : reg.subBalance id.tokenB provider usedB =
        .error (.insufficientBalance (reg.balanceOf id.tokenB provider) usedB) := if_pos (by omega)
    rw [hshort]
    constructor
    · rintro ⟨-,hbooks⟩
      have hid := hbooks.pairs id
      dsimp only at hid
      rw [AList.lookup_insert, hpair, Option.map_some, Option.map_some, Option.some.injEq] at hid
      have hreserveA := congrArg PairBooks.reserveA hid
      have hreserveB := congrArg PairBooks.reserveB hid
      dsimp only [Pair.books] at hreserveA hreserveB
      omega
    · intro hcovered
      have hle := hcovered htwice.symm
      rw [htwice] at hsecond
      omega

theorem deposit_keeps_iff (htotal : ∀ token, dex.tokenTotal token < 2 ^ 127) :
    KeepsBooks dex (dex.addLiquidity provider tokenA tokenB p) ↔ CleanDeposit dex provider tokenA tokenB p := by
  rw [addLiquidity]
  dsimp only
  by_cases hA : p.amountA ≤ dex.allowances.balanceOf (PairId.new tokenA tokenB).tokenA provider
  · by_cases hB : p.amountB ≤ dex.allowances.balanceOf (PairId.new tokenA tokenB).tokenB provider
    · rw [if_neg (by omega), if_neg (by omega)]
      cases hpair : dex.pairs.lookup (PairId.new tokenA tokenB) with
      | none =>
        refine ⟨fun _ _ _ pair h => ?_,fun _ => keepsBooks_same _⟩
        cases hpair.symm.trans h
      | some pair =>
        dsimp only
        generalize hout : pair.addLiquidity p = out
        have hcase := hout ▸ Pair.addLiquidity_cases pair p
        have hfits : ∀ lp usedA usedB, pair.Accepts p lp usedA usedB →
            usedA ≤ dex.allowances.balanceOf (PairId.new tokenA tokenB).tokenA provider ∧
              usedB ≤ dex.allowances.balanceOf (PairId.new tokenA tokenB).tokenB provider ∧
              pair.reserveA + usedA ≤ maxU128 ∧ pair.reserveB + usedB ≤ maxU128 := by
          intro lp usedA usedB haccepts
          obtain ⟨hleA,hleB⟩ := Pair.used_le haccepts.shares
          obtain ⟨hsumA,hsumB⟩ := reserves_fit hpair htotal (hleA.trans hA) (hleB.trans hB)
          exact ⟨hleA.trans hA,hleB.trans hB,hsumA,hsumB⟩
        cases hcase with
        | refused e hnone =>
          refine ⟨fun _ _ _ pair' hpair' lp usedA usedB haccepts => ?_,fun _ => keepsBooks_setPair hpair _⟩
          cases hpair.symm.trans hpair'
          have hover := hnone lp usedA usedB haccepts
          have := (hfits lp usedA usedB haccepts).2.2.1
          omega
        | panicked hnone =>
          refine ⟨fun _ _ _ pair' hpair' lp usedA usedB haccepts => ?_,fun _ => trivial⟩
          cases hpair.symm.trans hpair'
          exact absurd haccepts (hnone lp usedA usedB)
        | storedA lp usedA usedB haccepts hsum hover =>
          have := (hfits lp usedA usedB haccepts).2.2.2
          omega
        | storedBoth lp usedA usedB haccepts hsumA hsumB hlp =>
          rw [cleanDeposit_iff hA hB hpair haccepts, if_neg (by omega)]
          constructor
          · rintro ⟨-,hsame⟩
            have hbooks := (sameBooks_setPair hpair).mp hsame
            have hreserveA := congrArg PairBooks.reserveA hbooks
            have hreserveB := congrArg PairBooks.reserveB hbooks
            dsimp only [Pair.books] at hreserveA hreserveB
            omega
          · rintro ⟨rfl,rfl⟩
            exact keepsBooks_setPair hpair _
        | done lp usedA usedB haccepts hsumA hsumB hlp =>
          obtain ⟨hleA,hleB,-,-⟩ := hfits lp usedA usedB haccepts
          rw [cleanDeposit_iff hA hB hpair haccepts, if_pos hlp]
          exact payDeposit_keeps_iff hpair hleA hleB
    · rw [if_neg (by omega), if_pos (by omega)]
      exact ⟨fun _ _ h => absurd h hB,fun _ => keepsBooks_same _⟩
  · rw [if_pos (by omega)]
    exact ⟨fun _ h => absurd h hA,fun _ => keepsBooks_same _⟩

end Deposits

section Withdrawals
variable {provider tokenA tokenB : Address} {p : RemoveLiquidityParams}

theorem addBalance_balanceOf_le (reg : AllowanceRegistry) (token owner : Address) (amount : ℕ) (token' owner' : Address) :
    (reg.addBalance token owner amount).balanceOf token' owner' ≤
      reg.balanceOf token' owner' + if token = token' then amount else 0 := by
  rw [AllowanceRegistry.addBalance, balanceOf_insert]
  by_cases hkey : (token',owner') = (token,owner)
  · rw [if_pos hkey]
    obtain ⟨rfl,rfl⟩ := Prod.mk.inj hkey
    rw [if_pos rfl]
    exact min_le_left _ _
  · rw [if_neg hkey]
    exact Nat.le_add_right _ _

/-- What the provider gets was in the pair, so no balance is cut off. -/
theorem tokenTotal_withdrawn {id : PairId} {pair : Pair} {amountA amountB totalLp : ℕ} {lpRegistry : LpRegistry}
    (hpair : dex.pairs.lookup id = some pair) (htotal : ∀ token, dex.tokenTotal token < 2 ^ 127)
    (hleA : amountA ≤ pair.reserveA) (hleB : amountB ≤ pair.reserveB) (token : Address) :
    ({ dex with
      pairs := dex.pairs.insert id
        { pair with
          reserveA := pair.reserveA - amountA
          reserveB := pair.reserveB - amountB
          totalLp := totalLp }
      allowances := (dex.allowances.addBalance id.tokenA provider amountA).addBalance id.tokenB provider amountB
      lpRegistry := lpRegistry } : DexEngine).tokenTotal token = dex.tokenTotal token := by
  have hheldA := balance_add_held_le hpair id.tokenA provider
  have hheldB := balance_add_held_le hpair id.tokenB provider
  have hlessA := htotal id.tokenA
  have hlessB := htotal id.tokenB
  have hgrows := addBalance_balanceOf_le dex.allowances id.tokenA provider amountA id.tokenB provider
  unfold held at hheldA hheldB
  rw [if_pos (c := id.tokenA = id.tokenA) rfl] at hheldA
  rw [if_pos (c := id.tokenB = id.tokenB) rfl] at hheldB
  have hfitsA : dex.allowances.balanceOf id.tokenA provider + amountA ≤ maxU128 := by
    unfold maxU128
    omega
  have hfitsB : (dex.allowances.addBalance id.tokenA provider amountA).balanceOf id.tokenB provider + amountB ≤
      maxU128 := by
    unfold maxU128
    split at hheldB <;> split at hgrows <;> omega
  have hgotA := sum_addBalance dex.allowances id.tokenA provider amountA token hfitsA
  have hgotB := sum_addBalance (dex.allowances.addBalance id.tokenA provider amountA) id.tokenB provider
    amountB token hfitsB
  have hset := sum_setPair hpair { pair with
    reserveA := pair.reserveA - amountA
    reserveB := pair.reserveB - amountB
    totalLp := totalLp } token
  unfold tokenTotal
  dsimp only
  simp only [held] at hset
  by_cases htokenA : id.tokenA = token
  · by_cases htokenB : id.tokenB = token
    · simp only [if_pos htokenA, if_pos htokenB] at hset hgotA hgotB
      omega
    · simp only [if_pos htokenA, if_neg htokenB] at hset hgotA hgotB
      omega
  · by_cases htokenB : id.tokenB = token
    · simp only [if_neg htokenA, if_pos htokenB] at hset hgotA hgotB
      omega
    · simp only [if_neg htokenA, if_neg htokenB] at hset hgotA hgotB
      omega

theorem withdrawal_keeps (htotal : ∀ token, dex.tokenTotal token < 2 ^ 127) :
    KeepsBooks dex (dex.removeLiquidity provider tokenA tokenB p) := by
  rw [removeLiquidity]
  generalize PairId.new tokenA tokenB = id
  dsimp only
  by_cases hlp : dex.lpRegistry.balance id provider < p.lpAmount
  · rw [if_pos hlp]
    exact keepsBooks_same _
  · rw [if_neg hlp]
    cases hpair : dex.pairs.lookup id with
    | none => exact keepsBooks_same _
    | some pair =>
      dsimp only
      generalize hout : pair.removeLiquidity p = out
      have hcase := hout ▸ Pair.removeLiquidity_cases pair p
      cases hcase with
      | refused e => exact keepsBooks_setPair hpair _
      | done amountA amountB hamounts =>
        obtain ⟨-,hle,-,-,hA,hB⟩ := Pair.amountsFor_eq_ok hamounts
        have hleA : amountA ≤ pair.reserveA := hA ▸ Pair.mul_div_le_reserve hle
        have hleB : amountB ≤ pair.reserveB := hB ▸ Pair.mul_div_le_reserve hle
        dsimp only
        unfold LpRegistry.burn
        dsimp only
        rw [if_neg hlp]
        cases hsupply : dex.lpRegistry.totalSupply.lookup id with
        | none => exact trivial
        | some supply =>
          exact tokenTotal_withdrawn hpair htotal hleA hleB

end Withdrawals

section Transfers
variable {token owner recipient spender : Address} {amount : ℕ} {currentBlock : UInt64}

theorem transfer_sum {reg reg' : AllowanceRegistry} (hsub : reg.subBalance token owner amount = .ok reg')
    (hless : reg.balances.sumOf (balanceIn token) ≤ maxU128) (token' : Address) :
    (reg'.addBalance token recipient amount).balances.sumOf (balanceIn token') = reg.balances.sumOf (balanceIn token') := by
  have hpaid := sum_subBalance hsub
  have hself := hpaid token
  rw [if_pos rfl] at hself
  have hbal := balance_le reg' token recipient
  have hgot := sum_addBalance reg' token recipient amount token' (by omega)
  rw [hgot, ← hpaid token']

theorem sum_le_maxU128 (htotal : ∀ token, dex.tokenTotal token < 2 ^ 127) (token : Address) :
    dex.allowances.balances.sumOf (balanceIn token) ≤ maxU128 := by
  have hless := htotal token
  unfold tokenTotal at hless
  unfold maxU128
  omega

theorem transfer_keeps (htotal : ∀ token, dex.tokenTotal token < 2 ^ 127) :
    KeepsBooks dex (dex.transfer token owner recipient amount) := by
  rw [transfer, AllowanceRegistry.transfer]
  by_cases hzero : recipient = 0
  · rw [if_pos hzero]
    exact keepsBooks_same _
  · rw [if_neg hzero]
    by_cases hnone : amount = 0
    · rw [if_pos hnone]
      exact fun _ => rfl
    · rw [if_neg hnone]
      cases hsub : dex.allowances.subBalance token owner amount with
      | error e => exact keepsBooks_same _
      | ok reg =>
        intro token'
        have hless := sum_le_maxU128 htotal token
        have hsum : (reg.addBalance token recipient amount).balances.sumOf (balanceIn token') =
            dex.allowances.balances.sumOf (balanceIn token') := transfer_sum hsub hless token'
        exact congrArg (· + dex.pairs.sumOf (held token')) hsum

/-- Spending leaves the balances, and the approval too unless it is a finite one. -/
theorem spendAllowance_cases (reg : AllowanceRegistry) (token owner spender : Address) (amount : ℕ)
    (currentBlock : UInt64) :
    let Spends := fun entry : Approval => reg.allowances.lookup (token,owner,spender) = some entry ∧
      entry.expired currentBlock = false ∧ amount ≤ entry.amount ∧ entry.amount ≠ maxU128
    ((∃ e, reg.spendAllowance token owner spender amount currentBlock = .error e) ∧ ∀ entry, ¬ Spends entry) ∨
    (reg.spendAllowance token owner spender amount currentBlock = .ok reg ∧ ∀ entry, ¬ Spends entry) ∨
    ∃ entry, Spends entry ∧ reg.spendAllowance token owner spender amount currentBlock =
      .ok { reg with allowances :=
        reg.allowances.insert (token,owner,spender) { entry with amount := entry.amount - amount } } := by
  dsimp only
  unfold AllowanceRegistry.spendAllowance
  cases hentry : reg.allowances.lookup (token,owner,spender) with
  | none => exact .inl ⟨⟨_,rfl⟩,fun entry h => by cases h.1⟩
  | some entry =>
    dsimp only
    by_cases hexpired : entry.expired currentBlock = true
    · rw [if_pos hexpired]
      refine .inl ⟨⟨_,rfl⟩,?_⟩
      rintro entry' ⟨heq,hlive,-⟩
      cases heq
      rw [hexpired] at hlive
      cases hlive
    · rw [if_neg hexpired]
      by_cases hshort : entry.amount < amount
      · rw [if_pos hshort]
        refine .inl ⟨⟨_,rfl⟩,?_⟩
        rintro entry' ⟨heq,-,hle,-⟩
        cases heq
        omega
      · rw [if_neg hshort]
        by_cases hinfinite : entry.amount = maxU128
        · rw [if_pos hinfinite]
          refine .inr (.inl ⟨rfl,?_⟩)
          rintro entry' ⟨heq,-,-,hfinite⟩
          cases heq
          exact hfinite hinfinite
        · rw [if_neg hinfinite]
          exact .inr (.inr ⟨entry,⟨rfl,Bool.not_eq_true _ ▸ hexpired,not_lt.mp hshort,hinfinite⟩,rfl⟩)

theorem payment_keeps (htotal : ∀ token, dex.tokenTotal token < 2 ^ 127) {reg : AllowanceRegistry}
    (hbalances : reg.balances = dex.allowances.balances) (hcovered : amount ≤ reg.balanceOf token owner) :
    KeepsBooks dex (dex.onAllowances (match reg.subBalance token owner amount with
      | .error e => (.error e,reg)
      | .ok reg => (.ok (),reg.addBalance token recipient amount))) := by
  rw [subBalance_eq hcovered]
  intro token'
  have hless := sum_le_maxU128 htotal token
  rw [← hbalances] at hless
  have hsum := @transfer_sum _ _ recipient _ _ _ (subBalance_eq hcovered) hless token'
  have hsame := congrArg (fun balances => AList.sumOf balances (balanceIn token')) hbalances
  exact congrArg (· + dex.pairs.sumOf (held token')) (hsum.trans hsame)

theorem transferFrom_keeps_iff (htotal : ∀ token, dex.tokenTotal token < 2 ^ 127) :
    KeepsBooks dex (dex.transferFrom token owner recipient spender amount currentBlock) ↔
      CleanTransferFrom dex token owner recipient spender amount currentBlock := by
  unfold CleanTransferFrom
  rw [transferFrom, AllowanceRegistry.transferFrom]
  by_cases hzero : recipient = 0
  · rw [if_pos hzero]
    exact ⟨fun _ h => absurd hzero h,fun _ => keepsBooks_same _⟩
  · rw [if_neg hzero]
    by_cases hnone : amount = 0
    · rw [if_pos hnone]
      exact ⟨fun _ _ h => absurd hnone h,fun _ _ => rfl⟩
    · rw [if_neg hnone]
      rcases spendAllowance_cases dex.allowances token owner spender amount currentBlock with
        ⟨⟨e,hspend⟩,hno⟩ | ⟨hspend,hno⟩ | ⟨entry,⟨hentry,hlive,hle,hfinite⟩,hspend⟩
      · rw [hspend]
        refine ⟨fun _ _ _ entry hentry hlive hle hfinite => ?_,fun _ => keepsBooks_same _⟩
        exact absurd ⟨hentry,hlive,hle,hfinite⟩ (hno entry)
      · rw [hspend]
        refine ⟨fun _ _ _ entry hentry hlive hle hfinite => absurd ⟨hentry,hlive,hle,hfinite⟩ (hno entry),fun _ => ?_⟩
        dsimp only
        by_cases hcovered : amount ≤ dex.allowances.balanceOf token owner
        · exact payment_keeps htotal rfl hcovered
        · have hshort : dex.allowances.subBalance token owner amount =
              .error (.insufficientBalance (dex.allowances.balanceOf token owner) amount) := if_pos (by omega)
          rw [hshort]
          exact keepsBooks_same _
      · rw [hspend]
        dsimp only
        by_cases hcovered : amount ≤ dex.allowances.balanceOf token owner
        · exact ⟨fun _ _ _ _ _ _ _ _ => hcovered,fun _ => payment_keeps htotal rfl hcovered⟩
        · -- the allowance is spent, and the payment fails
          have hshort : ∀ allowances, AllowanceRegistry.subBalance ⟨allowances,dex.allowances.balances⟩ token owner amount =
              .error (.insufficientBalance (dex.allowances.balanceOf token owner) amount) :=
            fun allowances => if_pos (not_le.mp hcovered)
          rw [hshort]
          constructor
          · rintro ⟨-,hsame⟩
            have hkey := hsame.approvals (token,owner,spender)
            rw [hentry] at hkey
            change (dex.allowances.allowances.insert (token,owner,spender)
              { entry with amount := entry.amount - amount }).lookup (token,owner,spender) = some entry at hkey
            rw [AList.lookup_insert] at hkey
            have hamount := congrArg Approval.amount (Option.some.inj hkey)
            dsimp only at hamount
            omega
          · intro hclean
            exact absurd (hclean hzero hnone entry hentry hlive hle hfinite) hcovered

end Transfers

section Calls

/-- A call keeps the tokens, and with an error everything, exactly when it cannot stop half done. -/
theorem keepsBooks_iff (htotal : ∀ token, dex.tokenTotal token < 2 ^ 127) (call : DexCall) :
    KeepsBooks dex (dex.perform call) ↔ Clean dex call := by
  cases call with
  | buy trader tokenIn tokenOut amountIn terms =>
    rw [perform, keepsBooks_discard]
    exact buy_keeps_iff htotal
  | sell trader tokenIn tokenOut amountIn terms =>
    rw [perform, keepsBooks_discard]
    exact buy_keeps_iff htotal
  | addLiquidity provider tokenA tokenB p =>
    rw [perform, keepsBooks_discard]
    exact deposit_keeps_iff htotal
  | removeLiquidity provider tokenA tokenB p =>
    rw [perform, keepsBooks_discard]
    exact ⟨fun _ => trivial,fun _ => withdrawal_keeps htotal⟩
  | transfer token owner recipient amount => exact ⟨fun _ => trivial,fun _ => transfer_keeps htotal⟩
  | transferFrom token owner recipient spender amount currentBlock => exact transferFrom_keeps_iff htotal

def refuses {α : Type} : Outcome α → Bool
  | (.error (.error _),_) => true
  | _ => false

theorem KeepsBooks.of_refuses {α : Type} {out : Outcome α} (hkeeps : KeepsBooks dex out) (hrefuses : refuses out = true) :
    (∀ token, out.2.tokenTotal token = dex.tokenTotal token) ∧ SameBooks dex out.2 := by
  obtain ⟨(e | _) | _,dex'⟩ := out
  · exact hkeeps
  · cases hrefuses
  · cases hrefuses

theorem tokenTotal_le (dex : DexEngine) (token : Address) :
    dex.tokenTotal token ≤ dex.allowances.balances.sumOf (fun _ amount => amount) +
      dex.pairs.sumOf (fun _ pair => pair.reserveA + pair.reserveB) := by
  apply Nat.add_le_add
  · apply List.sum_le_sum
    intro e _
    unfold balanceIn
    dsimp only
    split <;> omega
  · apply List.sum_le_sum
    intro e _
    unfold held
    dsimp only
    split <;> split <;> omega

/-- Pools of the token 5 with WZBX and of WZBX with ZUSD, the second one small; the account 7 has 20,000
tokens and has approved 50,000 to the account 8. -/
def shallowDex : DexEngine where
  pairs := ((∅ : Pairs).insert (PairId.new 5 wzbx) { Pair.new .standard with
      reserveA := 1000000, reserveB := 1000000, totalLp := 999000 }).insert (PairId.new wzbx zusd)
      { Pair.new .standard with reserveA := 1000, reserveB := 1000, totalLp := 500 }
  allowances :=
    { allowances := (∅ : Table _ _).insert (5,7,8) ⟨50000,0⟩
      balances := (∅ : Table _ _).insert (5,7) 20000 }
  lpRegistry := ⟨∅,∅⟩
  protocolFees := ∅

theorem shallowDex_total (token : Address) : shallowDex.tokenTotal token < 2 ^ 127 :=
  lt_of_le_of_lt (tokenTotal_le shallowDex token) (by decide +kernel)

/-- The second hop is refused after the first one, and an allowance is spent without a payment. -/
theorem shallowDex_half_done : (∀ token, shallowDex.tokenTotal token < 2 ^ 127) ∧
    ¬ KeepsBooks shallowDex (shallowDex.perform (.buy 7 5 zusd 10000 ⟨0,9,1⟩)) ∧
    ¬ KeepsBooks shallowDex (shallowDex.perform (.transferFrom 5 7 9 8 30000 1)) := by
  refine ⟨shallowDex_total,?_,?_⟩
  · intro hkeeps
    have hsame := (hkeeps.of_refuses (by decide +kernel)).1 5
    have hmore : (shallowDex.perform (.buy 7 5 zusd 10000 ⟨0,9,1⟩)).2.tokenTotal 5 ≠ shallowDex.tokenTotal 5 := by
      decide +kernel
    exact hmore hsame
  · intro hkeeps
    have hsame := (hkeeps.of_refuses (by decide +kernel)).2.approvals (5,7,8)
    have hless : (shallowDex.perform (.transferFrom 5 7 9 8 30000 1)).2.allowances.allowances.lookup (5,7,8) ≠
        shallowDex.allowances.allowances.lookup (5,7,8) := by
      decide +kernel
    exact hless hsame

theorem keepsBooks_iff_shallowDex :
    KeepsBooks shallowDex (shallowDex.perform (.transferFrom 5 7 9 8 30000 1)) ↔
      Clean shallowDex (.transferFrom 5 7 9 8 30000 1) :=
  keepsBooks_iff shallowDex_total _

end Calls

end DexEngine

end ZbxChain.Pool
