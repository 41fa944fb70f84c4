import ZbxChain.Pool.PairCalls

/-! # Runs of a pool from its creation

Beside the pair, a ledger keeps what has been received and paid out of each token. A swap books
the protocol's share although the whole input stays in the reserve, and a deposit rounds down
both the shares and the amounts taken for them.
-/
namespace ZbxChain.Pool

structure Ledger where
  pair : Pair
  receivedA : ℕ
  receivedB : ℕ
  paidA : ℕ
  paidB : ℕ

inductive PairCall where
  | swap (p : SwapParams)
  | addLiquidity (p : AddLiquidityParams)
  | removeLiquidity (p : RemoveLiquidityParams)

namespace Ledger

def new (feeTier : FeeTier) : Ledger := ⟨Pair.new feeTier,0,0,0,0⟩

/-- A trade of one token for the other. -/
def trade (l : Ledger) (pair : Pair) (p : SwapParams) (amountOut : ℕ) : Ledger :=
  if p.aToB then { l with pair := pair, receivedA := l.receivedA + p.amountIn, paidB := l.paidB + amountOut }
  else { l with pair := pair, receivedB := l.receivedB + p.amountIn, paidA := l.paidA + amountOut }

def step (l : Ledger) : PairCall → Ledger × Bool
  | .swap p =>
    match l.pair.swap p with
    | (.ok result,pair) => (l.trade pair p result.amountOut,true)
    | (.error _,pair) => ({ l with pair := pair },false)
  | .addLiquidity p =>
    match l.pair.addLiquidity p with
    | (.ok result,pair) =>
      ({ l with pair := pair, receivedA := l.receivedA + result.usedA, receivedB := l.receivedB + result.usedB },true)
    | (.error _,pair) => ({ l with pair := pair },false)
  | .removeLiquidity p =>
    match l.pair.removeLiquidity p with
    | (.ok result,pair) =>
      ({ l with pair := pair, paidA := l.paidA + result.amountA, paidB := l.paidB + result.amountB },true)
    | (.error _,pair) => ({ l with pair := pair },false)

/-- What came in and has not gone out covers the reserves and the protocol fees. -/
def Backed (l : Ledger) : Prop :=
  l.paidA + l.pair.reserveA + l.pair.feeA.toNat ≤ l.receivedA ∧
  l.paidB + l.pair.reserveB + l.pair.feeB.toNat ≤ l.receivedB

/-- A share is worth no less than before. -/
def Undiluted (l l' : Ledger) : Prop :=
  0 < l.pair.totalLp → 0 < l'.pair.totalLp →
    l.pair.reserveA * l.pair.reserveB * l'.pair.totalLp ^ 2 ≤
      l'.pair.reserveA * l'.pair.reserveB * l.pair.totalLp ^ 2

/-- No step dilutes, and the pool can pay at every point. -/
def Sound (l : Ledger) (calls : List PairCall) : Prop :=
  ∀ e ∈ Machine.history step l calls,
    (e.output = true → Undiluted e.before (step e.before e.call).1) ∧ Backed (step e.before e.call).1

instance (l : Ledger) : Decidable (Backed l) := inferInstanceAs (Decidable (_ ∧ _))
instance (l l' : Ledger) : Decidable (Undiluted l l') := inferInstanceAs (Decidable (_ → _ → _))
instance (l : Ledger) (calls : List PairCall) : Decidable (Sound l calls) :=
  inferInstanceAs (Decidable (∀ e ∈ Machine.history step l calls, _ ∧ _))

/-- A swap that gets as far as the fee split has no share for the protocol. A deposit either divides
without a rest or, where one of its sums does not fit, stores nothing. -/
def Exact (l : Ledger) : PairCall → Prop
  | .swap p => l.pair.Open → ∀ quote, l.pair.swapQuote p = .ok quote →
      p.amountIn * l.pair.feeTier.protocolBps < 10000
  | .addLiquidity p => ∀ lp usedA usedB, l.pair.Accepts p lp usedA usedB →
      if l.pair.reserveA + usedA ≤ maxU128 ∧ l.pair.reserveB + usedB ≤ maxU128 ∧ l.pair.totalLp + lp ≤ maxU128 then
        0 < l.pair.totalLp → l.pair.totalLp ∣ lp * l.pair.reserveA ∧ l.pair.totalLp ∣ lp * l.pair.reserveB
      else l.pair.reserveA + usedA ≤ maxU128 → usedA = 0 ∧ (l.pair.reserveB + usedB ≤ maxU128 → usedB = 0)
  | .removeLiquidity _ => True

/-- The books of a pool that has booked no fee. -/
structure Settled (l : Ledger) : Prop where
  tokenA : l.receivedA = l.paidA + l.pair.reserveA
  tokenB : l.receivedB = l.paidB + l.pair.reserveB
  feeA : l.pair.feeA = 0#128
  feeB : l.pair.feeB = 0#128

theorem settled_new (feeTier : FeeTier) : Settled (new feeTier) := ⟨rfl,rfl,rfl,rfl⟩

section Rounding
variable {lp total reserveA reserveB : ℕ}

/-- A deposit at rounded amounts keeps the worth of a share exactly when nothing is rounded off. -/
theorem deposit_keeps_iff (htotal : 0 < total) (hA : 0 < reserveA) (hB : 0 < reserveB) :
    reserveA * reserveB * (total + lp) ^ 2 ≤
      (reserveA + lp * reserveA / total) * (reserveB + lp * reserveB / total) * total ^ 2 ↔
    total ∣ lp * reserveA ∧ total ∣ lp * reserveB := by
  have hdivA := Nat.div_add_mod (lp * reserveA) total
  have hdivB := Nat.div_add_mod (lp * reserveB) total
  rw [Nat.dvd_iff_mod_eq_zero, Nat.dvd_iff_mod_eq_zero]
  generalize lp * reserveA / total = usedA at hdivA
  generalize lp * reserveB / total = usedB at hdivB
  generalize lp * reserveA % total = restA at hdivA
  generalize lp * reserveB % total = restB at hdivB
  have hworthA : (reserveA + usedA) * total + restA = reserveA * (total + lp) := by nlinarith
  have hworthB : (reserveB + usedB) * total + restB = reserveB * (total + lp) := by nlinarith
  have hleft : reserveA * reserveB * (total + lp) ^ 2 = (reserveA * (total + lp)) * (reserveB * (total + lp)) := by ring
  have hright : (reserveA + usedA) * (reserveB + usedB) * total ^ 2 =
      ((reserveA + usedA) * total) * ((reserveB + usedB) * total) := by ring
  have hposA : 0 < (reserveA + usedA) * total := Nat.mul_pos (by omega) htotal
  have hposB : 0 < (reserveB + usedB) * total := Nat.mul_pos (by omega) htotal
  rw [hleft, hright, ← hworthA, ← hworthB]
  generalize (reserveA + usedA) * total = worthA at hposA
  generalize (reserveB + usedB) * total = worthB at hposB
  constructor
  · intro hle
    constructor
    · by_contra hrest
      have hpos : 0 < restA * worthB := Nat.mul_pos (Nat.pos_of_ne_zero hrest) hposB
      nlinarith
    · by_contra hrest
      have hpos : 0 < worthA * restB := Nat.mul_pos hposA (Nat.pos_of_ne_zero hrest)
      nlinarith
  · rintro ⟨rfl,rfl⟩
    exact le_refl _

theorem withdrawal_keeps (hle : lp ≤ total) :
    reserveA * reserveB * (total - lp) ^ 2 ≤
      (reserveA - lp * reserveA / total) * (reserveB - lp * reserveB / total) * total ^ 2 := by
  obtain ⟨rest,rfl⟩ := Nat.exists_eq_add_of_le hle
  have hpart : ∀ reserve, reserve * rest ≤ (reserve - lp * reserve / (lp + rest)) * (lp + rest) := by
    intro reserve
    have hdiv := Nat.div_mul_le_self (lp * reserve) (lp + rest)
    rw [Nat.sub_mul]
    apply Nat.le_sub_of_add_le
    nlinarith
  calc reserveA * reserveB * (lp + rest - lp) ^ 2 = (reserveA * rest) * (reserveB * rest) := by
        rw [Nat.add_sub_cancel_left]
        ring
    _ ≤ ((reserveA - lp * reserveA / (lp + rest)) * (lp + rest)) *
          ((reserveB - lp * reserveB / (lp + rest)) * (lp + rest)) := Nat.mul_le_mul (hpart _) (hpart _)
    _ = _ := by ring

end Rounding

section Steps
variable {l : Ledger} {call : PairCall}

/-- What a step has to show, for a step that can be told from the one that succeeds. -/
def Good (l l' : Ledger) (succeeds : Bool) : Prop := (succeeds = true → Undiluted l l') ∧ Backed l'

theorem good_of_settled {l' : Ledger} {succeeds : Bool} (h : Settled l') (hworth : succeeds = true → Undiluted l l') :
    Good l l' succeeds := by
  refine ⟨hworth,?_,?_⟩
  · rw [h.tokenA, h.feeA]
    exact le_refl _
  · rw [h.tokenB, h.feeB]
    exact le_refl _

theorem chargeFee_zero {pair : Pair} {aToB : Bool} : pair.chargeFee aToB 0 = pair := by
  obtain ⟨reserveA,reserveB,totalLp,feeA,feeB,feeTier,locked,circuit⟩ := pair
  cases aToB <;> simp [Pair.chargeFee]

theorem fees_of_backed (hA : l.receivedA = l.paidA + l.pair.reserveA) (hB : l.receivedB = l.paidB + l.pair.reserveB)
    (h : Backed l) : l.pair.feeA = 0#128 ∧ l.pair.feeB = 0#128 := by
  obtain ⟨hbackedA,hbackedB⟩ := h
  constructor
  · apply BitVec.eq_of_toNat_eq
    rw [BitVec.toNat_ofNat, Nat.zero_mod]
    omega
  · apply BitVec.eq_of_toNat_eq
    rw [BitVec.toNat_ofNat, Nat.zero_mod]
    omega

theorem fee_eq_zero {pair : Pair} {aToB : Bool} {fee : ℕ} (hfee : fee < 2 ^ 128) (hA : pair.feeA = 0#128)
    (hB : pair.feeB = 0#128)
    (hnone : (pair.chargeFee aToB fee).feeA = 0#128 ∧ (pair.chargeFee aToB fee).feeB = 0#128) : fee = 0 := by
  have hword : BitVec.ofNat 128 fee = 0#128 := by
    cases aToB with
    | true => simpa [Pair.chargeFee, hA] using hnone.1
    | false => simpa [Pair.chargeFee, hB] using hnone.2
  have hnat := congrArg BitVec.toNat hword
  rwa [BitVec.toNat_ofNat, Nat.mod_eq_of_lt hfee, BitVec.toNat_ofNat, Nat.zero_mod] at hnat

theorem protocolFee_eq_zero {pair : Pair} {p : SwapParams} {quote : SwapQuote} (h : Pair.Quoted pair p quote) :
    quote.protocolFee = 0 ↔ p.amountIn * pair.feeTier.protocolBps < 10000 := by
  rw [h.protocolFee, Nat.div_eq_zero_iff]
  omega

/-- What a trade leaves: even books, the fee, and no smaller product for the same shares. -/
structure Traded (l l' : Ledger) (charged : Pair) : Prop where
  tokenA : l'.receivedA = l'.paidA + l'.pair.reserveA
  tokenB : l'.receivedB = l'.paidB + l'.pair.reserveB
  feeA : l'.pair.feeA = charged.feeA
  feeB : l'.pair.feeB = charged.feeB
  totalLp : l'.pair.totalLp = l.pair.totalLp
  product : l.pair.reserveA * l.pair.reserveB ≤ l'.pair.reserveA * l'.pair.reserveB

theorem traded {p : SwapParams} {quote : SwapQuote} (h : Settled l) (hquote : Pair.Quoted l.pair p quote) :
    Traded l (l.trade (l.pair.swapped p quote) p quote.amountOut) (l.pair.chargeFee p.aToB quote.protocolFee) := by
  have hIn := hquote.newIn
  have hOut := hquote.newOut
  have hk := hquote.oldK ▸ hquote.oldK_le
  have hA := h.tokenA
  have hB := h.tokenB
  cases hdir : p.aToB with
  | true =>
    simp only [hdir, Pair.reserves, if_true] at hIn hOut hk
    constructor <;> simp only [trade, Pair.swapped, hdir, Pair.chargeFee, Pair.setReserves, if_true]
    · omega
    · omega
    · exact hk
  | false =>
    simp only [hdir, Pair.reserves, Bool.false_eq_true, if_false] at hIn hOut hk
    constructor <;> simp only [trade, Pair.swapped, hdir, Pair.chargeFee, Pair.setReserves, Bool.false_eq_true, if_false]
    · omega
    · omega
    · rwa [Nat.mul_comm, Nat.mul_comm quote.newOut]

theorem Traded.undiluted {l' : Ledger} {charged : Pair} (h : Traded l l' charged) : Undiluted l l' := by
  intro _ _
  rw [h.totalLp]
  exact Nat.mul_le_mul_right _ h.product

theorem swap_good_iff (h : Settled l) (p : SwapParams) :
    (Good l (step l (.swap p)).1 (step l (.swap p)).2 ↔ Exact l (.swap p)) ∧
      (Exact l (.swap p) → Settled (step l (.swap p)).1) := by
  rw [step]
  generalize hout : l.pair.swap p = out
  have hcase := hout ▸ Pair.swap_cases l.pair p
  cases hcase with
  | refused e hnone =>
    refine ⟨⟨?_,?_⟩,fun _ => h⟩
    · intro _ hopen quote hquote
      exact absurd hquote (hnone hopen quote)
    · intro _
      exact @good_of_settled _ { l with pair := l.pair } _ h fun hfalse => by cases hfalse
  | booked hopen quote hquote hk =>
    have hquoted := Pair.quoted_of_ok hquote
    have hreserves : (l.pair.chargeFee p.aToB quote.protocolFee).reserveA = l.pair.reserveA ∧
        (l.pair.chargeFee p.aToB quote.protocolFee).reserveB = l.pair.reserveB := by
      cases p.aToB <;> exact ⟨rfl,rfl⟩
    obtain ⟨l',hl'⟩ : ∃ l' : Ledger, { l with pair := l.pair.chargeFee p.aToB quote.protocolFee } = l' := ⟨_,rfl⟩
    have hsettled : Exact l (.swap p) → Settled l' := by
      intro hexact
      rw [← hl', (protocolFee_eq_zero hquoted).mpr (hexact hopen quote hquote), chargeFee_zero]
      exact h
    dsimp only
    rw [hl']
    refine ⟨⟨?_,?_⟩,hsettled⟩
    · rintro ⟨-,hbacked⟩ _ quote' hquote'
      rw [hquote] at hquote'
      cases hquote'
      have hnone := fees_of_backed (by rw [← hl', hreserves.1]; exact h.tokenA)
        (by rw [← hl', hreserves.2]; exact h.tokenB) hbacked
      rw [← hl'] at hnone
      exact (protocolFee_eq_zero hquoted).mp (fee_eq_zero hquoted.fee_lt h.feeA h.feeB hnone)
    · intro hexact
      exact good_of_settled (hsettled hexact) fun hfalse => by cases hfalse
  | done hopen quote hquote hk =>
    have hquoted := Pair.quoted_of_ok hquote
    have htraded := traded h hquoted
    dsimp only [Pair.swapResult]
    generalize l.trade (l.pair.swapped p quote) p quote.amountOut = l' at htraded
    have hsettled : Exact l (.swap p) → Settled l' := by
      intro hexact
      have hzero := (protocolFee_eq_zero hquoted).mpr (hexact hopen quote hquote)
      rw [hzero, chargeFee_zero] at htraded
      exact ⟨htraded.tokenA,htraded.tokenB,htraded.feeA.trans h.feeA,htraded.feeB.trans h.feeB⟩
    refine ⟨⟨?_,?_⟩,hsettled⟩
    · rintro ⟨-,hbacked⟩ _ quote' hquote'
      rw [hquote] at hquote'
      cases hquote'
      have hnone := fees_of_backed htraded.tokenA htraded.tokenB hbacked
      rw [htraded.feeA, htraded.feeB] at hnone
      exact (protocolFee_eq_zero hquoted).mp (fee_eq_zero hquoted.fee_lt h.feeA h.feeB hnone)
    · intro hexact
      exact good_of_settled (hsettled hexact) fun _ => htraded.undiluted

theorem exact_add_iff {p : AddLiquidityParams} {lp usedA usedB : ℕ} (haccepts : l.pair.Accepts p lp usedA usedB) :
    Exact l (.addLiquidity p) ↔
      if l.pair.reserveA + usedA ≤ maxU128 ∧ l.pair.reserveB + usedB ≤ maxU128 ∧ l.pair.totalLp + lp ≤ maxU128 then
        0 < l.pair.totalLp → l.pair.totalLp ∣ lp * l.pair.reserveA ∧ l.pair.totalLp ∣ lp * l.pair.reserveB
      else l.pair.reserveA + usedA ≤ maxU128 → usedA = 0 ∧ (l.pair.reserveB + usedB ≤ maxU128 → usedB = 0) := by
  refine ⟨fun hexact => hexact lp usedA usedB haccepts,?_⟩
  intro hthis lp' usedA' usedB' haccepts'
  obtain ⟨rfl,rfl,rfl⟩ := haccepts.unique haccepts'
  exact hthis

theorem add_good_iff (h : Settled l) (p : AddLiquidityParams) :
    (Good l (step l (.addLiquidity p)).1 (step l (.addLiquidity p)).2 ↔ Exact l (.addLiquidity p)) ∧
      (Exact l (.addLiquidity p) → Settled (step l (.addLiquidity p)).1) := by
  have hA := h.tokenA
  have hB := h.tokenB
  rw [step]
  generalize hout : l.pair.addLiquidity p = out
  have hcase := hout ▸ Pair.addLiquidity_cases l.pair p
  cases hcase with
  | refused e hnone =>
    refine ⟨⟨?_,?_⟩,fun _ => h⟩
    · intro _ lp usedA usedB haccepts
      have hover := hnone lp usedA usedB haccepts
      rw [if_neg (by omega)]
      intro hfits
      omega
    · intro _
      exact @good_of_settled _ { l with pair := l.pair } _ h fun hfalse => by cases hfalse
  | panicked hnone =>
    have hsettled : Settled { l with pair := { l.pair with locked := true } } := ⟨hA,hB,h.feeA,h.feeB⟩
    refine ⟨⟨?_,?_⟩,fun _ => hsettled⟩
    · intro _ lp usedA usedB haccepts
      exact absurd haccepts (hnone lp usedA usedB)
    · intro _
      exact good_of_settled hsettled fun hfalse => by cases hfalse
  | storedA lp usedA usedB haccepts hfits hover =>
    -- the step fails with the first reserve stored
    have hexact : Exact l (.addLiquidity p) ↔ usedA = 0 := by
      rw [exact_add_iff haccepts, if_neg (by omega)]
      exact ⟨fun hthis => (hthis hfits).1,fun hzero _ => ⟨hzero,fun hle => by omega⟩⟩
    have hsettled : usedA = 0 → Settled { l with pair := { l.pair with reserveA := l.pair.reserveA + usedA } } := by
      rintro rfl
      exact ⟨hA,hB,h.feeA,h.feeB⟩
    rw [hexact]
    refine ⟨⟨?_,?_⟩,hsettled⟩
    · rintro ⟨-,hbacked,-⟩
      dsimp only at hbacked
      omega
    · intro hzero
      exact good_of_settled (hsettled hzero) fun hfalse => by cases hfalse
  | storedBoth lp usedA usedB haccepts hfitsA hfitsB hover =>
    have hexact : Exact l (.addLiquidity p) ↔ usedA = 0 ∧ usedB = 0 := by
      rw [exact_add_iff haccepts, if_neg (by omega)]
      exact ⟨fun hthis => ⟨(hthis hfitsA).1,(hthis hfitsA).2 hfitsB⟩,fun hzero _ => ⟨hzero.1,fun _ => hzero.2⟩⟩
    have hsettled : usedA = 0 ∧ usedB = 0 → Settled { l with pair := { l.pair with
        reserveA := l.pair.reserveA + usedA, reserveB := l.pair.reserveB + usedB } } := by
      rintro ⟨rfl,rfl⟩
      exact ⟨hA,hB,h.feeA,h.feeB⟩
    rw [hexact]
    refine ⟨⟨?_,?_⟩,hsettled⟩
    · rintro ⟨-,hbackedA,hbackedB⟩
      dsimp only at hbackedA hbackedB
      omega
    · intro hzero
      exact good_of_settled (hsettled hzero) fun hfalse => by cases hfalse
  | done lp usedA usedB haccepts hfitsA hfitsB hfits =>
    have hsettled : Settled
        { l with
          pair := { l.pair with
            reserveA := l.pair.reserveA + usedA
            reserveB := l.pair.reserveB + usedB
            totalLp := l.pair.totalLp + lp }
          receivedA := l.receivedA + usedA
          receivedB := l.receivedB + usedB } :=
      ⟨by dsimp only; omega,by dsimp only; omega,h.feeA,h.feeB⟩
    refine ⟨?_,fun _ => hsettled⟩
    rw [exact_add_iff haccepts, if_pos ⟨hfitsA,hfitsB,hfits⟩]
    rcases Pair.sharesFor_eq_ok haccepts.shares with ⟨hzero,-,-⟩ | ⟨hpos,hposA,hposB,-,rfl,rfl⟩
    · refine ⟨fun _ hpos => by omega,?_⟩
      intro _
      exact good_of_settled hsettled fun _ hpos => by omega
    · rw [← deposit_keeps_iff hpos hposA hposB]
      constructor
      · rintro ⟨hworth,-⟩ _
        exact hworth rfl hpos (by dsimp only; omega)
      · intro hworth
        exact good_of_settled hsettled fun _ _ _ => hworth hpos

theorem remove_good (h : Settled l) (p : RemoveLiquidityParams) :
    Good l (step l (.removeLiquidity p)).1 (step l (.removeLiquidity p)).2 ∧
      Settled (step l (.removeLiquidity p)).1 := by
  have hA := h.tokenA
  have hB := h.tokenB
  rw [step]
  generalize hout : l.pair.removeLiquidity p = out
  have hcase := hout ▸ Pair.removeLiquidity_cases l.pair p
  cases hcase with
  | refused e =>
    exact ⟨@good_of_settled _ { l with pair := l.pair } _ h (fun hfalse => by cases hfalse),h⟩
  | done amountA amountB hamounts =>
    obtain ⟨-,hle,-,-,rfl,rfl⟩ := Pair.amountsFor_eq_ok hamounts
    have hpartA := @Pair.mul_div_le_reserve _ _ l.pair.reserveA hle
    have hpartB := @Pair.mul_div_le_reserve _ _ l.pair.reserveB hle
    have hsettled : Settled
        { l with
          pair := { l.pair with
            reserveA := l.pair.reserveA - p.lpAmount * l.pair.reserveA / l.pair.totalLp
            reserveB := l.pair.reserveB - p.lpAmount * l.pair.reserveB / l.pair.totalLp
            totalLp := l.pair.totalLp - p.lpAmount }
          paidA := l.paidA + p.lpAmount * l.pair.reserveA / l.pair.totalLp
          paidB := l.paidB + p.lpAmount * l.pair.reserveB / l.pair.totalLp } :=
      ⟨by dsimp only; omega,by dsimp only; omega,h.feeA,h.feeB⟩
    exact ⟨good_of_settled hsettled fun _ _ _ => withdrawal_keeps hle,hsettled⟩

theorem good_iff (h : Settled l) (call : PairCall) :
    (Good l (step l call).1 (step l call).2 ↔ Exact l call) ∧ (Exact l call → Settled (step l call).1) := by
  cases call with
  | swap p => exact swap_good_iff h p
  | addLiquidity p => exact add_good_iff h p
  | removeLiquidity p =>
    obtain ⟨hgood,hsettled⟩ := remove_good h p
    exact ⟨⟨fun _ => trivial,fun _ => hgood⟩,fun _ => hsettled⟩

end Steps

section Runs

theorem sound_iff_of_settled {l : Ledger} (h : Settled l) (calls : List PairCall) :
    Sound l calls ↔ ∀ e ∈ Machine.history step l calls, Exact e.before e.call := by
  induction calls generalizing l with
  | nil => simp [Sound]
  | cons call rest ih =>
    obtain ⟨hgood,hsettled⟩ := good_iff h call
    unfold Sound at ih ⊢
    rw [Machine.history_cons, List.forall_mem_cons, List.forall_mem_cons]
    constructor
    · rintro ⟨hfirst,hrest⟩
      have hexact := hgood.mp hfirst
      exact ⟨hexact,(ih (hsettled hexact)).mp hrest⟩
    · rintro ⟨hexact,hrest⟩
      exact ⟨hgood.mpr hexact,(ih (hsettled hexact)).mpr hrest⟩

/-- In a run of a new pool no share loses worth and the fees can be paid exactly when every swap
is free of a protocol fee and every deposit divides without a rest. -/
theorem sound_iff (feeTier : FeeTier) (calls : List PairCall) :
    Sound (new feeTier) calls ↔ ∀ e ∈ Machine.history step (new feeTier) calls, Exact e.before e.call :=
  sound_iff_of_settled (settled_new feeTier) calls

def deposit (amountA amountB : ℕ) : PairCall := .addLiquidity ⟨amountA,amountB,0,9,1⟩

def sale (aToB : Bool) (amountIn : ℕ) : PairCall := .swap ⟨aToB,amountIn,0,9,0,1⟩

/-- A swap of 10,000 books a fee of 6 that nothing covers. After a swap without a fee, a deposit for
one share is one unit short. -/
theorem fee_uncovered : ¬ Sound (new .standard) [deposit 1000000 1000000,sale true 10000] ∧
    ¬ Sound (new .standard) [deposit 1000000 1000000,sale true 1000,deposit 3 3] := by
  decide +kernel

end Runs

end Ledger

end ZbxChain.Pool
