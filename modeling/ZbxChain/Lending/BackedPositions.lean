import ZbxChain.Lending.SupplyBorrow

/-! # Whether lending positions stay backed

A book keeps, beside an engine, how many cTokens have been handed out and burned. A redemption may
take the collateral from under a debt, and a liquidation hands out what it could not take.
-/
namespace ZbxChain.Lending

namespace Valuation
variable {v : Valuation} {market : MarketId}

@[simp] theorem weight_zero : v.weight market 0 = 0 := by simp [weight]

@[simp] theorem debt_zero : v.debt market 0 = 0 := by simp [debt]

theorem scale_le_healthFactor {collateral owed : ℕ} :
    scale ≤ healthFactor collateral owed ↔ owed = 0 ∨ owed ≤ collateral := by
  unfold healthFactor
  split_ifs with h
  · exact ⟨fun _ => Or.inl h,fun _ => by decide⟩
  · rw [Nat.le_div_iff_mul_le (Nat.pos_of_ne_zero h), Nat.mul_comm, Nat.mul_le_mul_right_iff (by decide)]
    exact ⟨Or.inr,fun hor => hor.resolve_left h⟩

end Valuation

@[simp] theorem BorrowSnapshot.currentBalance_zero (index snapshot : ℕ) :
    BorrowSnapshot.currentBalance ⟨0,snapshot⟩ index = 0 := by
  simp [currentBalance]

@[simp] theorem BorrowSnapshot.currentBalance_self (principal index : ℕ) :
    BorrowSnapshot.currentBalance ⟨principal,index⟩ index = principal := by
  unfold currentBalance
  split_ifs with h
  · rfl
  · exact Nat.mul_div_cancel _ (Nat.pos_of_ne_zero fun hindex => h (Or.inr hindex))

namespace SupplyBorrowEngine
variable {eng : SupplyBorrowEngine} {addr : Address} {market : MarketId}

def owed (eng : SupplyBorrowEngine) (addr : Address) : ℕ :=
  eng.borrows.sumOf fun key snap =>
    if key.1 = addr then eng.valuation.debt key.2 (snap.currentBalance (eng.indexOf key.2)) else 0

def InDebt (eng : SupplyBorrowEngine) (addr : Address) : Prop := ∃ market, 0 < eng.borrowBalance addr market

/-- An account with a debt is not below a health factor of one. -/
def Secure (eng : SupplyBorrowEngine) (addr : Address) (market : MarketId) : Prop :=
  eng.InDebt addr → scale ≤ eng.healthFactorAfterBorrow addr market 0

def circulating (eng : SupplyBorrowEngine) (market : MarketId) : ℕ :=
  eng.cTokens.sumOf fun key amount => if key.2 = market then amount else 0

section Accrual
variable {block : UInt64}

theorem accrue_eq (eng : SupplyBorrowEngine) (market : MarketId) (block : UInt64) :
    ∃ configs, eng.accrue market block = { eng with configs := configs } := by
  unfold accrue
  split
  · exact ⟨_,rfl⟩
  · exact ⟨_,rfl⟩

@[simp] theorem accrue_cTokens : (eng.accrue market block).cTokens = eng.cTokens := by
  obtain ⟨configs,h⟩ := eng.accrue_eq market block
  rw [h]

end Accrual

section Debts

theorem mem_nodup {l : List (Σ _ : Address × MarketId, BorrowSnapshot)} {e e' : Σ _ : Address × MarketId, BorrowSnapshot}
    (hl : (e :: l).NodupKeys) (he : e' ∈ l) (hwho : e'.1.1 = e.1.1) : e'.1.2 ≠ e.1.2 := by
  intro hmarket
  have hkeys : e.1 ∉ l.keys := (List.nodupKeys_cons.mp hl).1
  exact hkeys (Prod.ext hwho hmarket ▸ List.mem_keys_of_mem he)

/-- Entries of different markets add up in the table of what an account owes. -/
theorem foldl_oweMore (eng : SupplyBorrowEngine) (addr : Address) (f : MarketId → ℕ → ℕ)
    {l : List (Σ _ : Address × MarketId, BorrowSnapshot)} (hl : l.NodupKeys) (owed : Table MarketId ℕ)
    (hfresh : ∀ e ∈ l, e.1.1 = addr → owed.lookup e.1.2 = none) :
    (l.foldl (eng.oweMore addr) owed).sumOf f = owed.sumOf f +
        (l.map fun e => if e.1.1 = addr then f e.1.2 (e.2.currentBalance (eng.indexOf e.1.2)) else 0).sum ∧
      ∀ market, (l.foldl (eng.oweMore addr) owed).lookup market =
        ((l.dlookup (addr,market)).map fun snap => snap.currentBalance (eng.indexOf market)).or
          (owed.lookup market) := by
  induction l generalizing owed with
  | nil => exact ⟨rfl,fun _ => rfl⟩
  | cons e l ih =>
    obtain ⟨⟨who,market'⟩,snap⟩ := e
    rw [List.foldl_cons, List.map_cons, List.sum_cons]
    by_cases hwho : who = addr
    · subst hwho
      have hnone := hfresh _ List.mem_cons_self rfl
      have hfresh' : ∀ e ∈ l, e.1.1 = who →
          (eng.oweMore who owed ⟨(who,market'),snap⟩).lookup e.1.2 = none := by
        intro e he hwho
        rw [oweMore, if_pos rfl, AList.lookup_insert_ne (mem_nodup hl he hwho)]
        exact hfresh e (List.mem_cons_of_mem _ he) hwho
      obtain ⟨hsum,hlookup⟩ := ih (List.nodupKeys_cons.mp hl).2 _ hfresh'
      constructor
      · have hinsert := AList.sumOf_insert owed f market' (0 + snap.currentBalance (eng.indexOf market'))
        rw [AList.countOf_of_none hnone] at hinsert
        rw [hsum, oweMore, if_pos rfl, hnone, if_pos rfl]
        dsimp only [Option.getD_none] at hinsert ⊢
        rw [Nat.zero_add] at hinsert ⊢
        omega
      · intro market
        rw [hlookup, oweMore, if_pos rfl, hnone]
        by_cases hmarket : market = market'
        · subst hmarket
          have habsent : l.dlookup (who,market) = none :=
            List.dlookup_eq_none.mpr (List.nodupKeys_cons.mp hl).1
          rw [habsent, List.dlookup_cons_eq, AList.lookup_insert]
          simp
        · rw [AList.lookup_insert_ne hmarket, List.dlookup_cons_ne]
          intro heq
          exact hmarket (Prod.ext_iff.mp heq).2
    · have hskip : eng.oweMore addr owed ⟨(who,market'),snap⟩ = owed := if_neg hwho
      obtain ⟨hsum,hlookup⟩ := ih (List.nodupKeys_cons.mp hl).2 owed
        fun e he => hfresh e (List.mem_cons_of_mem _ he)
      rw [hskip, if_neg hwho, Nat.zero_add]
      refine ⟨hsum,?_⟩
      intro market
      rw [hlookup, List.dlookup_cons_ne]
      intro heq
      exact hwho (Prod.ext_iff.mp heq).1.symm

theorem borrowMap_lookup (eng : SupplyBorrowEngine) (addr : Address) (market : MarketId) :
    ((eng.borrowMap addr).lookup market).getD 0 = eng.borrowBalance addr market := by
  have hlookup := (foldl_oweMore eng addr eng.valuation.debt eng.borrows.nodupKeys ∅ fun _ _ _ => rfl).2 market
  rw [borrowMap, hlookup, borrowBalance, snapshotOf]
  change _ = ((eng.borrows.entries.dlookup (addr,market)).getD ⟨0,0⟩).currentBalance (eng.indexOf market)
  cases eng.borrows.entries.dlookup (addr,market) with
  | none => simp
  | some snap => rfl

theorem borrowMap_sumOf (eng : SupplyBorrowEngine) (addr : Address) :
    (eng.borrowMap addr).sumOf eng.valuation.debt = eng.owed addr := by
  have hsum := (foldl_oweMore eng addr eng.valuation.debt eng.borrows.nodupKeys ∅ fun _ _ _ => rfl).1
  rw [borrowMap, hsum, owed]
  exact Nat.zero_add _

/-- The debts of an account with more owed in one market. -/
theorem debtsWith_sumOf (eng : SupplyBorrowEngine) (addr : Address) (market : MarketId) (additional : ℕ) :
    (eng.debtsWith addr market additional).sumOf eng.valuation.debt +
        eng.valuation.debt market (eng.borrowBalance addr market) =
      eng.owed addr + eng.valuation.debt market (eng.borrowBalance addr market + additional) := by
  have hzero : eng.valuation.debt market 0 = 0 := Valuation.debt_zero
  have hinsert := AList.sumOf_insert_getD (eng.borrowMap addr) (f := eng.valuation.debt)
    (eng.borrowBalance addr market + additional) hzero
  rw [borrowMap_sumOf, borrowMap_lookup] at hinsert
  rwa [debtsWith, borrowMap_lookup]

theorem debtsWith_zero (eng : SupplyBorrowEngine) (addr : Address) (market : MarketId) :
    (eng.debtsWith addr market 0).sumOf eng.valuation.debt = eng.owed addr :=
  Nat.add_right_cancel (debtsWith_sumOf eng addr market 0)

theorem owed_of_not_inDebt (h : ¬ eng.InDebt addr) : eng.owed addr = 0 := by
  apply List.sum_eq_zero
  intro n hn
  obtain ⟨⟨⟨who,market⟩,snap⟩,hmem,rfl⟩ := List.mem_map.mp hn
  by_cases hwho : who = addr
  · subst hwho
    have hbalance : eng.borrowBalance who market = snap.currentBalance (eng.indexOf market) := by
      rw [borrowBalance, snapshotOf, Option.mem_def.mp (AList.mem_lookup_iff.mpr hmem), Option.getD_some]
    have hzero : eng.borrowBalance who market = 0 := Nat.eq_zero_of_not_pos fun hpos => h ⟨market,hpos⟩
    dsimp only
    rw [if_pos rfl, ← hbalance, hzero, Valuation.debt_zero]
  · exact if_neg hwho

theorem secure_iff : eng.Secure addr market ↔ eng.owed addr = 0 ∨ eng.owed addr ≤ eng.weightedCollateral addr := by
  rw [Secure, healthFactorAfterBorrow, debtsWith_zero, Valuation.scale_le_healthFactor]
  constructor
  · intro h
    by_cases hdebt : eng.InDebt addr
    · exact h hdebt
    · exact Or.inl (owed_of_not_inDebt hdebt)
  · exact fun h _ => h

end Debts

section Operations
variable {who : Address} {amount : ℕ} {block : UInt64}

theorem circulating_insert {eng eng' : SupplyBorrowEngine} {who : Address} {market' : MarketId} {v : ℕ}
    (h : eng'.cTokens = eng.cTokens.insert (who,market') v) (market : MarketId) :
    eng'.circulating market + (if market' = market then eng.cTokenBalance who market' else 0) =
      eng.circulating market + if market' = market then v else 0 := by
  have hinsert := AList.sumOf_insert_getD eng.cTokens
    (f := fun key amount => if key.2 = market then amount else 0) (k := (who,market')) v
    (show (if market' = market then 0 else 0) = 0 by simp)
  rwa [← h] at hinsert

theorem circulating_transfer {eng : SupplyBorrowEngine} {giver receiver : Address} {market' : MarketId} {seized : ℕ}
    (taken given : SupplyBorrowEngine)
    (htaken : taken.cTokens = eng.cTokens.insert (giver,market') (eng.cTokenBalance giver market' - seized))
    (hgiven : given.cTokens =
      taken.cTokens.insert (receiver,market') (taken.cTokenBalance receiver market' + seized)) :
    (∀ market, given.circulating market = eng.circulating market) ↔ seized ≤ eng.cTokenBalance giver market' := by
  have hfirst := circulating_insert htaken
  have hsecond := circulating_insert hgiven
  constructor
  · intro hsame
    have hthis := hsame market'
    have hfirst := hfirst market'
    have hsecond := hsecond market'
    rw [if_pos rfl, if_pos rfl] at hfirst hsecond
    omega
  · intro hle market
    have hfirst := hfirst market
    have hsecond := hsecond market
    split_ifs at hfirst hsecond <;> omega

theorem weightedCollateral_insert (eng : SupplyBorrowEngine) (who : Address) (market : MarketId) (v : ℕ) :
    { eng with cTokens := eng.cTokens.insert (who,market) v }.weightedCollateral who +
        eng.valuation.weight market (eng.cTokenBalance who market) =
      eng.weightedCollateral who + eng.valuation.weight market v := by
  have hinsert := AList.sumOf_insert_getD eng.cTokens
    (f := fun key amount => if key.1 = who then eng.valuation.weight key.2 amount else 0) (k := (who,market)) v
    (show (if who = who then eng.valuation.weight market 0 else 0) = 0 by simp)
  dsimp only at hinsert
  rw [if_pos rfl, if_pos rfl] at hinsert
  exact hinsert

theorem owed_insert (eng : SupplyBorrowEngine) (who : Address) (market : MarketId) (v : ℕ) :
    { eng with borrows := eng.borrows.insert (who,market) ⟨v,eng.indexOf market⟩ }.owed who +
        eng.valuation.debt market (eng.borrowBalance who market) =
      eng.owed who + eng.valuation.debt market v := by
  have hinsert := AList.sumOf_insert_getD eng.borrows
    (f := fun key snap =>
      if key.1 = who then eng.valuation.debt key.2 (snap.currentBalance (eng.indexOf key.2)) else 0) (k := (who,market))
    ⟨v,eng.indexOf market⟩
    (show (if who = who then eng.valuation.debt market (BorrowSnapshot.currentBalance ⟨0,0⟩ (eng.indexOf market)) else 0)
      = 0 by simp)
  dsimp only at hinsert
  rw [if_pos rfl, if_pos rfl, BorrowSnapshot.currentBalance_self] at hinsert
  exact hinsert

theorem supply_cases (eng : SupplyBorrowEngine) (who : Address) (market : MarketId) (amount : ℕ) (block : UInt64) :
    (∃ e eng', eng.supply who market amount block = (.error e,eng') ∧ eng'.cTokens = eng.cTokens) ∨
      ∃ minted configs, eng.supply who market amount block = (.ok minted,
        { eng with configs := configs,
                   cTokens := eng.cTokens.insert (who,market) (eng.cTokenBalance who market + minted) }) := by
  obtain ⟨configs,haccrue⟩ := eng.accrue_eq market block
  unfold supply
  split_ifs
  · exact Or.inl ⟨_,_,rfl,rfl⟩
  · dsimp only
    rw [haccrue]
    split
    · exact Or.inl ⟨_,_,rfl,rfl⟩
    · exact Or.inr ⟨_,_,rfl⟩

theorem borrow_cases (eng : SupplyBorrowEngine) (who : Address) (market : MarketId) (amount : ℕ) (block : UInt64) :
    (∃ e eng', eng.borrow who market amount block = (.error e,eng') ∧ eng'.cTokens = eng.cTokens) ∨
      ∃ n eng', eng.borrow who market amount block = (.ok n,eng') ∧ eng'.cTokens = eng.cTokens ∧
        eng'.Secure who market := by
  unfold borrow
  split_ifs
  · exact Or.inl ⟨_,_,rfl,rfl⟩
  · dsimp only
    have hsame : (eng.accrue market block).cTokens = eng.cTokens := accrue_cTokens
    generalize eng.accrue market block = eng at hsame ⊢
    cases hconfig : eng.configs.lookup market with
    | none => exact Or.inl ⟨_,_,rfl,hsame⟩
    | some config =>
      have hindex : config.borrowIndex = eng.indexOf market := by
        rw [indexOf, hconfig]
        rfl
      dsimp only
      split_ifs with hcap hhealth
      · exact Or.inl ⟨_,_,rfl,hsame⟩
      · exact Or.inl ⟨_,_,rfl,hsame⟩
      · refine Or.inr ⟨_,_,rfl,hsame,secure_iff.mpr ?_⟩
        rw [hindex]
        have howed := owed_insert eng who market (eng.borrowBalance who market + amount)
        rw [← debtsWith_sumOf] at howed
        have hafter := Nat.add_right_cancel howed
        have hscale : scale ≤ eng.healthFactorAfterBorrow who market amount :=
          Nat.le_trans (by decide) (Nat.le_of_not_lt hhealth)
        rw [healthFactorAfterBorrow, Valuation.scale_le_healthFactor, ← hafter] at hscale
        exact hscale

theorem repay_cases (eng : SupplyBorrowEngine) (who : Address) (market : MarketId) (amount : ℕ) (block : UInt64) :
    (eng.repay who market amount block).2.cTokens = eng.cTokens := by
  unfold repay
  split_ifs
  · rfl
  · exact accrue_cTokens

/-- What a redemption leaves is as good as what the account owes, or it owes nothing. -/
def Covers (eng : SupplyBorrowEngine) (who : Address) (market : MarketId) (amount : ℕ) : Prop :=
  0 < amount → amount ≤ eng.cTokenBalance who market →
    eng.owed who = 0 ∨ eng.owed who + eng.valuation.weight market (eng.cTokenBalance who market) ≤
      eng.weightedCollateral who + eng.valuation.weight market (eng.cTokenBalance who market - amount)

theorem redeem_cases (eng : SupplyBorrowEngine) (who : Address) (market : MarketId) (amount : ℕ) (block : UInt64) :
    (∃ e eng', eng.redeem who market amount block = (.error e,eng') ∧ eng'.cTokens = eng.cTokens ∧
        (eng.accrue market block).Covers who market amount) ∨
      ∃ configs left, left + amount = eng.cTokenBalance who market ∧
        eng.redeem who market amount block = (.ok amount,
          { eng with configs := configs, cTokens := eng.cTokens.insert (who,market) left }) ∧
        ({ eng with configs := configs, cTokens := eng.cTokens.insert (who,market) left }.Secure who market ↔
          (eng.accrue market block).Covers who market amount) := by
  obtain ⟨configs,haccrue⟩ := eng.accrue_eq market block
  unfold redeem
  rw [haccrue]
  split_ifs with hzero
  · exact Or.inl ⟨_,_,rfl,rfl,fun hpos => absurd hzero (Nat.pos_iff_ne_zero.mp hpos)⟩
  · dsimp only
    split_ifs with hless
    · exact Or.inl ⟨_,_,rfl,rfl,fun _ hle => absurd hless (Nat.not_lt.mpr hle)⟩
    · have hle := Nat.le_of_not_lt hless
      refine Or.inr ⟨_,_,Nat.sub_add_cancel hle,rfl,?_⟩
      rw [secure_iff]
      have hweighted := weightedCollateral_insert { eng with configs := configs } who market
        (({ eng with configs := configs } : SupplyBorrowEngine).cTokenBalance who market - amount)
      constructor
      · rintro (hnone | henough) _ _
        · exact Or.inl hnone
        · right
          rw [← hweighted]
          exact Nat.add_le_add_right henough _
      · intro hcovers
        rcases hcovers (Nat.pos_of_ne_zero hzero) hle with hnone | henough
        · exact Or.inl hnone
        · right
          rw [← hweighted] at henough
          exact Nat.le_of_add_le_add_right henough

/-- A liquidation that goes through seizes no more than there is. -/
def Seizes (eng : SupplyBorrowEngine) (p : LiquidationParams) : Prop :=
  0 < eng.borrowBalance p.borrower p.repayMarket →
    p.repayAmount ≤ eng.borrowBalance p.borrower p.repayMarket * closeFactor / scale →
    eng.healthFactorAfterBorrow p.borrower p.repayMarket 0 < scale →
      eng.seizedFor p ≤ eng.cTokenBalance p.borrower p.collateralMarket

theorem liquidate_cases (eng : SupplyBorrowEngine) (p : LiquidationParams) (block : UInt64) :
    ((eng.accrue p.repayMarket block).accrue p.collateralMarket block).Seizes p ↔
      ∀ market, (eng.liquidate p block).2.circulating market = eng.circulating market := by
  have hsame : ((eng.accrue p.repayMarket block).accrue p.collateralMarket block).cTokens = eng.cTokens := by
    rw [accrue_cTokens, accrue_cTokens]
  have hkeep : ∀ eng' : SupplyBorrowEngine, eng'.cTokens = eng.cTokens →
      ∀ market, eng'.circulating market = eng.circulating market := by
    intro eng' h market
    rw [circulating, circulating, h]
  unfold liquidate
  generalize (eng.accrue p.repayMarket block).accrue p.collateralMarket block = acc at hsame ⊢
  dsimp only
  split_ifs with hdebt hfactor hhealth
  · exact ⟨fun _ => hkeep acc hsame,fun _ hpos => absurd hdebt (Nat.pos_iff_ne_zero.mp hpos)⟩
  · exact ⟨fun _ => hkeep acc hsame,fun _ _ hle => absurd hfactor (Nat.not_lt.mpr hle)⟩
  · exact ⟨fun _ => hkeep acc hsame,fun _ _ _ hlt => absurd hhealth (Nat.not_le.mpr hlt)⟩
  · have hseizes : acc.Seizes p ↔ acc.seizedFor p ≤ acc.cTokenBalance p.borrower p.collateralMarket :=
      ⟨fun h => h (Nat.pos_of_ne_zero hdebt) (Nat.le_of_not_lt hfactor) (Nat.lt_of_not_le hhealth),fun h _ _ _ => h⟩
    rw [hseizes]
    let left := acc.cTokenBalance p.borrower p.collateralMarket - acc.seizedFor p
    let taken := { acc with cTokens := acc.cTokens.insert (p.borrower,p.collateralMarket) left }
    simp only [← hkeep acc hsame]
    exact Iff.symm (circulating_transfer taken _ rfl rfl)

end Operations

end SupplyBorrowEngine

structure Book where
  engine : SupplyBorrowEngine
  minted : MarketId → ℕ
  burned : MarketId → ℕ

inductive LendingCall where
  | supply (depositor : Address) (marketId : MarketId) (amount : ℕ) (currentBlock : UInt64)
  | borrow (borrower : Address) (marketId : MarketId) (amount : ℕ) (currentBlock : UInt64)
  | repay (borrower : Address) (marketId : MarketId) (amount : ℕ) (currentBlock : UInt64)
  | redeem (redeemer : Address) (marketId : MarketId) (cTokenAmount : ℕ) (currentBlock : UInt64)
  | liquidate (p : LiquidationParams) (currentBlock : UInt64)

namespace Book
open SupplyBorrowEngine

def setUp (configs : Table MarketId MarketConfig) (markets : Table MarketId Market) (valuation : Valuation) : Book :=
  ⟨.setUp configs markets valuation,fun _ => 0,fun _ => 0⟩

def step (book : Book) : LendingCall → Book × Bool
  | .supply depositor marketId amount currentBlock =>
    match book.engine.supply depositor marketId amount currentBlock with
    | (.ok c,eng) =>
      ({ book with engine := eng, minted := Function.update book.minted marketId (book.minted marketId + c) },true)
    | (.error _,eng) => ({ book with engine := eng },false)
  | .borrow borrower marketId amount currentBlock =>
    match book.engine.borrow borrower marketId amount currentBlock with
    | (.ok _,eng) => ({ book with engine := eng },true)
    | (.error _,eng) => ({ book with engine := eng },false)
  | .repay borrower marketId amount currentBlock =>
    match book.engine.repay borrower marketId amount currentBlock with
    | (.ok _,eng) => ({ book with engine := eng },true)
    | (.error _,eng) => ({ book with engine := eng },false)
  | .redeem redeemer marketId cTokenAmount currentBlock =>
    match book.engine.redeem redeemer marketId cTokenAmount currentBlock with
    | (.ok c,eng) =>
      ({ book with engine := eng, burned := Function.update book.burned marketId (book.burned marketId + c) },true)
    | (.error _,eng) => ({ book with engine := eng },false)
  | .liquidate p currentBlock =>
    match book.engine.liquidate p currentBlock with
    | (.ok _,eng) => ({ book with engine := eng },true)
    | (.error _,eng) => ({ book with engine := eng },false)

/-- Every market has the cTokens that were handed out and not burned. -/
def Even (book : Book) : Prop := ∀ market, book.engine.circulating market + book.burned market = book.minted market

/-- What a successful call owes its caller's position. -/
def Leaves (eng : SupplyBorrowEngine) : LendingCall → Prop
  | .borrow caller marketId _ _ => eng.Secure caller marketId
  | .redeem caller marketId _ _ => eng.Secure caller marketId
  | _ => True

def BackedAfter (book : Book) (call : LendingCall) : Prop :=
  ((step book call).2 = true → Leaves (step book call).1.engine call) ∧ Even (step book call).1

def Backed (book : Book) (calls : List LendingCall) : Prop :=
  ∀ e ∈ Machine.history step book calls, BackedAfter e.before e.call

/-- A redemption leaves enough for the debt, and a liquidation finds what it seizes. -/
def Covered (eng : SupplyBorrowEngine) : LendingCall → Prop
  | .redeem redeemer marketId cTokenAmount currentBlock =>
    (eng.accrue marketId currentBlock).Covers redeemer marketId cTokenAmount
  | .liquidate p currentBlock =>
    ((eng.accrue p.repayMarket currentBlock).accrue p.collateralMarket currentBlock).Seizes p
  | _ => True

section Steps
variable {book : Book}

theorem even_setUp (configs : Table MarketId MarketConfig) (markets : Table MarketId Market) (valuation : Valuation) :
    Even (setUp configs markets valuation) := fun _ => rfl

theorem Even.of_cTokens (h : book.Even) {eng : SupplyBorrowEngine} (hsame : eng.cTokens = book.engine.cTokens) :
    Even { book with engine := eng } := by
  intro market
  rw [← h market, circulating, hsame]
  rfl

/-- A balance of a market token and what was minted and burned move together. -/
theorem Even.of_insert (h : book.Even) (eng : SupplyBorrowEngine) {who : Address} {marketId : MarketId}
    {balance minted burned : ℕ} (heng : eng.cTokens = book.engine.cTokens.insert (who,marketId) balance)
    (hbalance : balance + burned = book.engine.cTokenBalance who marketId + minted) :
    Even
      ⟨eng,Function.update book.minted marketId (book.minted marketId + minted),
        Function.update book.burned marketId (book.burned marketId + burned)⟩ := by
  intro market
  have hinsert := circulating_insert heng market
  have hbook := h market
  dsimp only
  by_cases hmarket : market = marketId
  · subst hmarket
    rw [if_pos rfl, if_pos rfl] at hinsert
    rw [Function.update_self, Function.update_self]
    omega
  · rw [if_neg (Ne.symm hmarket), if_neg (Ne.symm hmarket)] at hinsert
    rw [Function.update_of_ne hmarket, Function.update_of_ne hmarket]
    omega

theorem supply_backed (h : book.Even) (depositor : Address) (marketId : MarketId) (amount : ℕ) (currentBlock : UInt64) :
    book.BackedAfter (.supply depositor marketId amount currentBlock) := by
  refine ⟨fun _ => trivial,?_⟩
  rw [step]
  rcases book.engine.supply_cases depositor marketId amount currentBlock with ⟨e,eng',heq,hsame⟩ | ⟨minted,configs,heq⟩
  · rw [heq]
    exact h.of_cTokens hsame
  · rw [heq]
    have heven := h.of_insert { book.engine with configs := configs, cTokens := _ } rfl
      (Nat.add_zero (book.engine.cTokenBalance depositor marketId + minted))
    rw [Nat.add_zero, Function.update_eq_self] at heven
    exact heven

theorem borrow_backed (h : book.Even) (borrower : Address) (marketId : MarketId) (amount : ℕ) (currentBlock : UInt64) :
    book.BackedAfter (.borrow borrower marketId amount currentBlock) := by
  rw [BackedAfter, step]
  rcases book.engine.borrow_cases borrower marketId amount currentBlock with
    ⟨e,eng',heq,hsame⟩ | ⟨n,eng',heq,hsame,hsecure⟩
  · rw [heq]
    exact ⟨fun hfalse => (by cases hfalse),h.of_cTokens hsame⟩
  · rw [heq]
    exact ⟨fun _ => hsecure,h.of_cTokens hsame⟩

theorem repay_backed (h : book.Even) (borrower : Address) (marketId : MarketId) (amount : ℕ) (currentBlock : UInt64) :
    book.BackedAfter (.repay borrower marketId amount currentBlock) := by
  refine ⟨fun _ => trivial,?_⟩
  have hsame := book.engine.repay_cases borrower marketId amount currentBlock
  rw [step]
  generalize book.engine.repay borrower marketId amount currentBlock = out at hsame
  obtain ⟨e | n,eng'⟩ := out
  · exact h.of_cTokens hsame
  · exact h.of_cTokens hsame

theorem redeem_backed_iff (h : book.Even) (redeemer : Address) (marketId : MarketId) (cTokenAmount : ℕ)
    (currentBlock : UInt64) :
    book.BackedAfter (.redeem redeemer marketId cTokenAmount currentBlock) ↔
      Covered book.engine (.redeem redeemer marketId cTokenAmount currentBlock) := by
  rw [BackedAfter, step, Covered]
  rcases book.engine.redeem_cases redeemer marketId cTokenAmount currentBlock with
    ⟨e,eng',heq,hsame,hcovers⟩ | ⟨configs,left,hleft,heq,hsecure⟩
  · rw [heq]
    exact ⟨fun _ => hcovers,fun _ => ⟨fun hfalse => (by cases hfalse),h.of_cTokens hsame⟩⟩
  · rw [heq, ← hsecure]
    refine ⟨fun hbacked => hbacked.1 rfl,fun hcovers => ⟨fun _ => hcovers,?_⟩⟩
    have heven := h.of_insert { book.engine with configs := configs, cTokens := _ } rfl
      (hleft.trans (Nat.add_zero _).symm)
    rw [Nat.add_zero, Function.update_eq_self] at heven
    exact heven

theorem liquidate_backed_iff (h : book.Even) (p : LiquidationParams) (currentBlock : UInt64) :
    book.BackedAfter (.liquidate p currentBlock) ↔ Covered book.engine (.liquidate p currentBlock) := by
  rw [BackedAfter, step, Covered, liquidate_cases]
  generalize book.engine.liquidate p currentBlock = out
  have hiff : ∀ eng' : SupplyBorrowEngine, Even { book with engine := eng' } ↔
      ∀ market, eng'.circulating market = book.engine.circulating market := by
    intro eng'
    refine forall_congr' fun market => ?_
    dsimp only
    rw [← h market]
    exact Nat.add_right_cancel_iff
  obtain ⟨e | n,eng'⟩ := out
  · exact (and_iff_right fun _ => trivial).trans (hiff eng')
  · exact (and_iff_right fun _ => trivial).trans (hiff eng')

/-- One step of even books keeps the positions backed exactly when it is covered. -/
theorem backedAfter_iff (h : book.Even) (call : LendingCall) : book.BackedAfter call ↔ Covered book.engine call := by
  cases call with
  | supply depositor marketId amount currentBlock =>
    exact iff_of_true (supply_backed h depositor marketId amount currentBlock) trivial
  | borrow borrower marketId amount currentBlock =>
    exact iff_of_true (borrow_backed h borrower marketId amount currentBlock) trivial
  | repay borrower marketId amount currentBlock =>
    exact iff_of_true (repay_backed h borrower marketId amount currentBlock) trivial
  | redeem redeemer marketId cTokenAmount currentBlock =>
    exact redeem_backed_iff h redeemer marketId cTokenAmount currentBlock
  | liquidate p currentBlock => exact liquidate_backed_iff h p currentBlock

theorem backed_iff_of_even (h : book.Even) (calls : List LendingCall) :
    book.Backed calls ↔ ∀ e ∈ Machine.history step book calls, Covered e.before.engine e.call := by
  induction calls generalizing book with
  | nil => exact ⟨fun _ _ he => (by cases he),fun _ _ he => (by cases he)⟩
  | cons call rest ih =>
    rw [Backed, Machine.history_cons, List.forall_mem_cons, List.forall_mem_cons]
    rw [backedAfter_iff h]
    refine and_congr_right fun hcovered => ih ?_
    exact ((backedAfter_iff h call).mpr hcovered).2

end Steps

/-- The positions stay backed through the runs whose redemptions leave enough for the debt and whose
liquidations find what they seize, and through no others. -/
theorem debts_backed_iff (configs : Table MarketId MarketConfig) (markets : Table MarketId Market) (valuation : Valuation)
    (calls : List LendingCall) :
    (setUp configs markets valuation).Backed calls ↔
      ∀ e ∈ Machine.history step (setUp configs markets valuation) calls, Covered e.before.engine e.call :=
  backed_iff_of_even (even_setUp configs markets valuation) calls

def oneMarket : Book :=
  let market : MarketId := ⟨"ZBX"⟩
  setUp ((∅ : Table MarketId MarketConfig).insert market .initial) ((∅ : Table MarketId Market).insert market ⟨0,0,0⟩)
    ⟨(∅ : Table MarketId ℕ).insert market 750000000000000000,(∅ : Table MarketId ℕ).insert market scale⟩

def borrowThenRedeem (account : Address) : List LendingCall :=
  [.supply account ⟨"ZBX"⟩ 1000 1,.borrow account ⟨"ZBX"⟩ 500 1,.redeem account ⟨"ZBX"⟩ 1000 1]

/-- After the redemption the account has its debt and no collateral, and its liquidation hands out cTokens
that nobody supplied. -/
theorem redeemed_under_debt : ¬ oneMarket.Backed (borrowThenRedeem 1) ∧
    ¬ (Machine.final step oneMarket (borrowThenRedeem 1 ++ [.liquidate ⟨1,⟨"ZBX"⟩,100,⟨"ZBX"⟩,2⟩ 1])).Even := by
  constructor
  · intro hbacked
    have hentry := (List.forall_mem_cons.mp (List.forall_mem_cons.mp (List.forall_mem_cons.mp hbacked).2).2).1
    have hsecure := hentry.1 (by decide +kernel) ⟨⟨"ZBX"⟩,by decide +kernel⟩
    revert hsecure
    decide +kernel
  · intro heven
    have hthis := heven ⟨"ZBX"⟩
    revert hthis
    decide +kernel

end Book

end ZbxChain.Lending
