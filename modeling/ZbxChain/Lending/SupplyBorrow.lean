import ZbxChain.Mempool.Pool

/-! # `zbx_lending::supply_borrow`: supply, borrow, repay, redeem and liquidate

Amounts and prices are taken to be small enough that no unchecked operation leaves 128 bits. What
is only read by the administration of the markets is left out.
-/
namespace ZbxChain.Lending

structure MarketId where
  name : String
  deriving DecidableEq

def scale : ℕ := 10 ^ 18

def closeFactor : ℕ := 500000000000000000
def minHealthFactor : ℕ := 1050000000000000000

section Interest

structure JumpRateModel where
  baseRatePerSec : ℕ
  multiplierPerSec : ℕ
  jumpMultiplierPerSec : ℕ
  kink : ℕ

namespace JumpRateModel

def defaultConservative : JumpRateModel := ⟨634195839,19025875190,253678335870,800000000000000000⟩

def utilisation (cash borrows reserves : ℕ) : ℕ :=
  let denominator := cash + (borrows - reserves)
  if denominator = 0 then 0 else borrows * scale / denominator

def borrowRate (model : JumpRateModel) (util : ℕ) : ℕ :=
  if util ≤ model.kink then model.baseRatePerSec + model.multiplierPerSec * util / scale
  else
    let normal := model.baseRatePerSec + model.multiplierPerSec * model.kink / scale
    normal + model.jumpMultiplierPerSec * (util - model.kink) / scale

end JumpRateModel

structure Market where
  totalSupply : ℕ
  totalBorrows : ℕ
  reserves : ℕ

def Market.exchangeRate (market : Market) : ℕ :=
  if market.totalSupply = 0 then scale
  else (market.totalSupply + market.totalBorrows) * scale / market.totalSupply

structure MarketConfig where
  borrowCap : ℕ
  interest : JumpRateModel
  borrowIndex : ℕ
  lastAccrualBlock : UInt64

/-- `MarketConfig::new`. -/
def MarketConfig.initial : MarketConfig := ⟨0,.defaultConservative,scale,0⟩

def MarketConfig.accrue (config : MarketConfig) (market : Market) (blocksElapsed : UInt64) : MarketConfig :=
  if blocksElapsed = 0 then config
  else
    let util := JumpRateModel.utilisation (market.totalSupply - market.totalBorrows) market.totalBorrows market.reserves
    let borrowRatePerBlock := config.interest.borrowRate util * 6
    let interestFactor := saturatingMul128 borrowRatePerBlock blocksElapsed.toNat / scale
    { config with
      borrowIndex := saturatingAdd128 config.borrowIndex (config.borrowIndex * interestFactor / scale)
      lastAccrualBlock := config.lastAccrualBlock + blocksElapsed }

structure BorrowSnapshot where
  principal : ℕ
  indexSnapshot : ℕ

def BorrowSnapshot.currentBalance (snap : BorrowSnapshot) (currentIndex : ℕ) : ℕ :=
  if snap.principal = 0 ∨ snap.indexSnapshot = 0 then snap.principal
  else snap.principal * currentIndex / snap.indexSnapshot

end Interest

section Health

structure Valuation where
  factors : Table MarketId ℕ
  prices : Table MarketId ℕ

namespace Valuation
variable (v : Valuation)

def weight (market : MarketId) (amount : ℕ) : ℕ :=
  amount * (v.prices.lookup market).getD 0 / scale * (v.factors.lookup market).getD 0 / scale

def debt (market : MarketId) (amount : ℕ) : ℕ := amount * (v.prices.lookup market).getD 0 / scale

/-- `health_factor`, over the sums of what is supplied and of what is borrowed. -/
def healthFactor (weightedCollateral totalDebt : ℕ) : ℕ :=
  if totalDebt = 0 then maxU128 else weightedCollateral * scale / totalDebt

end Valuation

def computeSeizedCollateral (repayAmount repayPrice collateralPrice liquidationBonus : ℕ) : ℕ :=
  if collateralPrice = 0 then 0
  else saturatingMul128 (saturatingMul128 repayAmount repayPrice / collateralPrice) liquidationBonus / scale

end Health

inductive SbError where
  | marketNotFound (name : String)
  | zeroAmount
  | insufficientCTokens (have_ need : ℕ)
  | borrowCapExceeded (cap current amount : ℕ)
  | healthFactorTooLow (hfAfter : ℕ)
  | exceedsCloseFactor (repay limit : ℕ)
  | notLiquidatable
  deriving DecidableEq

structure LiquidationParams where
  borrower : Address
  repayMarket : MarketId
  repayAmount : ℕ
  collateralMarket : MarketId
  liquidator : Address

structure SupplyBorrowEngine where
  configs : Table MarketId MarketConfig
  markets : Table MarketId Market
  valuation : Valuation
  cTokens : Table (Address × MarketId) ℕ
  borrows : Table (Address × MarketId) BorrowSnapshot

namespace SupplyBorrowEngine
variable (eng : SupplyBorrowEngine)

def setUp (configs : Table MarketId MarketConfig) (markets : Table MarketId Market) (valuation : Valuation) :
    SupplyBorrowEngine := ⟨configs,markets,valuation,∅,∅⟩

def accrue (marketId : MarketId) (currentBlock : UInt64) : SupplyBorrowEngine :=
  match eng.configs.lookup marketId, eng.markets.lookup marketId with
  | some config, some market =>
    let elapsed := if config.lastAccrualBlock ≤ currentBlock then currentBlock - config.lastAccrualBlock else 0
    { eng with configs := eng.configs.insert marketId (config.accrue market elapsed) }
  | _, _ => eng

def indexOf (marketId : MarketId) : ℕ := ((eng.configs.lookup marketId).map MarketConfig.borrowIndex).getD scale

def cTokenBalance (addr : Address) (market : MarketId) : ℕ := (eng.cTokens.lookup (addr,market)).getD 0

def snapshotOf (addr : Address) (market : MarketId) : BorrowSnapshot := (eng.borrows.lookup (addr,market)).getD ⟨0,0⟩

/-- `current_borrow_balance`. -/
def borrowBalance (addr : Address) (market : MarketId) : ℕ :=
  (eng.snapshotOf addr market).currentBalance (eng.indexOf market)

def weightedCollateral (addr : Address) : ℕ :=
  eng.cTokens.sumOf fun key amount => if key.1 = addr then eng.valuation.weight key.2 amount else 0

/-- An account's debt of one entry, on top of what it owes. -/
def oweMore (addr : Address) (owed : Table MarketId ℕ) (e : Σ _ : Address × MarketId, BorrowSnapshot) :
    Table MarketId ℕ :=
  if e.1.1 = addr then
    owed.insert e.1.2 ((owed.lookup e.1.2).getD 0 + e.2.currentBalance (eng.indexOf e.1.2))
  else owed

/-- What an account owes in each market. -/
def borrowMap (addr : Address) : Table MarketId ℕ := eng.borrows.entries.foldl (eng.oweMore addr) ∅

def debtsWith (addr : Address) (market : MarketId) (additional : ℕ) : Table MarketId ℕ :=
  let owed := eng.borrowMap addr
  owed.insert market ((owed.lookup market).getD 0 + additional)

def healthFactorAfterBorrow (addr : Address) (borrowMarket : MarketId) (additionalBorrow : ℕ) : ℕ :=
  Valuation.healthFactor (eng.weightedCollateral addr)
    ((eng.debtsWith addr borrowMarket additionalBorrow).sumOf eng.valuation.debt)

abbrev Outcome := Except SbError ℕ × SupplyBorrowEngine

def supply (depositor : Address) (marketId : MarketId) (amount : ℕ) (currentBlock : UInt64) : Outcome :=
  if amount = 0 then (.error .zeroAmount,eng)
  else
    let eng := eng.accrue marketId currentBlock
    match eng.markets.lookup marketId with
    | none => (.error (.marketNotFound marketId.name),eng)
    | some market =>
      let cTokens := if market.totalSupply = 0 then amount else amount * scale / market.exchangeRate
      (.ok cTokens,
        { eng with cTokens :=
          eng.cTokens.insert (depositor,marketId) (eng.cTokenBalance depositor marketId + cTokens) })

def borrow (borrower : Address) (marketId : MarketId) (amount : ℕ) (currentBlock : UInt64) : Outcome :=
  if amount = 0 then (.error .zeroAmount,eng)
  else
    let eng := eng.accrue marketId currentBlock
    match eng.configs.lookup marketId with
    | none => (.error (.marketNotFound marketId.name),eng)
    | some config =>
      let totalBorrows := ((eng.markets.lookup marketId).map Market.totalBorrows).getD 0
      if 0 < config.borrowCap ∧ config.borrowCap < totalBorrows + amount then
        (.error (.borrowCapExceeded config.borrowCap totalBorrows amount),eng)
      else
        let hfAfter := eng.healthFactorAfterBorrow borrower marketId amount
        if hfAfter < minHealthFactor then (.error (.healthFactorTooLow hfAfter),eng)
        else
          let currentPrincipal := (eng.snapshotOf borrower marketId).currentBalance config.borrowIndex
          (.ok 0,
            { eng with borrows :=
              eng.borrows.insert (borrower,marketId) ⟨currentPrincipal + amount,config.borrowIndex⟩ })

def repay (borrower : Address) (marketId : MarketId) (amount : ℕ) (currentBlock : UInt64) : Outcome :=
  if amount = 0 then (.error .zeroAmount,eng)
  else
    let eng := eng.accrue marketId currentBlock
    let owed := eng.borrowBalance borrower marketId
    let repaid := min amount owed
    (.ok repaid,
      { eng with borrows := eng.borrows.insert (borrower,marketId) ⟨owed - repaid,eng.indexOf marketId⟩ })

/-- Nothing is asked about the debts of the redeemer. -/
def redeem (redeemer : Address) (marketId : MarketId) (cTokenAmount : ℕ) (currentBlock : UInt64) : Outcome :=
  if cTokenAmount = 0 then (.error .zeroAmount,eng)
  else
    let eng := eng.accrue marketId currentBlock
    let balance := eng.cTokenBalance redeemer marketId
    if balance < cTokenAmount then (.error (.insufficientCTokens balance cTokenAmount),eng)
    else
      (.ok cTokenAmount,{ eng with cTokens := eng.cTokens.insert (redeemer,marketId) (balance - cTokenAmount) })

def seizedFor (p : LiquidationParams) : ℕ :=
  computeSeizedCollateral p.repayAmount ((eng.valuation.prices.lookup p.repayMarket).getD scale)
    ((eng.valuation.prices.lookup p.collateralMarket).getD scale) (scale + 50000000000000000)

def liquidate (p : LiquidationParams) (currentBlock : UInt64) : Outcome :=
  let eng := (eng.accrue p.repayMarket currentBlock).accrue p.collateralMarket currentBlock
  let totalDebt := eng.borrowBalance p.borrower p.repayMarket
  if totalDebt = 0 then (.error .notLiquidatable,eng)
  else
    let maxRepay := totalDebt * closeFactor / scale
    if maxRepay < p.repayAmount then (.error (.exceedsCloseFactor p.repayAmount maxRepay),eng)
    else if scale ≤ eng.healthFactorAfterBorrow p.borrower p.repayMarket 0 then (.error .notLiquidatable,eng)
    else
      let seized := eng.seizedFor p
      let borrows := eng.borrows.insert (p.borrower,p.repayMarket)
        ⟨totalDebt - p.repayAmount,eng.indexOf p.repayMarket⟩
      -- the borrower loses what there is, the liquidator gets what is seized
      let left := eng.cTokenBalance p.borrower p.collateralMarket - seized
      let eng := { eng with borrows := borrows, cTokens := eng.cTokens.insert (p.borrower,p.collateralMarket) left }
      let received := eng.cTokenBalance p.liquidator p.collateralMarket + seized
      (.ok seized,{ eng with cTokens := eng.cTokens.insert (p.liquidator,p.collateralMarket) received })

end SupplyBorrowEngine

end ZbxChain.Lending
