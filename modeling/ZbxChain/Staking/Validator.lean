import Mathlib.Data.Prod.Lex
import ZbxChain.Foundation.StableSort
import ZbxChain.Node.Commit

/-! # The validator registry, the active set and its rewards

Amounts are natural numbers below `2 ^ 128`. Where the source adds and subtracts with
saturation, so do the definitions; where it does not, its arithmetic wraps.
-/
namespace ZbxChain.Staking

/-- `MIN_SELF_STAKE`, 100,000 ZBX in wei. -/
def minSelfStake : ℕ := 100000 * 10 ^ 18

def maxValidators : ℕ := 100

/-- What is left of a number in 128 bits. -/
def wrap128 (n : ℕ) : ℕ := n % 2 ^ 128

/-- `checked_mul` of `u128`. -/
def checkedMul128 (x y : ℕ) : Option ℕ := if x * y ≤ maxU128 then some (x * y) else none

inductive ValidatorStatus where
  | pending
  | active
  | jailed
  | unbonding (untilBlock : UInt64)
  | inactive
  | tombstoned
  deriving DecidableEq

inductive PayloadError where
  | fileAppealRouting
  | moduleNameUtf8
  | moduleNameLength (length : ℕ)
  | activationHeight (activationHeight currentHeight : UInt64)
  | moduleNameEmpty
  | moduleNamePattern (name : String)
  | proposalExists (id : UInt64)
  | proposalNotFound (id : UInt64)
  | notPending (id : UInt64)
  deriving DecidableEq

inductive StakingError where
  | alreadyRegistered (addr : Address)
  | notFound (addr : Address)
  | insufficientSelfStake (had need : ℕ)
  | jailed
  | delegationTooSmall (minimum : ℕ)
  | noPendingRewards (addr : Address)
  | invalidEvidence (reason : String)
  | evidenceNotFound
  | appealNotAllowed
  | appealWindowExpired
  | persistence (reason : String)
  | unexpectedValue (got expected : ℕ)
  | insufficientDelegation (had requested : ℕ)
  | nothingToWithdraw
  | notAValidator (addr : Address)
  | badPayload (reason : PayloadError)
  | escrowUnderflow (had need : ℕ)
  | appealNotByOffender
  | appealBondMismatch (got need : ℕ)
  | overturnNotAllowed
  deriving DecidableEq

structure Validator where
  address : Address
  blsPubkey : BlsPubKey
  selfStake : ℕ
  delegatedStake : ℕ
  commissionBps : UInt16
  status : ValidatorStatus
  lastSignedBlock : UInt64
  pendingRewards : ℕ
  delegatorRewardPool : ℕ
  poolDenominator : ℕ
  registeredEpoch : UInt64
  deriving DecidableEq

namespace Validator

def totalStake (v : Validator) : ℕ := saturatingAdd128 v.selfStake v.delegatedStake

def isEligible (v : Validator) : Bool :=
  decide (minSelfStake ≤ v.selfStake) &&
    match v.status with
    | .jailed | .inactive | .unbonding _ | .tombstoned => false
    | .pending | .active => true

def commissionOf (v : Validator) (reward : ℕ) : ℕ :=
  match checkedMul128 reward v.commissionBps.toNat with
  | some p => p / 10000
  | none => wrap128 (reward / 10000 * v.commissionBps.toNat)

def claimDelegatorShare (v : Validator) (delegatorStake : ℕ) : ℕ × Validator :=
  if v.delegatorRewardPool = 0 then (0,v) else
    let share :=
      if 0 < v.poolDenominator then
        match checkedMul128 v.delegatorRewardPool delegatorStake with
        | some p => p / v.poolDenominator
        | none => min (v.delegatorRewardPool / v.poolDenominator * delegatorStake) maxU128
      else v.delegatorRewardPool
    let share := min share v.delegatorRewardPool
    (share,{ v with
      delegatorRewardPool := v.delegatorRewardPool - share
      poolDenominator := v.poolDenominator - delegatorStake })

/-- An active validator that is not elected again. -/
def demote (v : Validator) : Validator :=
  if v.status = .active then { v with status := .pending } else v

def promote (v : Validator) : Validator :=
  if v.status ≠ .tombstoned then { v with status := .active } else v

end Validator

structure ValidatorSet where
  validators : Table Address Validator
  activeSet : List Address
  currentEpoch : UInt64

namespace ValidatorSet

def new : ValidatorSet := ⟨∅,[],0⟩

def modify (vs : ValidatorSet) (addr : Address) (f : Validator → Validator) : ValidatorSet :=
  { vs with validators := vs.validators.modify addr f }

def get (vs : ValidatorSet) (addr : Address) : Option Validator := vs.validators.lookup addr

def register (vs : ValidatorSet) (address : Address) (blsPubkey : BlsPubKey) (selfStake : ℕ)
    (commissionBps : UInt16) : Except StakingError ValidatorSet :=
  if (vs.get address).isSome then .error (.alreadyRegistered address)
  else if selfStake < minSelfStake then .error (.insufficientSelfStake selfStake minSelfStake)
  else
    let v : Validator :=
      { address := address
        blsPubkey := blsPubkey
        selfStake := selfStake
        delegatedStake := 0
        commissionBps := if commissionBps.toNat ≤ 2000 then commissionBps else 2000
        status := .pending
        lastSignedBlock := 0
        pendingRewards := 0
        delegatorRewardPool := 0
        poolDenominator := 0
        registeredEpoch := vs.currentEpoch }
    .ok { vs with validators := vs.validators.insert address v }

/-- The domain of the proof of possession, `zbx-bls-pop-v1`. -/
def popDomain : List UInt8 := [122,98,120,45,98,108,115,45,112,111,112,45,118,49]

def verifyPop (P : Platform) (blsPubkey : BlsPubKey) (pop : BlsSignature) (validator : Address) : Bool :=
  P.verifySingle pop blsPubkey (P.keccak256 (validator.asBytes ++ popDomain))

def registerWithPop (P : Platform) (vs : ValidatorSet) (address : Address) (blsPubkey : BlsPubKey)
    (blsPop : BlsSignature) (selfStake : ℕ) (commissionBps : UInt16) : Except StakingError ValidatorSet :=
  if !verifyPop P blsPubkey blsPop address then .error (.invalidEvidence
    "BLS Proof-of-Possession does not verify under keccak256(address || \"zbx-bls-pop-v1\")")
  else vs.register address blsPubkey selfStake commissionBps

def delegate (vs : ValidatorSet) (recipient : Address) (amount : ℕ) : Except StakingError ValidatorSet :=
  match vs.get recipient with
  | none => .error (.notFound recipient)
  | some v =>
    match v.status with
    | .jailed | .inactive | .unbonding _ | .tombstoned => .error .jailed
    | .pending | .active => .ok (vs.modify recipient (fun v =>
        { v with delegatedStake := saturatingAdd128 v.delegatedStake amount }))

def undelegate (vs : ValidatorSet) (source : Address) (amount : ℕ) : Except StakingError ValidatorSet :=
  match vs.get source with
  | none => .error (.notFound source)
  | some v =>
    if v.delegatedStake < amount then .error (.insufficientDelegation v.delegatedStake amount)
    else .ok (vs.modify source (fun v => { v with delegatedStake := v.delegatedStake - amount }))

def claimRewards (vs : ValidatorSet) (validator : Address) : Except StakingError (ℕ × ValidatorSet) :=
  match vs.get validator with
  | none => .error (.notAValidator validator)
  | some v => .ok (v.pendingRewards,vs.modify validator (fun v => { v with pendingRewards := 0 }))

/-- The eligible validators in the order of the election: more stake first, then the smaller
address. -/
def candidates (P : Platform) (vs : ValidatorSet) : List (Address × ℕ) :=
  StableSort.sortDesc (fun e : Address × ℕ => toLex (e.2,OrderDual.toDual e.1.toNat))
    (((P.iterOrder vs.validators.values).filter Validator.isEligible).map
      (fun v => (v.address,v.totalStake)))

def electActiveSet (P : Platform) (vs : ValidatorSet) : ValidatorSet × List Address :=
  let newSet := ((vs.candidates P).take maxValidators).map Prod.fst
  let demoted := (vs.activeSet.filter (fun addr => addr ∉ newSet)).foldl
    (fun vs addr => vs.modify addr Validator.demote) vs
  let promoted := newSet.foldl (fun vs addr => vs.modify addr Validator.promote) demoted
  ({ promoted with activeSet := newSet, currentEpoch := vs.currentEpoch + 1 },newSet)

def isActiveValidator (vs : ValidatorSet) (addr : Address) : Bool :=
  decide (addr ∈ vs.activeSet) &&
    match vs.get addr with
    | none => false
    | some v => v.status ≠ .jailed && v.status ≠ .tombstoned && v.status ≠ .inactive

end ValidatorSet

/-- What one active validator gets of the committee's share: all of it without delegators,
and else its part by stake with the commission on the rest, which goes to the pool. -/
def Validator.creditReward (v : Validator) (committeeShare totalActiveStake : ℕ) : Validator :=
  let weight := v.totalStake
  let totalReward := wrap128 (committeeShare * weight) / totalActiveStake
  if totalReward = 0 then v
  else if v.delegatedStake = 0 then
    { v with pendingRewards := saturatingAdd128 v.pendingRewards totalReward }
  else
    let selfShare := match checkedMul128 totalReward v.selfStake with
      | some p => p / weight
      | none => wrap128 (totalReward / weight * v.selfStake)
    let delegGross := totalReward - selfShare
    let commission := v.commissionOf delegGross
    let netDeleg := delegGross - commission
    { v with
      pendingRewards := saturatingAdd128 (saturatingAdd128 v.pendingRewards selfShare) commission
      poolDenominator := v.delegatedStake
      delegatorRewardPool := saturatingAdd128 v.delegatorRewardPool netDeleg }

namespace ValidatorSet

def totalActiveStake (vs : ValidatorSet) : ℕ :=
  wrap128 ((vs.activeSet.filterMap vs.get).map Validator.totalStake).sum

def distributeBlockReward (vs : ValidatorSet) (blockHeight : UInt64) (proposer : Address)
    (accumulatedFees : ℕ) : ValidatorSet :=
  if blockHeight.toNat % rewardInterval ≠ 0 then vs else
    let total := saturatingAdd128 ((rewardWindow blockHeight).map blockRewardAt).sum accumulatedFees
    if total = 0 then vs else
      let proposerBonus := total / 10
      let committeeShare := total - proposerBonus
      let totalActiveStake := vs.totalActiveStake
      if totalActiveStake = 0 then vs else
        let rewarded := vs.modify proposer
          (fun v => { v with pendingRewards := saturatingAdd128 v.pendingRewards proposerBonus })
        vs.activeSet.foldl
          (fun vs addr => vs.modify addr (fun v => v.creditReward committeeShare totalActiveStake))
          rewarded

/-- `claim_delegator_reward`; a claim of nothing is refused, and has taken the claimant out of
the denominator. -/
def claimDelegatorReward (vs : ValidatorSet) (validator delegator : Address) (delegatorStake : ℕ) :
    Except StakingError ℕ × ValidatorSet :=
  if delegatorStake = 0 then (.error (.noPendingRewards delegator),vs) else
    match vs.get validator with
    | none => (.error (.notFound validator),vs)
    | some v =>
      let (share,v) := v.claimDelegatorShare delegatorStake
      let vs := { vs with validators := vs.validators.insert validator v }
      if share = 0 then (.error (.noPendingRewards delegator),vs) else (.ok share,vs)

end ValidatorSet

end ZbxChain.Staking
