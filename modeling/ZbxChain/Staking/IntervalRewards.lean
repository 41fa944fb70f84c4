import ZbxChain.Execution.Supply
import ZbxChain.Foundation.ProRata
import ZbxChain.Staking.ActiveSet

/-! # What an interval pays out

At the end of an interval the escrow is credited with the rewards and the fees, and the same
amount is divided among the proposer and the active validators. The committee's share times a
stake is computed in 128 bits: what is paid is what is minted where these products have room.
-/
namespace ZbxChain.Staking
open Staking.ValidatorSet

namespace Validator
variable (v : Validator) (committeeShare totalActiveStake reward : ℕ)

/-- `total_reward`, as the source computes it. -/
def totalReward : ℕ := wrap128 (committeeShare * v.totalStake) / totalActiveStake

def selfShare : ℕ :=
  match checkedMul128 reward v.selfStake with
  | some p => p / v.totalStake
  | none => wrap128 (reward / v.totalStake * v.selfStake)

theorem creditReward_eq : v.creditReward committeeShare totalActiveStake =
    let reward := v.totalReward committeeShare totalActiveStake
    if reward = 0 then v
    else if v.delegatedStake = 0 then { v with pendingRewards := saturatingAdd128 v.pendingRewards reward }
    else
      let gross := reward - v.selfShare reward
      let commission := v.commissionOf gross
      { v with
        pendingRewards := saturatingAdd128 (saturatingAdd128 v.pendingRewards (v.selfShare reward)) commission
        poolDenominator := v.delegatedStake
        delegatorRewardPool := saturatingAdd128 v.delegatorRewardPool (gross - commission) } := rfl

def ProductsFit : Prop :=
  committeeShare * v.totalStake ≤ maxU128 ∧
    let reward := v.totalReward committeeShare totalActiveStake
    reward ≠ 0 → v.delegatedStake ≠ 0 →
      reward * v.selfStake ≤ maxU128 ∧ (reward - v.selfShare reward) * v.commissionBps.toNat ≤ maxU128

/-- A reward in exact numbers: the validator's own part with its commission, and what the
delegators get. -/
def parts : ℕ × ℕ :=
  let own := reward * v.selfStake / v.totalStake
  let commission := (reward - own) * v.commissionBps.toNat / 10000
  (own + commission,reward - own - commission)

/-- What a commission above 100% takes besides the delegators' part. -/
def overcharge : ℕ :=
  let gross := reward - reward * v.selfStake / v.totalStake
  gross * v.commissionBps.toNat / 10000 - gross

/-- A validator with more rewards, up to the largest number. -/
def credited (pending pool denominator : ℕ) : Validator :=
  { v with
    pendingRewards := min (v.pendingRewards + pending) maxU128
    delegatorRewardPool := min (v.delegatorRewardPool + pool) maxU128
    poolDenominator := denominator }

def increase (v v' : Validator) : ℕ :=
  (v'.pendingRewards - v.pendingRewards) + (v'.delegatorRewardPool - v.delegatorRewardPool)

end Validator

section Intervals
variable (vs : ValidatorSet) (height : UInt64) (proposer : Address) (fees : ℕ)

def proposerBonus : ℕ := intervalEscrowMint height fees / 10

def committeeShare : ℕ := intervalEscrowMint height fees - proposerBonus height fees

namespace ValidatorSet

def activeValidators : List Validator := vs.activeSet.filterMap vs.get

def increases (vs' : ValidatorSet) : ℕ :=
  vs.validators.sumOf fun a v => ((vs'.get a).map v.increase).getD 0

/-- No product exceeds 128 bits; what is paid is at most what is minted; and for a registered
proposer less than that by at most one wei for each active validator. -/
def PaidWithinMint : Prop :=
  let paid := vs.increases (vs.distributeBlockReward height proposer fees)
  (∀ v ∈ vs.activeValidators, v.ProductsFit (committeeShare height fees) vs.totalActiveStake) ∧
    paid ≤ intervalEscrowMint height fees ∧
    ((vs.get proposer).isSome → 0 < vs.totalActiveStake →
      intervalEscrowMint height fees ≤ paid + vs.activeSet.length)

def rewardOf (v : Validator) : ℕ := committeeShare height fees * v.totalStake / vs.totalActiveStake

/-- What the divisions by the total stake leave of the committee's share. -/
def roundedOff : ℕ := committeeShare height fees - (vs.activeValidators.map (vs.rewardOf height fees)).sum

def overcharged : ℕ := (vs.activeValidators.map fun v => v.overcharge (vs.rewardOf height fees v)).sum

/-- What is due to a validator: the bonus, and its parts as often as it is in the active set. -/
def due (a : Address) (v : Validator) : ℕ × ℕ :=
  let parts := v.parts (vs.rewardOf height fees v)
  ((if a = proposer then proposerBonus height fees else 0) + vs.activeSet.count a * parts.1,
    vs.activeSet.count a * parts.2)

/-- What is due and has no room above the rewards that a validator has already. -/
def cutOff : ℕ := vs.validators.sumOf fun a v =>
  (v.pendingRewards + (vs.due height proposer fees a v).1 - maxU128) +
    (v.delegatorRewardPool + (vs.due height proposer fees a v).2 - maxU128)

/-- The committee's share times the stake of an active validator has room in 128 bits. -/
def StakeProductsFit : Prop := ∀ v ∈ vs.activeValidators, committeeShare height fees * v.totalStake ≤ maxU128

/-- The products have room; and what is rounded and cut off outweighs what is overcharged, but by
no more than the bonus of an unregistered proposer and a wei for each active validator. -/
def AddsUp : Prop :=
  vs.StakeProductsFit height fees ∧ (0 < vs.totalActiveStake →
    vs.overcharged height fees ≤ vs.roundedOff height fees + vs.cutOff height proposer fees +
        (if (vs.get proposer).isSome then 0 else proposerBonus height fees) ∧
      ((vs.get proposer).isSome → vs.roundedOff height fees + vs.cutOff height proposer fees ≤
        vs.activeSet.length + vs.overcharged height fees))

end ValidatorSet

end Intervals

section Exact
variable {v : Validator} {committeeShare totalActiveStake reward : ℕ}

theorem wrap128_of_le {n : ℕ} (h : n ≤ maxU128) : wrap128 n = n := by
  unfold maxU128 at h
  exact Nat.mod_eq_of_lt (by omega)

theorem totalReward_of_fits (h : committeeShare * v.totalStake ≤ maxU128) :
    v.totalReward committeeShare totalActiveStake = committeeShare * v.totalStake / totalActiveStake := by
  rw [Validator.totalReward, wrap128_of_le h]

theorem selfShare_of_fits (h : reward * v.selfStake ≤ maxU128) :
    v.selfShare reward = reward * v.selfStake / v.totalStake := by
  simp only [Validator.selfShare, checkedMul128, if_pos h]

theorem commissionOf_of_fits (h : reward * v.commissionBps.toNat ≤ maxU128) :
    v.commissionOf reward = reward * v.commissionBps.toNat / 10000 := by
  simp only [Validator.commissionOf, checkedMul128, if_pos h]

theorem own_le (hstake : v.totalStake = v.selfStake + v.delegatedStake) (reward : ℕ) :
    reward * v.selfStake / v.totalStake ≤ reward := by
  refine Nat.div_le_of_le_mul ?_
  rw [Nat.mul_comm]
  exact Nat.mul_le_mul_right _ (by omega)

theorem sum_parts (hstake : v.totalStake = v.selfStake + v.delegatedStake) (reward : ℕ) :
    (v.parts reward).1 + (v.parts reward).2 = reward + v.overcharge reward := by
  have hown := own_le hstake reward
  simp only [Validator.parts, Validator.overcharge]
  omega

theorem overcharge_eq_zero (h : v.commissionBps.toNat ≤ 10000) (reward : ℕ) : v.overcharge reward = 0 := by
  simp only [Validator.overcharge]
  refine Nat.sub_eq_zero_of_le (Nat.div_le_of_le_mul ?_)
  rw [Nat.mul_comm]
  exact Nat.mul_le_mul_right _ h

theorem credited_credited (v : Validator) (p q d p' q' d' : ℕ) :
    (v.credited p q d).credited p' q' d' = v.credited (p + p') (q + q') d' := by
  simp only [Validator.credited, Validator.mk.injEq, true_and, and_true]
  omega

theorem credited_zero (hpending : v.pendingRewards ≤ maxU128) (hpool : v.delegatorRewardPool ≤ maxU128) :
    v.credited 0 0 v.poolDenominator = v := by
  simp [Validator.credited, hpending, hpool]

theorem creditReward_parts (hfit : v.ProductsFit committeeShare totalActiveStake)
    (hstake : v.totalStake = v.selfStake + v.delegatedStake) (hpending : v.pendingRewards ≤ maxU128)
    (hpool : v.delegatorRewardPool ≤ maxU128) :
    let parts := v.parts (committeeShare * v.totalStake / totalActiveStake)
    ∃ d, v.creditReward committeeShare totalActiveStake = v.credited parts.1 parts.2 d := by
  obtain ⟨hproduct,hrest⟩ := hfit
  rw [Validator.creditReward_eq, totalReward_of_fits hproduct]
  rw [totalReward_of_fits hproduct] at hrest
  have hweight : committeeShare * v.totalStake / totalActiveStake ≠ 0 → 0 < v.totalStake := by
    intro hne
    refine Nat.pos_of_ne_zero (fun hzero => hne ?_)
    rw [hzero, Nat.mul_zero, Nat.zero_div]
  generalize committeeShare * v.totalStake / totalActiveStake = reward at hrest hweight ⊢
  dsimp only at hrest ⊢
  by_cases hzero : reward = 0
  · subst hzero
    refine ⟨v.poolDenominator,?_⟩
    simp [Validator.parts, Validator.credited, hpending, hpool]
  · rw [if_neg hzero]
    by_cases hdelegated : v.delegatedStake = 0
    · -- all the stake is the validator's own, and nothing is left for delegators
      have hsame : v.selfStake = v.totalStake := by omega
      have hown : reward * v.selfStake / v.totalStake = reward := by
        rw [hsame, Nat.mul_div_cancel _ (hweight hzero)]
      refine ⟨v.poolDenominator,?_⟩
      simp [Validator.parts, Validator.credited, hown, hdelegated, hpool, saturatingAdd128]
    · obtain ⟨hself,hcommission⟩ := hrest hzero hdelegated
      rw [selfShare_of_fits hself] at hcommission
      refine ⟨v.delegatedStake,?_⟩
      rw [if_neg hdelegated, selfShare_of_fits hself, commissionOf_of_fits hcommission]
      simp only [Validator.parts, Validator.credited, saturatingAdd128]
      congr 1
      omega

theorem iterate_creditReward (n : ℕ) (hfit : n ≠ 0 → v.ProductsFit committeeShare totalActiveStake)
    (hstake : n ≠ 0 → v.totalStake = v.selfStake + v.delegatedStake) (hpending : v.pendingRewards ≤ maxU128)
    (hpool : v.delegatorRewardPool ≤ maxU128) :
    let parts := v.parts (committeeShare * v.totalStake / totalActiveStake)
    ∃ d, (fun v => v.creditReward committeeShare totalActiveStake)^[n] v =
      v.credited (n * parts.1) (n * parts.2) d := by
  induction n with
  | zero =>
    refine ⟨v.poolDenominator,?_⟩
    rw [Nat.zero_mul, Nat.zero_mul, credited_zero hpending hpool, Function.iterate_zero, id]
  | succ n ih =>
    have hne := Nat.succ_ne_zero n
    obtain ⟨d,hd⟩ := ih (fun _ => hfit hne) (fun _ => hstake hne)
    rw [Function.iterate_succ_apply', hd]
    -- the stakes and the commission are those of the validator before
    have hfit' : (v.credited (n * (v.parts (committeeShare * v.totalStake / totalActiveStake)).1)
        (n * (v.parts (committeeShare * v.totalStake / totalActiveStake)).2) d).ProductsFit
          committeeShare totalActiveStake := hfit hne
    obtain ⟨d',hd'⟩ := creditReward_parts hfit' (hstake hne) (min_le_right _ _) (min_le_right _ _)
    refine ⟨d',?_⟩
    rw [hd', credited_credited, Nat.succ_mul, Nat.succ_mul]
    rfl

theorem increase_credited (hpending : v.pendingRewards ≤ maxU128) (hpool : v.delegatorRewardPool ≤ maxU128)
    (p q d : ℕ) : v.increase (v.credited p q d) +
      ((v.pendingRewards + p - maxU128) + (v.delegatorRewardPool + q - maxU128)) = p + q := by
  simp only [Validator.increase, Validator.credited]
  omega

end Exact

section Distribution
variable {vs : ValidatorSet} {height : UInt64} {proposer : Address} {fees : ℕ}

/-- The amounts that a validator holds are numbers of 128 bits. -/
def Validator.RewardsTyped (v : Validator) : Prop := v.pendingRewards ≤ maxU128 ∧ v.delegatorRewardPool ≤ maxU128

theorem distribute_nothing (h : intervalEscrowMint height fees = 0 ∨ vs.totalActiveStake = 0) :
    vs.distributeBlockReward height proposer fees = vs := by
  unfold distributeBlockReward
  by_cases hboundary : height.toNat % rewardInterval ≠ 0
  · rw [if_pos hboundary]
  · rw [intervalEscrowMint, if_neg hboundary] at h
    rw [if_neg hboundary]
    dsimp only
    rcases h with htotal | hactive
    · rw [if_pos htotal]
    · rw [if_pos hactive, ite_self]

theorem distribute_eq (hheight : height.toNat % rewardInterval = 0) (hmint : intervalEscrowMint height fees ≠ 0)
    (hactive : vs.totalActiveStake ≠ 0) : vs.distributeBlockReward height proposer fees =
      vs.activeSet.foldl (fun vs' addr => vs'.modify addr (fun v =>
          v.creditReward (committeeShare height fees) vs.totalActiveStake))
        (vs.modify proposer (fun v =>
          { v with pendingRewards := saturatingAdd128 v.pendingRewards (proposerBonus height fees) })) := by
  have hboundary : ¬ height.toNat % rewardInterval ≠ 0 := not_not.mpr hheight
  have htotal : intervalEscrowMint height fees =
      saturatingAdd128 ((rewardWindow height).map blockRewardAt).sum fees := by
    rw [intervalEscrowMint, if_neg hboundary]
  unfold distributeBlockReward committeeShare proposerBonus
  rw [htotal] at hmint ⊢
  rw [if_neg hboundary]
  dsimp only
  rw [if_neg hmint, if_neg hactive]

theorem due_eq_zero (hmint : intervalEscrowMint height fees = 0) (a : Address) (v : Validator) :
    vs.due height proposer fees a v = (0,0) := by
  simp [ValidatorSet.due, ValidatorSet.rewardOf, committeeShare, proposerBonus, hmint, Validator.parts]

theorem get_distribute (proposer : Address) (hheight : height.toNat % rewardInterval = 0)
    (hactive : vs.totalActiveStake ≠ 0) {a : Address} {v : Validator} (hget : vs.get a = some v)
    (htyped : v.RewardsTyped)
    (hfit : a ∈ vs.activeSet → v.ProductsFit (committeeShare height fees) vs.totalActiveStake ∧
      v.totalStake = v.selfStake + v.delegatedStake) :
    ∃ d, (vs.distributeBlockReward height proposer fees).get a =
      some (v.credited (vs.due height proposer fees a v).1 (vs.due height proposer fees a v).2 d) := by
  obtain ⟨hpending,hpool⟩ := htyped
  by_cases hmint : intervalEscrowMint height fees = 0
  · refine ⟨v.poolDenominator,?_⟩
    rw [distribute_nothing (Or.inl hmint), due_eq_zero hmint, hget, credited_zero hpending hpool]
  have hcount : vs.activeSet.count a ≠ 0 → a ∈ vs.activeSet := fun h => List.count_pos_iff.mp (Nat.pos_of_ne_zero h)
  rw [distribute_eq hheight hmint hactive, get_foldl_iterate, get_modify]
  obtain ⟨bonus,hbonus⟩ : ∃ bonus, bonus = if a = proposer then proposerBonus height fees else 0 := ⟨_,rfl⟩
  have hfirst : (if a = proposer then (vs.get proposer).map (fun v => { v with
      pendingRewards := saturatingAdd128 v.pendingRewards (proposerBonus height fees) }) else vs.get a) =
        some (v.credited bonus 0 v.poolDenominator) := by
    split
    · rename_i heq
      subst heq
      rw [hget, hbonus, if_pos rfl]
      simp [Validator.credited, saturatingAdd128, hpool]
    · rename_i hne
      rw [hget, hbonus, if_neg hne, credited_zero hpending hpool]
  rw [hfirst, Option.map_some]
  -- the bonus leaves the stakes and the commission as they are
  have hfit' : vs.activeSet.count a ≠ 0 → (v.credited bonus 0 v.poolDenominator).ProductsFit
      (committeeShare height fees) vs.totalActiveStake := fun h => (hfit (hcount h)).1
  obtain ⟨d,hd⟩ := iterate_creditReward (vs.activeSet.count a) hfit' (fun h => (hfit (hcount h)).2)
    (min_le_right _ _) (min_le_right _ _)
  refine ⟨d,?_⟩
  rw [hd, credited_credited, Nat.zero_add, hbonus]
  rfl

theorem mint_le (height : UInt64) (fees : ℕ) :
    intervalEscrowMint height fees ≤ rewardInterval * initialBlockReward + fees := by
  have hblock : ∀ r ∈ (rewardWindow height).map blockRewardAt, r ≤ initialBlockReward := by
    intro r hr
    obtain ⟨h,-,rfl⟩ := List.mem_map.mp hr
    rw [blockRewardAt_eq]
    exact Nat.div_le_self _ _
  have hlength : (rewardWindow height).length ≤ rewardInterval := by
    simp only [rewardWindow, List.length_map, List.length_range', rewardInterval]
    omega
  have hbase : ((rewardWindow height).map blockRewardAt).sum ≤ rewardInterval * initialBlockReward := by
    have hsum := List.sum_le_card_nsmul _ _ hblock
    rw [List.length_map, Nat.nsmul_eq_mul] at hsum
    exact hsum.trans (Nat.mul_le_mul_right _ hlength)
  unfold intervalEscrowMint
  split
  · exact Nat.zero_le _
  · exact (min_le_left _ _).trans (Nat.add_le_add_right hbase fees)

/-- The proposer's bonus and the committee's share are the whole mint. -/
theorem bonus_add_share (height : UInt64) (fees : ℕ) :
    proposerBonus height fees + committeeShare height fees = intervalEscrowMint height fees :=
  Nat.add_sub_cancel' (Nat.div_le_self _ _)

section Stakes
variable {v : Validator}

theorem mem_activeValidators {a : Address} (ha : a ∈ vs.activeSet) (hget : vs.get a = some v) :
    v ∈ vs.activeValidators := List.mem_filterMap.mpr ⟨a,ha,hget⟩

variable (hstakes : (vs.activeValidators.map Validator.totalStake).sum ≤ totalSupply)
include hstakes

theorem totalActiveStake_eq : vs.totalActiveStake = (vs.activeValidators.map Validator.totalStake).sum :=
  wrap128_of_le (hstakes.trans (by decide))

theorem totalStake_le (hv : v ∈ vs.activeValidators) : v.totalStake ≤ vs.totalActiveStake := by
  rw [totalActiveStake_eq hstakes]
  exact List.single_le_sum (fun _ _ => Nat.zero_le _) _ (List.mem_map_of_mem hv)

theorem totalStake_eq (hv : v ∈ vs.activeValidators) : v.totalStake = v.selfStake + v.delegatedStake := by
  have hle : v.totalStake ≤ totalSupply :=
    (List.single_le_sum (fun _ _ => Nat.zero_le _) _ (List.mem_map_of_mem hv)).trans hstakes
  have hlt : totalSupply < maxU128 := by decide
  unfold Validator.totalStake saturatingAdd128 at hle ⊢
  omega

theorem productsFit_of_stake (hfees : fees ≤ totalSupply) (hv : v ∈ vs.activeValidators)
    (hproduct : committeeShare height fees * v.totalStake ≤ maxU128) :
    v.ProductsFit (committeeShare height fees) vs.totalActiveStake := by
  refine ⟨hproduct,?_⟩
  dsimp only
  rw [totalReward_of_fits hproduct]
  generalize hreward : committeeShare height fees * v.totalStake / vs.totalActiveStake = reward
  intro _ _
  have hweight := totalStake_le hstakes hv
  have hself : v.selfStake ≤ vs.totalActiveStake := by
    have hsum := totalStake_eq hstakes hv
    omega
  have hwhole : reward * vs.totalActiveStake ≤ committeeShare height fees * v.totalStake := by
    rw [← hreward]
    exact Nat.div_mul_le_self _ _
  have hshare : reward ≤ committeeShare height fees := by
    rw [← hreward]
    refine Nat.div_le_of_le_mul ?_
    rw [Nat.mul_comm]
    exact Nat.mul_le_mul_right _ hweight
  have hcommission : v.commissionBps.toNat ≤ 2 ^ 16 := v.commissionBps.toNat_lt.le
  constructor
  · exact ((Nat.mul_le_mul_left _ hself).trans hwhole).trans hproduct
  · calc (reward - v.selfShare reward) * v.commissionBps.toNat
        ≤ committeeShare height fees * 2 ^ 16 :=
          Nat.mul_le_mul ((Nat.sub_le _ _).trans hshare) hcommission
      _ ≤ (rewardInterval * initialBlockReward + totalSupply) * 2 ^ 16 :=
          Nat.mul_le_mul_right _ ((Nat.sub_le _ _).trans ((mint_le height fees).trans (by omega)))
      _ ≤ maxU128 := by decide

/-- What the division by stake leaves is less than a unit for each member. -/
theorem roundedOff_le (height : UInt64) (fees : ℕ) (hactive : 0 < vs.totalActiveStake) :
    (vs.activeValidators.map (vs.rewardOf height fees)).sum + vs.roundedOff height fees =
        committeeShare height fees ∧
      vs.roundedOff height fees ≤ vs.activeSet.length := by
  have hsum := (totalActiveStake_eq hstakes).symm
  have hshares : vs.activeValidators.map (vs.rewardOf height fees) =
      (vs.activeValidators.map Validator.totalStake).map
        (fun w => committeeShare height fees * w / vs.totalActiveStake) := by
    rw [List.map_map]
    rfl
  have hle : (vs.activeValidators.map (vs.rewardOf height fees)).sum ≤ committeeShare height fees := by
    rw [hshares]
    exact sum_shares_le _ hsum hactive
  have hrest : committeeShare height fees ≤
      (vs.activeValidators.map (vs.rewardOf height fees)).sum + vs.activeValidators.length := by
    have hunits := whole_le_shares (committeeShare height fees) hsum hactive
    rwa [List.length_map, ← hshares] at hunits
  have hlength : vs.activeValidators.length ≤ vs.activeSet.length := List.length_filterMap_le _ _
  unfold ValidatorSet.roundedOff
  omega

end Stakes

section Accounts

theorem sum_countOf {κ α : Type*} [DecidableEq κ] (t : Table κ α) (g : α → ℕ) (l : List κ) :
    (l.map (t.countOf fun _ => g)).sum = ((l.filterMap fun k => t.lookup k).map g).sum := by
  induction l with
  | nil => rfl
  | cons k l ih =>
    rw [List.map_cons, List.sum_cons, ih]
    cases hk : t.lookup k with
    | none => simp [hk, AList.countOf_of_none hk]
    | some v => simp [hk, AList.countOf_of_some hk]

variable (hstakes : (vs.activeValidators.map Validator.totalStake).sum ≤ totalSupply)
include hstakes

/-- All that is due in an interval. -/
theorem sum_due (height : UInt64) (proposer : Address) (fees : ℕ) : vs.validators.sumOf (fun a v =>
      (vs.due height proposer fees a v).1 + (vs.due height proposer fees a v).2) =
    (if (vs.get proposer).isSome then proposerBonus height fees else 0) +
      ((vs.activeValidators.map (vs.rewardOf height fees)).sum + vs.overcharged height fees) := by
  have hdue : ∀ a v, vs.validators.lookup a = some v →
      (vs.due height proposer fees a v).1 + (vs.due height proposer fees a v).2 =
        (if a = proposer then proposerBonus height fees else 0) +
          vs.activeSet.count a * (vs.rewardOf height fees v + v.overcharge (vs.rewardOf height fees v)) := by
    intro a v hget
    simp only [ValidatorSet.due]
    by_cases hmem : a ∈ vs.activeSet
    · rw [← sum_parts (totalStake_eq hstakes (mem_activeValidators hmem hget)), Nat.mul_add]
      omega
    · rw [List.count_eq_zero.mpr hmem]
      simp
  have hbonus : vs.validators.sumOf (fun a _ => if a = proposer then proposerBonus height fees else 0) =
      if (vs.get proposer).isSome then proposerBonus height fees else 0 := by
    rw [AList.sumOf_single vs.validators (fun _ _ => proposerBonus height fees) proposer]
    cases hget : vs.get proposer with
    | none => exact AList.countOf_of_none hget
    | some v => exact AList.countOf_of_some hget
  rw [AList.sumOf_congr hdue, AList.sumOf_add, hbonus, AList.sumOf_count, sum_countOf, List.sum_map_add]
  rfl

theorem accounts (proposer : Address) (hheight : height.toNat % rewardInterval = 0) (hfees : fees ≤ totalSupply)
    (htyped : ∀ a v, vs.get a = some v → v.RewardsTyped)
    (hactive : 0 < vs.totalActiveStake) (hfit : vs.StakeProductsFit height fees) :
    vs.increases (vs.distributeBlockReward height proposer fees) + vs.cutOff height proposer fees +
        vs.roundedOff height fees =
      (if (vs.get proposer).isSome then proposerBonus height fees else 0) + committeeShare height fees +
        vs.overcharged height fees := by
  have hincrease : ∀ a v, vs.validators.lookup a = some v →
      (((vs.distributeBlockReward height proposer fees).get a).map v.increase).getD 0 +
          ((v.pendingRewards + (vs.due height proposer fees a v).1 - maxU128) +
            (v.delegatorRewardPool + (vs.due height proposer fees a v).2 - maxU128)) =
        (vs.due height proposer fees a v).1 + (vs.due height proposer fees a v).2 := by
    intro a v hget
    obtain ⟨d,hd⟩ := get_distribute proposer hheight hactive.ne' hget (htyped a v hget)
      (fun ha => ⟨productsFit_of_stake hstakes hfees (mem_activeValidators ha hget)
        (hfit v (mem_activeValidators ha hget)),totalStake_eq hstakes (mem_activeValidators ha hget)⟩)
    rw [hd, Option.map_some, Option.getD_some]
    exact increase_credited (htyped a v hget).1 (htyped a v hget).2 _ _ d
  have hpaid : vs.increases (vs.distributeBlockReward height proposer fees) + vs.cutOff height proposer fees =
      vs.validators.sumOf (fun a v =>
        (vs.due height proposer fees a v).1 + (vs.due height proposer fees a v).2) := by
    unfold ValidatorSet.increases ValidatorSet.cutOff
    rw [← AList.sumOf_add, AList.sumOf_congr hincrease]
  have hrounded := (roundedOff_le hstakes height fees hactive).1
  rw [hpaid, sum_due hstakes height proposer fees]
  omega

/-- Every balance has room for all that is minted. -/
def ValidatorSet.HasRoom (vs : ValidatorSet) (height : UInt64) (fees : ℕ) : Prop :=
  ∀ a v, vs.get a = some v → v.pendingRewards + intervalEscrowMint height fees ≤ maxU128 ∧
    v.delegatorRewardPool + intervalEscrowMint height fees ≤ maxU128

omit hstakes in
theorem overcharged_eq_zero (h : ∀ v ∈ vs.activeValidators, v.commissionBps.toNat ≤ 10000) :
    vs.overcharged height fees = 0 := by
  unfold ValidatorSet.overcharged
  refine List.sum_eq_zero (fun n hn => ?_)
  obtain ⟨v,hv,rfl⟩ := List.mem_map.mp hn
  exact overcharge_eq_zero (h v hv) _

theorem cutOff_eq_zero (hroom : vs.HasRoom height fees) (hactive : 0 < vs.totalActiveStake)
    (hcharged : vs.overcharged height fees = 0) : vs.cutOff height proposer fees = 0 := by
  have hall := sum_due hstakes height proposer fees
  have hrounded := (roundedOff_le hstakes height fees hactive).1
  have hshare := bonus_add_share height fees
  have hzero : ∀ a v, vs.validators.lookup a = some v →
      (v.pendingRewards + (vs.due height proposer fees a v).1 - maxU128) +
        (v.delegatorRewardPool + (vs.due height proposer fees a v).2 - maxU128) = 0 := by
    intro a v hget
    have hone := AList.countOf_le vs.validators (fun a v =>
      (vs.due height proposer fees a v).1 + (vs.due height proposer fees a v).2) a
    rw [AList.countOf_of_some hget, hall] at hone
    have hbonus : (if (vs.get proposer).isSome then proposerBonus height fees else 0) ≤
        proposerBonus height fees := by
      split
      · exact le_rfl
      · exact Nat.zero_le _
    have hfits := hroom a v hget
    omega
  unfold ValidatorSet.cutOff
  rw [AList.sumOf_congr hzero]
  simp [AList.sumOf]

end Accounts

theorem increases_self (vs : ValidatorSet) : vs.increases vs = 0 := by
  have hsame : ∀ a v, vs.validators.lookup a = some v → ((vs.get a).map v.increase).getD 0 = 0 := by
    intro a v hget
    have hself : vs.get a = some v := hget
    rw [hself]
    simp [Validator.increase]
  unfold ValidatorSet.increases
  rw [AList.sumOf_congr hsame]
  simp [AList.sumOf]

/-- What is paid keeps to the mint exactly where the products have room and the remainders add
up. They do for commissions of at most 100% and balances with room for the mint. -/
theorem rewards_iff (hheight : height.toNat % rewardInterval = 0) (hfees : fees ≤ totalSupply)
    (hstakes : (vs.activeValidators.map Validator.totalStake).sum ≤ totalSupply)
    (htyped : ∀ a v, vs.get a = some v → v.RewardsTyped) :
    (vs.PaidWithinMint height proposer fees ↔ vs.AddsUp height proposer fees) ∧
      ((∀ v ∈ vs.activeValidators, v.commissionBps.toNat ≤ 10000) → vs.HasRoom height fees →
        (vs.PaidWithinMint height proposer fees ↔ vs.StakeProductsFit height fees)) := by
  have hshare := bonus_add_share height fees
  have hexact : vs.PaidWithinMint height proposer fees ↔ vs.AddsUp height proposer fees := by
    by_cases hactive : 0 < vs.totalActiveStake
    · constructor
      · rintro ⟨hproducts,hle,hge⟩
        have hfit : vs.StakeProductsFit height fees := fun v hv => (hproducts v hv).1
        have haccounts := accounts hstakes proposer hheight hfees htyped hactive hfit
        refine ⟨hfit,fun _ => ⟨?_,fun hregistered => ?_⟩⟩
        · by_cases hregistered : (vs.get proposer).isSome
          · rw [if_pos hregistered] at haccounts ⊢
            omega
          · rw [if_neg hregistered] at haccounts ⊢
            omega
        · have hshort := hge hregistered hactive
          rw [if_pos hregistered] at haccounts
          omega
      · rintro ⟨hfit,hrest⟩
        have haccounts := accounts hstakes proposer hheight hfees htyped hactive hfit
        obtain ⟨hover,hshort⟩ := hrest hactive
        refine ⟨fun v hv => productsFit_of_stake hstakes hfees hv (hfit v hv),?_,fun hregistered _ => ?_⟩
        · by_cases hregistered : (vs.get proposer).isSome
          · rw [if_pos hregistered] at haccounts hover
            omega
          · rw [if_neg hregistered] at haccounts hover
            omega
        · have hless := hshort hregistered
          rw [if_pos hregistered] at haccounts
          omega
    · -- without stake, nothing is paid
      have hzero : vs.totalActiveStake = 0 := Nat.eq_zero_of_not_pos hactive
      have hfit : vs.StakeProductsFit height fees := by
        intro v hv
        have hweight := totalStake_le hstakes hv
        have hnone : v.totalStake = 0 := by omega
        rw [hnone, Nat.mul_zero]
        exact Nat.zero_le _
      refine iff_of_true ⟨?_,?_,fun _ h => absurd h hactive⟩ ⟨hfit,fun h => absurd h hactive⟩
      · exact fun v hv => productsFit_of_stake hstakes hfees hv (hfit v hv)
      · rw [distribute_nothing (Or.inr hzero), increases_self]
        exact Nat.zero_le _
  refine ⟨hexact,fun hcommission hroom => ?_⟩
  rw [hexact]
  refine ⟨fun h => h.1,fun hfit => ⟨hfit,fun hactive => ?_⟩⟩
  have hcharged : vs.overcharged height fees = 0 := overcharged_eq_zero hcommission
  have hcut : vs.cutOff height proposer fees = 0 := cutOff_eq_zero hstakes hroom hactive hcharged
  have hrounded := (roundedOff_le hstakes height fees hactive).2
  rw [hcharged, hcut]
  exact ⟨Nat.zero_le _,fun _ => by omega⟩

end Distribution

section OneValidator

def stakedAlone (selfStake delegatedStake : ℕ) : ValidatorSet :=
  ⟨(∅ : Table Address Validator).insert 7 ⟨7,0,selfStake,delegatedStake,500,.active,0,0,0,0,0⟩,[7],1⟩

theorem get_stakedAlone {selfStake delegatedStake : ℕ} {a : Address} {v : Validator}
    (h : (stakedAlone selfStake delegatedStake).get a = some v) :
    v = ⟨7,0,selfStake,delegatedStake,500,.active,0,0,0,0,0⟩ := by
  rcases AList.lookup_insert_some h with ⟨-,rfl⟩ | ⟨-,hnone⟩
  · rfl
  · cases hnone

theorem activeValidators_stakedAlone (selfStake delegatedStake : ℕ) :
    (stakedAlone selfStake delegatedStake).activeValidators =
      [⟨7,0,selfStake,delegatedStake,500,.active,0,0,0,0,0⟩] := rfl

/-- The least stake of a validator is enough to exceed 128 bits at the first boundary. -/
theorem least_stake_overflows : ¬ ∀ (vs : ValidatorSet) (height : UInt64) (proposer : Address) (fees : ℕ),
    height.toNat % rewardInterval = 0 → fees ≤ totalSupply →
      vs.validators.sumOf (fun _ v => v.selfStake + v.delegatedStake) ≤ totalSupply →
        (∀ a v, vs.get a = some v → v.RewardsTyped) → vs.PaidWithinMint height proposer fees := by
  intro h
  have hpaid := h (stakedAlone minSelfStake 0) 100 7 0 (by decide) (by decide) (by decide) (by
    intro a v hget
    rw [get_stakedAlone hget]
    exact ⟨by decide,by decide⟩)
  have hfit := (hpaid.1 _ (by rw [activeValidators_stakedAlone]; exact List.mem_singleton_self _)).1
  revert hfit
  decide +kernel

/-- A stake of a few million wei keeps to the mint. -/
theorem small_stakes_paid : (stakedAlone 1000000 4000000).PaidWithinMint 200 7 1000000000000000000 := by
  have hactive : ∀ {Q : Validator → Prop}, Q ⟨7,0,1000000,4000000,500,.active,0,0,0,0,0⟩ →
      ∀ v ∈ (stakedAlone 1000000 4000000).activeValidators, Q v := by
    intro Q hQ v hv
    rw [activeValidators_stakedAlone, List.mem_singleton] at hv
    exact hv ▸ hQ
  refine ((rewards_iff (by decide) (by decide) (by decide) ?_).2 (hactive (by decide)) ?_).mpr
    (hactive (by decide +kernel))
  · intro a v hget
    rw [get_stakedAlone hget]
    exact ⟨by decide,by decide⟩
  · intro a v hget
    rw [get_stakedAlone hget]
    exact ⟨by decide +kernel,by decide +kernel⟩

end OneValidator

end ZbxChain.Staking
