import ZbxChain.Foundation.ProRata
import ZbxChain.Staking.DelegationLedgers

/-! # A reward pool between two distributions

Delegators claim, and move their stakes, in any order. A claim is paid by the stake that its
sender has then, and nothing records who has claimed: the shares are those of the distribution
as long as no account claims with more than it had at that time.
-/
namespace ZbxChain.Staking
open StateProgram

inductive DelegatorCall where
  | delegate (validator : Address) (amount : ℕ)
  | undelegate (validator : Address) (amount : ℕ)
  | claimDelegatorRewards (validator : Address)

def DelegatorCall.tx : DelegatorCall → StakingTx
  | .delegate validator amount => .delegate validator amount
  | .undelegate validator amount => .undelegate validator amount
  | .claimDelegatorRewards validator => .claimDelegatorRewards validator

inductive DelegatorEvent where
  | transaction (faults : LedgerFaults) (call : DelegatorCall) (sender : Address) (sentValue : ℕ)
      (currentHeight : UInt64)
  /-- The write-set of a block is stored. -/
  | commit

/-- The staking state and the balances. -/
abbrev RewardState := StakingState × ExecView

/-- One event, and the wei that it adds to the balance of its sender. -/
def rewardStep (P : Platform) (s : RewardState) : DelegatorEvent → RewardState × ℕ
  | .transaction faults call sender sentValue currentHeight =>
    let r := (dispatchStakingTx P faults sender sentValue currentHeight s.1 call.tx).run ExecView.answer s.2
    ((r.1.1,r.2),(r.2.getAccount sender).balanceU128 - (s.2.getAccount sender).balanceU128)
  | .commit =>
    (({ s.1 with columns := s.1.columns.applyStakingDelta s.1.delta, delta := .new },s.2),0)

abbrev RewardEntry := Machine.Entry RewardState DelegatorEvent ℕ

section Records
variable (validator : Address)

def StakingState.poolLeft (st : StakingState) : ℕ :=
  ((st.vs.get validator).map Validator.delegatorRewardPool).getD 0

def StakingState.denominatorLeft (st : StakingState) : ℕ :=
  ((st.vs.get validator).map Validator.poolDenominator).getD 0

def DelegatorEvent.claimant : DelegatorEvent → Option Address
  | .transaction _ (.claimDelegatorRewards w) sender _ _ => if w = validator then some sender else none
  | _ => none

/-- The stake with which a claim meets what is left in the pool; 0 where there is no such claim. -/
def claimedWith (st : StakingState) : DelegatorEvent → ℕ
  | .transaction faults (.claimDelegatorRewards w) sender sentValue _ =>
    if w = validator ∧ sentValue = 0 ∧ st.poolLeft validator ≠ 0 then
      (st.delta.getDelegation faults st.columns (validator,sender)).toOption.getD 0
    else 0
  | _ => 0

variable (a : Address)

def receivedBy (past : List RewardEntry) : ℕ :=
  (past.map (fun e => if e.call.claimant validator = some a then e.output else 0)).sum

def claimedBy (past : List RewardEntry) : ℕ :=
  (past.map (fun e => if e.call.claimant validator = some a then claimedWith validator e.before.1 e.call else 0)).sum

def claimCount (past : List RewardEntry) : ℕ :=
  past.countP (fun e => claimedWith validator e.before.1 e.call ≠ 0)

end Records

/-- A distribution that fills the empty pool of a validator with `pool`, while the accounts
`holders` have delegations to it, which sum to the denominator of the pool. -/
structure Distributes (st st' : StakingState) (validator : Address) (holders : Finset Address)
    (pool : ℕ) : Prop where
  empty : st.poolLeft validator = 0
  distributed : ∃ height proposer fees, st' = { st with vs := st.vs.distributeBlockReward height proposer fees }
  filled : st'.poolLeft validator = pool
  mem_holders : ∀ a, a ∈ holders ↔ st.row (validator,a) ≠ 0
  sum_holders : ∑ a ∈ holders, st.row (validator,a) = st'.denominatorLeft validator

/-- What a claim has to meet: with what its account has claimed with before, its stake is within
the delegation at the distribution; there have been fewer claims than delegators; and the
product of the pool and the stake has room in 128 bits. -/
def ClaimsItsPart (validator : Address) (due : Address → ℕ) (k : ℕ) (past : List RewardEntry)
    (s : RewardState) (ev : DelegatorEvent) : Prop :=
  ∀ a, ev.claimant validator = some a → claimedWith validator s.1 ev ≠ 0 →
    claimedBy validator a past + claimedWith validator s.1 ev ≤ due a ∧ claimCount validator past < k ∧
      s.1.poolLeft validator * claimedWith validator s.1 ev ≤ maxU128

section Payments

theorem balance_eq (view : ExecView) (a : Address) :
    (view.getAccount a).balanceU128 = min (view.wei a) maxU128 := rfl

theorem balance_setBalanceOf (view : ExecView) (addr a : Address) {wei : ℕ} (hwei : wei ≤ maxU128) :
    (((setBalanceOf addr wei).run ExecView.answer view).2.getAccount a).balanceU128 =
      if a = addr then wei else (view.getAccount a).balanceU128 := by
  have hrun : ((setBalanceOf addr wei).run ExecView.answer view).2 =
      view.setAccount addr ((view.getAccount addr).setBalanceU128 wei) := rfl
  rw [hrun, balance_eq, balance_eq, wei_setAccount]
  split
  · rw [toNat_setBalanceU128 hwei, min_eq_left hwei]
  · rfl

theorem gain_paidView (view : ExecView) (recipient : Address) (amount : ℕ) :
    ((paidView recipient amount view).getAccount recipient).balanceU128 -
      (view.getAccount recipient).balanceU128 ≤ amount := by
  have hget : ∀ (addr : Address) (view : ExecView),
      (balanceOf addr).run ExecView.answer view = ((view.getAccount addr).balanceU128,view) := fun _ _ => rfl
  unfold paidView payFromEscrow
  simp only [Program.run_bind, hget]
  generalize hescrow : (view.getAccount stakingPrecompileAddr).balanceU128 = escrow
  by_cases hlow : escrow < amount
  · simp [hlow]
  · have hfits : escrow - amount ≤ maxU128 := by
      rw [← hescrow, balance_eq]
      omega
    simp only [if_neg hlow, Program.run_bind, hget, Program.run_pure, saturatingAdd128]
    rw [balance_setBalanceOf _ _ _ (min_le_right _ _), if_pos rfl, balance_setBalanceOf _ _ _ hfits]
    split
    · rename_i hself
      rw [hself, hescrow]
      omega
    · omega

end Payments

section Calls
variable {P : Platform} {faults : LedgerFaults} {sender : Address} {sentValue : ℕ} {currentHeight : UInt64}
  {st : StakingState} {validator : Address} {stake : ℕ} {v : Validator}

def poolFields (v : Validator) : ℕ × ℕ := (v.delegatorRewardPool,v.poolDenominator)

theorem left_of_sameField {vs vs' : ValidatorSet} (h : SameField poolFields vs vs') (validator : Address)
    {st st' : StakingState} (hst : st.vs = vs) (hst' : st'.vs = vs') :
    st'.poolLeft validator = st.poolLeft validator ∧
      st'.denominatorLeft validator = st.denominatorLeft validator := by
  have hfields := h validator
  subst hst hst'
  unfold StakingState.poolLeft StakingState.denominatorLeft
  cases hget : st.vs.get validator with
  | none =>
    cases hget' : st'.vs.get validator with
    | none => exact ⟨rfl,rfl⟩
    | some v' => simp [hget, hget'] at hfields
  | some v =>
    cases hget' : st'.vs.get validator with
    | none => simp [hget, hget'] at hfields
    | some v' =>
      simp only [hget, hget', Option.map_some, Option.some.injEq, poolFields, Prod.mk.injEq] at hfields
      exact hfields

theorem sameField_finish {gas : UInt64} {result : Except StakingError ValidatorSet} {st' : StakingState}
    (hok : ∀ vs', result = .ok vs' → SameField poolFields st.vs vs') (hsame : st'.vs = st.vs) :
    SameField poolFields st.vs (st'.finish gas result).1.vs := by
  cases result with
  | error e =>
    change SameField poolFields st.vs st'.vs
    rw [hsame]
    exact fun _ => rfl
  | ok vs' => exact hok vs' rfl

theorem sameField_delegateTo (recipient : Address) (amount : ℕ) :
    SameField poolFields st.vs (delegateTo faults sender sentValue st recipient amount).1.vs := by
  have hrefl : SameField poolFields st.vs st.vs := fun _ => rfl
  have hok : ∀ vs', st.vs.delegate recipient amount = .ok vs' → SameField poolFields st.vs vs' := by
    rintro vs' hdelegate
    obtain ⟨v,-,rfl⟩ := delegate_ok hdelegate
    exact sameField_modify (f := fun v => { v with
      delegatedStake := saturatingAdd128 v.delegatedStake amount }) (fun _ => rfl) recipient
  unfold delegateTo
  split
  · exact hrefl
  · split
    · exact hrefl
    · split
      · exact hrefl
      · split
        · exact hrefl
        · exact hrefl
        · exact hrefl
        all_goals
          split
          · exact hrefl
          · exact sameField_finish hok rfl

theorem sameField_undelegateFrom (source : Address) (amount : ℕ) :
    SameField poolFields st.vs (undelegateFrom faults sender sentValue currentHeight st source amount).1.vs := by
  have hrefl : SameField poolFields st.vs st.vs := fun _ => rfl
  have hok : ∀ vs', st.vs.undelegate source amount = .ok vs' → SameField poolFields st.vs vs' := by
    rintro vs' hundelegate
    obtain ⟨v,-,-,rfl⟩ := undelegate_ok hundelegate
    exact sameField_modify (f := fun v => { v with delegatedStake := v.delegatedStake - amount })
      (fun _ => rfl) source
  unfold undelegateFrom
  split
  · exact hrefl
  · split
    · exact hrefl
    · split
      · exact hrefl
      · split
        · exact hrefl
        · split
          · exact hrefl
          · dsimp only
            split
            · exact hrefl
            · exact sameField_finish hok rfl

theorem claimDelegated_meets (view : ExecView) (hvalue : sentValue = 0)
    (hread : st.delta.getDelegation faults st.columns (validator,sender) = .ok stake) (hstake : stake ≠ 0)
    (hget : st.vs.get validator = some v) :
    ((claimDelegated faults sender sentValue st validator).run ExecView.answer view).1.1 =
        { st with vs := { st.vs with
          validators := st.vs.validators.insert validator (v.claimDelegatorShare stake).2 } } ∧
      (((claimDelegated faults sender sentValue st validator).run ExecView.answer view).2 = view ∨
        0 < (v.claimDelegatorShare stake).1 ∧
        ((claimDelegated faults sender sentValue st validator).run ExecView.answer view).2 =
          paidView sender (v.claimDelegatorShare stake).1 view) := by
  simp only [claimDelegated, hvalue, hread, hstake, ne_eq, not_true_eq_false, if_false,
    ValidatorSet.claimDelegatorReward, hget]
  by_cases hshare : (v.claimDelegatorShare stake).1 = 0
  · simp only [hshare, if_true]
    exact ⟨rfl,Or.inl rfl⟩
  · simp only [hshare, if_false, Nat.pos_of_ne_zero hshare, if_true]
    generalize hpaid : ({ st with vs := { st.vs with
      validators := st.vs.validators.insert validator (v.claimDelegatorShare stake).2 } } : StakingState) = paid
    rcases run_settle paid view paid stakingGasClaimDelegator sender (v.claimDelegatorShare stake).1 with
      ⟨-,hrun⟩ | ⟨-,hrun⟩
    · rw [hrun]
      exact ⟨rfl,Or.inl rfl⟩
    · rw [hrun]
      exact ⟨rfl,Or.inr ⟨trivial,rfl⟩⟩

theorem claimDelegated_misses (view : ExecView) (h : ∀ stake v, sentValue = 0 →
      st.delta.getDelegation faults st.columns (validator,sender) = .ok stake → stake ≠ 0 →
        st.vs.get validator = some v → False) :
    ((claimDelegated faults sender sentValue st validator).run ExecView.answer view).1.1 = st ∧
      ((claimDelegated faults sender sentValue st validator).run ExecView.answer view).2 = view := by
  unfold claimDelegated
  by_cases hvalue : sentValue = 0
  · rw [if_neg (not_not.mpr hvalue)]
    cases hread : st.delta.getDelegation faults st.columns (validator,sender) with
    | error e => exact ⟨rfl,rfl⟩
    | ok stake =>
      dsimp only
      by_cases hstake : stake = 0
      · rw [if_pos hstake]
        exact ⟨rfl,rfl⟩
      · cases hget : st.vs.get validator with
        | some v => exact (h stake v hvalue hread hstake hget).elim
        | none =>
          simp only [hstake, if_false, ValidatorSet.claimDelegatorReward, hget]
          exact ⟨rfl,rfl⟩
  · rw [if_pos hvalue]
    exact ⟨rfl,rfl⟩

theorem claimDelegatorShare_part (hpool : v.delegatorRewardPool ≠ 0) (hpositive : 0 < stake)
    (hstake : stake ≤ v.poolDenominator) (hroom : v.delegatorRewardPool * stake ≤ maxU128) :
    (v.claimDelegatorShare stake).1 = v.delegatorRewardPool * stake / v.poolDenominator ∧
      (v.claimDelegatorShare stake).2.delegatorRewardPool + v.delegatorRewardPool * stake / v.poolDenominator =
        v.delegatorRewardPool ∧
      (v.claimDelegatorShare stake).2.poolDenominator = v.poolDenominator - stake := by
  have hle : v.delegatorRewardPool * stake / v.poolDenominator ≤ v.delegatorRewardPool :=
    Nat.div_le_of_le_mul (by
      rw [Nat.mul_comm]
      exact Nat.mul_le_mul_right _ hstake)
  simp only [Validator.claimDelegatorShare, if_neg hpool, if_pos (hpositive.trans_le hstake), checkedMul128,
    if_pos hroom, min_eq_left hle]
  exact ⟨trivial,Nat.sub_add_cancel hle,trivial⟩

end Calls

section Steps
variable {P : Platform} {validator : Address} {s : RewardState} {ev : DelegatorEvent}

theorem left_same {st st' : StakingState} (h : st'.vs.get validator = st.vs.get validator) :
    st'.poolLeft validator = st.poolLeft validator ∧
      st'.denominatorLeft validator = st.denominatorLeft validator := by
  simp only [StakingState.poolLeft, StakingState.denominatorLeft, h]
  exact ⟨trivial,trivial⟩

theorem claim_misses {faults : LedgerFaults} {sender : Address} {sentValue : ℕ} {height : UInt64}
    (h : claimedWith validator s.1
      (.transaction faults (.claimDelegatorRewards validator) sender sentValue height) = 0) :
    let r := (claimDelegated faults sender sentValue s.1 validator).run ExecView.answer s.2
    (r.1.1.poolLeft validator = s.1.poolLeft validator ∧
      r.1.1.denominatorLeft validator = s.1.denominatorLeft validator) ∧ r.2 = s.2 := by
  by_cases hmeets : ∃ stake v, sentValue = 0 ∧
    s.1.delta.getDelegation faults s.1.columns (validator,sender) = .ok stake ∧ stake ≠ 0 ∧
      s.1.vs.get validator = some v
  · obtain ⟨stake,v,hvalue,hread,hstake,hget⟩ := hmeets
    have hempty : v.delegatorRewardPool = 0 := by
      by_contra hpool
      simp [claimedWith, hvalue, hread, StakingState.poolLeft, hget, hpool] at h
      exact hstake h
    have hnothing : v.claimDelegatorShare stake = (0,v) := by simp [Validator.claimDelegatorShare, hempty]
    obtain ⟨hstate,hview⟩ := claimDelegated_meets s.2 hvalue hread hstake hget
    rw [hnothing] at hstate hview
    refine ⟨?_,?_⟩
    · rw [hstate]
      refine left_same ?_
      rw [hget]
      exact AList.lookup_insert _
    · rcases hview with hview | ⟨hpositive,-⟩
      · exact hview
      · exact absurd hpositive (Nat.lt_irrefl 0)
  · obtain ⟨hstate,hview⟩ := claimDelegated_misses s.2
      (fun stake v hvalue hread hstake hget => hmeets ⟨stake,v,hvalue,hread,hstake,hget⟩)
    exact ⟨by rw [hstate]; exact ⟨rfl,rfl⟩,hview⟩

theorem claim_other {faults : LedgerFaults} {w sender : Address} {sentValue : ℕ} {view : ExecView}
    {st : StakingState} (hw : w ≠ validator) :
    ((claimDelegated faults sender sentValue st w).run ExecView.answer view).1.1.vs.get validator =
      st.vs.get validator := by
  by_cases hmeets : ∃ stake v, sentValue = 0 ∧
    st.delta.getDelegation faults st.columns (w,sender) = .ok stake ∧ stake ≠ 0 ∧ st.vs.get w = some v
  · obtain ⟨stake,v,hvalue,hread,hstake,hget⟩ := hmeets
    rw [(claimDelegated_meets view hvalue hread hstake hget).1]
    exact AList.lookup_insert_ne (Ne.symm hw)
  · rw [(claimDelegated_misses view
      (fun stake v hvalue hread hstake hget => hmeets ⟨stake,v,hvalue,hread,hstake,hget⟩)).1]

theorem rewardStep_misses (h : claimedWith validator s.1 ev = 0) :
    ((rewardStep P s ev).1.1.poolLeft validator = s.1.poolLeft validator ∧
      (rewardStep P s ev).1.1.denominatorLeft validator = s.1.denominatorLeft validator) ∧
    ∀ a, ev.claimant validator = some a → (rewardStep P s ev).2 = 0 := by
  cases ev with
  | commit => exact ⟨⟨rfl,rfl⟩,nofun⟩
  | transaction faults call sender sentValue height =>
    cases call with
    | delegate w amount =>
      exact ⟨left_of_sameField (sameField_delegateTo w amount) validator rfl rfl,nofun⟩
    | undelegate w amount =>
      exact ⟨left_of_sameField (sameField_undelegateFrom w amount) validator rfl rfl,nofun⟩
    | claimDelegatorRewards w =>
      by_cases hw : w = validator
      · subst hw
        obtain ⟨hleft,hview⟩ := claim_misses h
        refine ⟨hleft,fun a _ => ?_⟩
        change (ExecView.getAccount _ sender).balanceU128 - (s.2.getAccount sender).balanceU128 = 0
        simp only [DelegatorCall.tx, dispatchStakingTx]
        rw [hview, Nat.sub_self]
      · refine ⟨left_same (claim_other hw),fun a ha => ?_⟩
        simp [DelegatorEvent.claimant, hw] at ha

theorem rewardStep_meets (h : claimedWith validator s.1 ev ≠ 0) :
    ∃ a v, ev.claimant validator = some a ∧ s.1.vs.get validator = some v ∧ v.delegatorRewardPool ≠ 0 ∧
      (rewardStep P s ev).1.1.vs.get validator =
        some (v.claimDelegatorShare (claimedWith validator s.1 ev)).2 ∧
      (rewardStep P s ev).2 ≤ (v.claimDelegatorShare (claimedWith validator s.1 ev)).1 := by
  cases ev with
  | commit => exact absurd rfl h
  | transaction faults call sender sentValue height =>
    cases call with
    | delegate w amount => exact absurd rfl h
    | undelegate w amount => exact absurd rfl h
    | claimDelegatorRewards w =>
      simp only [claimedWith] at h ⊢
      split at h
      · rename_i hguard
        obtain ⟨rfl,hvalue,hpool⟩ := hguard
        rw [if_pos ⟨rfl,hvalue,hpool⟩]
        cases hget : s.1.vs.get w with
        | none => simp [StakingState.poolLeft, hget] at hpool
        | some v =>
          cases hread : s.1.delta.getDelegation faults s.1.columns (w,sender) with
          | error e => simp [hread, Except.toOption] at h
          | ok stake =>
            have hstake : stake ≠ 0 := by simpa [hread, Except.toOption] using h
            obtain ⟨hstate,hview⟩ := claimDelegated_meets s.2 hvalue hread hstake hget
            refine ⟨sender,v,by simp [DelegatorEvent.claimant],rfl,?_,?_,?_⟩
            · simpa [StakingState.poolLeft, hget] using hpool
            · simp only [rewardStep, DelegatorCall.tx, dispatchStakingTx]
              rw [hstate]
              exact AList.lookup_insert _
            · simp only [rewardStep, DelegatorCall.tx, dispatchStakingTx]
              rcases hview with hview | ⟨-,hview⟩
              · rw [hview, Nat.sub_self]
                exact Nat.zero_le _
              · rw [hview]
                exact gain_paidView _ _ _
      · exact absurd rfl h

end Steps

section Runs
variable {P : Platform} {validator : Address} {holders : Finset Address} {due : Address → ℕ}
  {pool whole : ℕ} {past : List RewardEntry} {s : RewardState} {ev : DelegatorEvent}

def payoutOf (validator : Address) (due : Address → ℕ) (past : List RewardEntry) (s : RewardState) :
    Payout Address :=
  ⟨s.1.poolLeft validator,s.1.denominatorLeft validator,fun a => due a - claimedBy validator a past,
    fun a => receivedBy validator a past,claimCount validator past⟩

theorem claimedWith_unclaimed (h : ev.claimant validator = none) : claimedWith validator s.1 ev = 0 := by
  cases ev with
  | commit => rfl
  | transaction faults call sender sentValue height =>
    cases call with
    | delegate w amount => rfl
    | undelegate w amount => rfl
    | claimDelegatorRewards w =>
      have hw : w ≠ validator := by simpa [DelegatorEvent.claimant] using h
      simp [claimedWith, hw]

theorem payoutOf_misses (h : claimedWith validator s.1 ev = 0) :
    payoutOf validator due (past ++ [⟨s,ev,(rewardStep P s ev).2⟩]) (rewardStep P s ev).1 =
      payoutOf validator due past s := by
  obtain ⟨⟨hpool,hdenominator⟩,hpaid⟩ := rewardStep_misses (P := P) h
  have hreceived : ∀ a, (if ev.claimant validator = some a then (rewardStep P s ev).2 else 0) = 0 := by
    intro a
    split
    · rename_i ha
      exact hpaid a ha
    · rfl
  simp [payoutOf, hpool, hdenominator, claimedBy, receivedBy, claimCount, h, hreceived]

/-- A claim that meets what it has to is a claim of the payout. -/
theorem pays_payoutOf (hfair : (payoutOf validator due past s).Fair holders due pool whole)
    (hmeets : claimedWith validator s.1 ev ≠ 0) {k : ℕ} (hpart : ClaimsItsPart validator due k past s ev) :
    ∃ a, Payout.Pays a (claimedWith validator s.1 ev) (payoutOf validator due past s)
      (payoutOf validator due (past ++ [⟨s,ev,(rewardStep P s ev).2⟩]) (rewardStep P s ev).1) := by
  obtain ⟨a,v,ha,hget,hpool,hafter,hpaid⟩ := rewardStep_meets (P := P) hmeets
  obtain ⟨hdue,-,hroom⟩ := hpart a ha hmeets
  generalize hstake : claimedWith validator s.1 ev = stake at *
  have hpoolLeft : s.1.poolLeft validator = v.delegatorRewardPool := by
    simp [StakingState.poolLeft, hget]
  have hdenominatorLeft : s.1.denominatorLeft validator = v.poolDenominator := by
    simp [StakingState.denominatorLeft, hget]
  have hcovered : stake ≤ (payoutOf validator due past s).rest a := Nat.le_sub_of_add_le' hdue
  have hstakeLe : stake ≤ v.poolDenominator := by
    rw [← hdenominatorLeft]
    exact hcovered.trans (hfair.rest_le_denominator a)
  have hpositive : 0 < stake := Nat.pos_of_ne_zero hmeets
  rw [hpoolLeft] at hroom
  obtain ⟨hshare,hleft,hdecay⟩ := claimDelegatorShare_part hpool hpositive hstakeLe hroom
  have hpoolAfter : (rewardStep P s ev).1.1.poolLeft validator =
      (v.claimDelegatorShare stake).2.delegatorRewardPool := by simp [StakingState.poolLeft, hafter]
  have hdenominatorAfter : (rewardStep P s ev).1.1.denominatorLeft validator =
      (v.claimDelegatorShare stake).2.poolDenominator := by simp [StakingState.denominatorLeft, hafter]
  refine ⟨a,hpositive,hcovered,?_,?_,?_,?_,?_,?_⟩
  · simpa [payoutOf, hpoolLeft, hdenominatorLeft, hpoolAfter] using hleft
  · simpa [payoutOf, hdenominatorLeft, hdenominatorAfter] using hdecay
  · funext b
    by_cases hb : b = a
    · subst hb
      simp [payoutOf, claimedBy, ha, hstake, Nat.sub_sub]
    · have hother : ¬ ev.claimant validator = some b := by
        rw [ha, Option.some.injEq]
        exact fun heq => hb heq.symm
      simp [payoutOf, claimedBy, hother, Function.update_of_ne hb]
  · rw [hshare] at hpaid
    simpa [payoutOf, receivedBy, ha, hpoolLeft, hdenominatorLeft] using hpaid
  · intro b hb
    have hother : ¬ ev.claimant validator = some b := by
      rw [ha, Option.some.injEq]
      exact fun heq => hb heq.symm
    simp [payoutOf, receivedBy, hother]
  · simp [payoutOf, claimCount, hstake, hmeets]

/-- What a run keeps: the payout is fair, and there are no more claims than delegators. -/
def SharesSoFar (validator : Address) (holders : Finset Address) (due : Address → ℕ) (pool whole : ℕ)
    (past : List RewardEntry) (s : RewardState) : Prop :=
  (payoutOf validator due past s).Fair holders due pool whole ∧ claimCount validator past ≤ holders.card

theorem sharesSoFar_step (h : SharesSoFar validator holders due pool whole past s)
    (hpart : ClaimsItsPart validator due holders.card past s ev) :
    SharesSoFar validator holders due pool whole (past ++ [⟨s,ev,(rewardStep P s ev).2⟩])
      (rewardStep P s ev).1 := by
  by_cases hmisses : claimedWith validator s.1 ev = 0
  · refine ⟨?_,?_⟩
    · rw [payoutOf_misses hmisses]
      exact h.1
    · simpa [claimCount, hmisses] using h.2
  · obtain ⟨a,hpays⟩ := pays_payoutOf (P := P) h.1 hmisses hpart
    refine ⟨h.1.pays hpays,?_⟩
    obtain ⟨b,hb⟩ : ∃ b, ev.claimant validator = some b := by
      cases hclaimant : ev.claimant validator with
      | none => exact absurd (claimedWith_unclaimed hclaimant) hmisses
      | some b => exact ⟨b,rfl⟩
    have hcount := (hpart b hb hmisses).2.1
    have hone : claimCount validator (past ++ [⟨s,ev,(rewardStep P s ev).2⟩]) = claimCount validator past + 1 := by
      simp [claimCount, hmisses]
    omega

/-- Each account has received at most its part of the pool by its delegation at the
distribution, rounded up, and a wei for each delegator; without a delegation it has received
nothing. -/
def SharedByStake (st st' : StakingState) (validator : Address) (holders : Finset Address) (pool : ℕ)
    (past : List RewardEntry) : Prop :=
  ∀ a, receivedBy validator a past ≤
      (pool * st.row (validator,a) + st'.denominatorLeft validator - 1) / st'.denominatorLeft validator +
        holders.card ∧
    (st.row (validator,a) = 0 → receivedBy validator a past = 0)

/-- A pool is shared by the stakes at its distribution, if every claim that meets it keeps
within its sender's part of these, as often as there are delegators, and without an overflow. -/
theorem shared_by_stake (P : Platform) {st st' : StakingState} {validator : Address}
    {holders : Finset Address} {pool : ℕ} (hdistributes : Distributes st st' validator holders pool)
    (view : ExecView) (events : List DelegatorEvent)
    (hparts : ∀ past e rest, Machine.history (rewardStep P) (st',view) events = past ++ e :: rest →
      ClaimsItsPart validator (fun a => st.row (validator,a)) holders.card past e.before e.call) :
    SharedByStake st st' validator holders pool (Machine.history (rewardStep P) (st',view) events) := by
  have houtside : ∀ b, b ∉ holders → st.row (validator,b) = 0 := fun b hb =>
    not_not.mp (mt (hdistributes.mem_holders b).mpr hb)
  have hstart : SharesSoFar validator holders (fun b => st.row (validator,b)) pool
      (st'.denominatorLeft validator) [] (st',view) := by
    have hfair : Payout.Fair holders (fun b => st.row (validator,b)) pool _ _ := Payout.fair_start houtside
    refine ⟨?_,Nat.zero_le _⟩
    rw [hdistributes.sum_holders] at hfair
    simpa [payoutOf, claimedBy, receivedBy, claimCount, hdistributes.filled] using hfair
  obtain ⟨hfair,hcount⟩ := Machine.past_invariant (rewardStep P) hstart
    (fun past s ev h hpart => sharesSoFar_step h hpart) events hparts
  intro a
  refine ⟨?_,hfair.got_zero a⟩
  rcases Nat.eq_zero_or_pos (st'.denominatorLeft validator) with hnone | hwhole
  · -- without delegations nothing can be received
    have hrow : st.row (validator,a) = 0 := by
      by_contra hrow
      have hle := Finset.single_le_sum (f := fun b => st.row (validator,b)) (fun _ _ => Nat.zero_le _)
        ((hdistributes.mem_holders a).mpr hrow)
      rw [hdistributes.sum_holders, hnone] at hle
      exact hrow (Nat.le_zero.mp hle)
    exact (hfair.got_zero a hrow).le.trans (Nat.zero_le _)
  · exact (hfair.got_bound hwhole a).trans (Nat.add_le_add_left hcount _)

end Runs

section TwoDelegators

/-- Validator 7 with the least stake of its own, 30,000 ZBX of account 8 and 10,000 of
account 9. -/
def twoDelegators : StakingState :=
  { vs := ⟨(∅ : Table Address Validator).insert 7
      ⟨7,0,minSelfStake,40000 * 10 ^ 18,0,.active,0,0,0,0,0⟩,[7],0⟩
    delta := .new
    columns := ⟨((∅ : Table DelegationKey ℕ).insert (7,8) (30000 * 10 ^ 18)).insert (7,9) (10000 * 10 ^ 18),∅⟩
    governance := ⟨none,none⟩ }

/-- The rewards of 100 blocks after 17 halvings. -/
def twoRewarded : StakingState :=
  { twoDelegators with vs := twoDelegators.vs.distributeBlockReward 1072224100 7 0 }

def escrowView : ExecView :=
  ExecView.new.seedAccount stakingPrecompileAddr { AccountState.fresh with balance := 2 ^ 100 }

def claimOf (a : Address) : DelegatorEvent := .transaction .none (.claimDelegatorRewards 7) a 0 0

theorem distributes_two : Distributes twoDelegators twoRewarded 7 {8,9} 392368861607143 where
  empty := by decide
  distributed := ⟨_,_,_,rfl⟩
  filled := by decide +kernel
  mem_holders := by
    intro a
    rw [row_eq]
    by_cases h9 : a = 9
    · subst h9
      decide
    · by_cases h8 : a = 8
      · subst h8
        decide
      · have hne : ∀ {b : Address}, a ≠ b → ((7 : Address),a) ≠ (7,b) := fun hb heq =>
          hb (Prod.mk.inj heq).2
        have hnone : twoDelegators.columns.delegations.lookup (7,a) = none := by
          rw [twoDelegators, AList.lookup_insert_ne (hne h9), AList.lookup_insert_ne (hne h8)]
          rfl
        have hdelta : twoDelegators.delta.delegations.lookup (7,a) = none := rfl
        rw [StakingColumns.getDelegation, hdelta, hnone, Finset.mem_insert, Finset.mem_singleton]
        exact iff_of_false (not_or.mpr ⟨h8,h9⟩) (fun hzero => hzero rfl)
  sum_holders := by decide +kernel

/-- Account 8 claims twice, and gets the part of account 9 too. -/
theorem claimed_twice : ¬ ∀ (P : Platform) (st st' : StakingState) (validator : Address)
    (holders : Finset Address) (pool : ℕ), Distributes st st' validator holders pool →
      ∀ (view : ExecView) (events : List DelegatorEvent),
        SharedByStake st st' validator holders pool (Machine.history (rewardStep P) (st',view) events) := by
  intro h
  have hshared := (h .integers _ _ _ _ _ distributes_two escrowView [claimOf 8,claimOf 8] 8).1
  revert hshared
  decide +kernel

theorem claimsItsPart_claimOf {due : Address → ℕ} {k : ℕ} {past : List RewardEntry} {s : RewardState}
    {b : Address} (h : claimedBy 7 b past + claimedWith 7 s.1 (claimOf b) ≤ due b ∧ claimCount 7 past < k ∧
      s.1.poolLeft 7 * claimedWith 7 s.1 (claimOf b) ≤ maxU128) :
    ClaimsItsPart 7 due k past s (claimOf b) := by
  intro a ha _
  have hsame : b = a := by simpa [claimOf, DelegatorEvent.claimant] using ha
  exact hsame ▸ h

/-- Each delegator claims once. -/
theorem shared_by_stake_two : SharedByStake twoDelegators twoRewarded 7 {8,9} 392368861607143
    (Machine.history (rewardStep .integers) (twoRewarded,escrowView) [claimOf 8,claimOf 9]) := by
  refine shared_by_stake .integers distributes_two escrowView _ (fun past e rest hsplit => ?_)
  rcases past with _ | ⟨first,_ | ⟨second,past⟩⟩
  · obtain ⟨rfl,-⟩ := List.cons.inj hsplit
    exact claimsItsPart_claimOf (by decide +kernel)
  · obtain ⟨rfl,hrest⟩ := List.cons.inj hsplit
    obtain ⟨rfl,-⟩ := List.cons.inj hrest
    exact claimsItsPart_claimOf (by decide +kernel)
  · have hlen := congrArg List.length hsplit
    simp at hlen

end TwoDelegators

end ZbxChain.Staking
