import ZbxChain.Staking.Tombstones

/-! # Refused staking calls, and what they leave behind

Most checks of the dispatcher stand before its first write. Four do not: a delegation is
written before a tombstone is seen, the rewards of a validator and of a delegator are taken off
the books before the escrow is looked at, and an appeal is open before it is on disk.
-/
namespace ZbxChain.Staking
open StateProgram

structure Untouched (books books' : StakingBooks) (view view' : ExecView) : Prop where
  validators : ∀ a, books'.state.vs.get a = books.state.vs.get a
  activeSet : books'.state.vs.activeSet = books.state.vs.activeSet
  currentEpoch : books'.state.vs.currentEpoch = books.state.vs.currentEpoch
  delegations : ∀ key, books'.state.delta.delegations.lookup key = books.state.delta.delegations.lookup key
  unbondingPuts : ∀ key,
    books'.state.delta.unbondingPuts.lookup key = books.state.delta.unbondingPuts.lookup key
  unbondingDeletes : books'.state.delta.unbondingDeletes = books.state.delta.unbondingDeletes
  balances : ∀ a, view'.wei a = view.wei a
  records : ∀ id, books'.registry.getRecord id = books.registry.getRecord id
  epochSlashCount : books'.registry.epochSlashCount = books.registry.epochSlashCount
  totalValidators : books'.registry.totalValidators = books.registry.totalValidators
  proposals : books'.state.governance.proposals = books.state.governance.proposals

/-- Only the counter of the proposals may be another. -/
structure UpToCounter (st st' : StakingState) : Prop where
  validators : ∀ a, st'.vs.get a = st.vs.get a
  activeSet : st'.vs.activeSet = st.vs.activeSet
  currentEpoch : st'.vs.currentEpoch = st.vs.currentEpoch
  delta : st'.delta = st.delta
  proposals : st'.governance.proposals = st.governance.proposals

theorem UpToCounter.refl (st : StakingState) : UpToCounter st st := ⟨fun _ => rfl,rfl,rfl,rfl,rfl⟩

theorem UpToCounter.untouched {books : StakingBooks} {state : StakingState} (h : UpToCounter books.state state)
    (view : ExecView) : Untouched books { books with state := state } view view := by
  constructor
  all_goals simp only [h.validators, h.activeSet, h.currentEpoch, h.delta, h.proposals, implies_true]

section Calls
variable (P : Platform) (faults : LedgerFaults) (fault : ℕ → Option String) (sender : Address)
  (sentValue : ℕ) (currentHeight : UInt64) (books : StakingBooks) (view : ExecView)

/-- The calls that are refused when the books have been written to. -/
def FailsLate : StakingTx → Prop
  | .delegate validator amount =>
    sentValue = amount ∧ 0 < amount ∧
      (books.state.vs.get validator).map Validator.status = some .tombstoned ∧
      (books.state.delta.getDelegation faults books.state.columns (validator,sender)).toOption.isSome ∧
      books.state.delta.delegations.lookup (validator,sender) ≠ some maxU128
  | .claimRewards validator =>
    sentValue = 0 ∧ sender = validator ∧
      ∃ v, books.state.vs.get validator = some v ∧ escrowOf view < v.pendingRewards
  | .claimDelegatorRewards validator =>
    sentValue = 0 ∧ ∃ stake v,
      books.state.delta.getDelegation faults books.state.columns (validator,sender) = .ok stake ∧
      books.state.vs.get validator = some v ∧ 0 < stake ∧ 0 < v.delegatorRewardPool ∧
      ((v.claimDelegatorShare stake).1 = 0 ∨ escrowOf view < (v.claimDelegatorShare stake).1)
  | .fileAppeal evidenceId =>
    sentValue = appealBondWei ∧
      (∃ record, books.registry.getRecord evidenceId = some record ∧ record.offender = sender ∧
        record.status = .pending ∧ currentHeight ≤ record.appealDeadline) ∧
      ((fault books.operations).isSome ∨ (fault (books.operations + 1)).isSome)
  | _ => False

def LeavesNoTrace (books : StakingBooks) (view : ExecView)
    (p : StateProgram (StakingBooks × Except StakingError UInt64)) : Prop :=
  ∀ e, (p.run ExecView.answer view).1.2 = .error e →
    Untouched books (p.run ExecView.answer view).1.1 view (p.run ExecView.answer view).2

end Calls

section Payments
variable {st paid : StakingState} {gas : UInt64} {recipient : Address} {amount : ℕ} {view : ExecView}

theorem run_settle_of_lt (h : escrowOf view < amount) :
    (settle st paid gas recipient amount).run ExecView.answer view =
      (st.refuse (.escrowUnderflow (escrowOf view) amount),view) := by
  rcases run_settle st view paid gas recipient amount with ⟨-,hrun⟩ | ⟨hpays,-⟩
  · exact hrun
  · exact absurd h (not_lt.mpr hpays)

theorem answer_settle_of_le (h : amount ≤ escrowOf view) :
    ((settle st paid gas recipient amount).run ExecView.answer view).1 = (paid,.ok gas) := by
  rcases run_settle st view paid gas recipient amount with ⟨hlow,-⟩ | ⟨-,hrun⟩
  · exact absurd hlow (not_lt.mpr h)
  · rw [hrun]

end Payments

section Dispatched
variable {P : Platform} {faults : LedgerFaults} {fault : ℕ → Option String} {sender : Address}
  {sentValue : ℕ} {currentHeight : UInt64} {st : StakingState} {view : ExecView} {e : StakingError}

/-- A program that, where it is refused, has done nothing but count a proposal. -/
def Clean (st : StakingState) (view : ExecView) (p : StateProgram Dispatched) : Prop :=
  ∀ e, (p.run ExecView.answer view).1.2 = .error e →
    UpToCounter st (p.run ExecView.answer view).1.1 ∧ (p.run ExecView.answer view).2 = view

namespace Clean

theorem refuse (e : StakingError) : Clean st view (pure (st.refuse e)) := fun _ _ => ⟨.refl st,rfl⟩

theorem accept {st' : StakingState} {gas : UInt64} : Clean st view (pure (st',.ok gas)) := by
  intro e h
  cases h

theorem finish {st' : StakingState} {gas : UInt64} {r : Except StakingError ValidatorSet} (h : st' = st) :
    Clean st view (pure (st'.finish gas r)) := by
  subst h
  cases r with
  | error e => exact refuse e
  | ok vs => exact accept

theorem ite {c : Prop} [Decidable c] {p q : StateProgram Dispatched} (hp : Clean st view p)
    (hq : Clean st view q) : Clean st view (if c then p else q) := by
  split
  · exact hp
  · exact hq

theorem settle {paid : StakingState} {gas : UInt64} {recipient : Address} {amount : ℕ} :
    Clean st view (settle st paid gas recipient amount) := by
  intro e h
  rcases lt_or_ge (escrowOf view) amount with hlow | hpays
  · rw [run_settle_of_lt hlow]
    exact ⟨.refl st,rfl⟩
  · rw [answer_settle_of_le hpays] at h
    cases h

theorem storeProposals {st' : StakingState} (h : UpToCounter st st') {gas : UInt64} {preg : ProposalRegistry} :
    Clean st view (storeProposals faults st' gas preg) := by
  unfold Staking.storeProposals
  cases faults.putProposals with
  | some e => exact fun _ _ => ⟨h,rfl⟩
  | none =>
    intro e hrun
    cases hrun

end Clean

theorem clean_registerValidator (blsPubkey : BlsPubKey) (blsPop : BlsSignature) (selfStake : ℕ)
    (commissionBps : UInt16) : Clean st view (pure (registerValidator P sender sentValue st blsPubkey blsPop
      selfStake commissionBps)) := by
  unfold registerValidator
  split
  · exact .refuse _
  · split
    · exact .refuse _
    · split
      · exact .refuse _
      · exact .finish rfl

theorem clean_undelegateFrom (validator : Address) (amount : ℕ) :
    Clean st view (pure (undelegateFrom faults sender sentValue currentHeight st validator amount)) := by
  unfold undelegateFrom
  split
  · exact .refuse _
  · cases hget : st.vs.get validator with
    | none => exact .refuse _
    | some v =>
      dsimp only
      split
      · exact .refuse _
      · rename_i hcovered
        cases st.delta.getDelegation faults st.columns (validator,sender) with
        | error e => exact .refuse _
        | ok prior =>
          dsimp only
          split
          · exact .refuse _
          · cases st.delta.getUnbondingEntry faults st.columns
              (saturatingAdd64 currentHeight unbondingPeriodBlocks,sender,validator) with
            | error e => exact .refuse _
            | ok existing =>
              -- the aggregate has been looked at, and the change of the validators is accepted
              have hvs : ∃ vs, st.vs.undelegate validator amount = .ok vs := by
                rw [ValidatorSet.undelegate, hget]
                exact ⟨_,if_neg hcovered⟩
              obtain ⟨vs,hvs⟩ := hvs
              simp only [StakingState.finish, hvs]
              exact .accept

theorem clean_withdrawFrom (validator : Address) :
    Clean st view (withdrawFrom P faults sender sentValue currentHeight st validator) := by
  unfold withdrawFrom
  split
  · exact .refuse _
  · cases st.delta.iterMaturedUnbondingsFor faults st.columns P sender currentHeight with
    | error e => exact .refuse _
    | ok matured => exact .ite (.refuse _) .settle

theorem clean_proposeUpgrade (moduleName : List UInt8) (newVersion : UInt32) (activationHeight : UInt64) :
    Clean st view (proposeUpgrade faults sender sentValue currentHeight st moduleName newVersion
      activationHeight) := by
  unfold proposeUpgrade
  split
  · exact .refuse _
  · split
    · exact .refuse _
    · cases String.fromUTF8? ⟨moduleName.toArray⟩ with
      | none => exact .refuse _
      | some modName =>
        dsimp only
        split
        · exact .refuse _
        · split
          · exact .refuse _
          · cases faults.getProposalCounter.or faults.putProposalCounter with
            | some e => exact .refuse _
            | none =>
              -- from here on the counter is the next one
              dsimp only
              split
              · exact fun _ _ => ⟨⟨fun _ => rfl,rfl,rfl,rfl,rfl⟩,rfl⟩
              · split
                · exact fun _ _ => ⟨⟨fun _ => rfl,rfl,rfl,rfl,rfl⟩,rfl⟩
                · apply Clean.storeProposals
                  exact ⟨fun _ => rfl,rfl,rfl,rfl,rfl⟩

theorem clean_castVote (proposalId : UInt64) (approve : Bool) :
    Clean st view (castVote faults sender sentValue currentHeight st proposalId approve) := by
  unfold castVote
  split
  · exact .refuse _
  · split
    · exact .refuse _
    · split
      · exact .refuse _
      · split
        · exact .refuse _
        · exact .storeProposals (.refl st)

/-- A delegation is clean, unless it is to a tombstoned validator: then it is on the books. -/
theorem delegateTo_cases (faults : LedgerFaults) (sender : Address) (sentValue : ℕ) (st : StakingState)
    (view : ExecView) (validator : Address) (amount : ℕ) :
    (Clean st view (pure (delegateTo faults sender sentValue st validator amount)) ∧
      ¬ (sentValue = amount ∧ 0 < amount ∧
        (st.vs.get validator).map Validator.status = some .tombstoned ∧
        (st.delta.getDelegation faults st.columns (validator,sender)).toOption.isSome)) ∨
    ∃ prior, sentValue = amount ∧ 0 < amount ∧
      (st.vs.get validator).map Validator.status = some .tombstoned ∧
      st.delta.getDelegation faults st.columns (validator,sender) = .ok prior ∧
      delegateTo faults sender sentValue st validator amount =
        ({ st with delta := st.delta.putDelegation (validator,sender) (saturatingAdd128 prior amount) },
          .error .jailed) := by
  unfold delegateTo
  by_cases hvalue : sentValue = amount
  · rw [if_neg (not_not.mpr hvalue)]
    by_cases hzero : amount = 0
    · rw [if_pos hzero]
      exact Or.inl ⟨.refuse _,fun h => absurd hzero h.2.1.ne'⟩
    · rw [if_neg hzero]
      rcases hget : st.vs.get validator with _ | v
      · exact Or.inl ⟨.refuse _,fun h => by simp at h⟩
      · rcases hread : st.delta.getDelegation faults st.columns (validator,sender) with e | prior
        · refine Or.inl ⟨?_,fun h => by cases h.2.2.2⟩
          cases hstatus : v.status
          all_goals
            simp only [hstatus]
            exact .refuse _
        · cases hstatus : v.status with
          | tombstoned =>
            refine Or.inr ⟨prior,hvalue,Nat.pos_of_ne_zero hzero,by rw [Option.map_some, hstatus],rfl,?_⟩
            simp only [hstatus, ValidatorSet.delegate, hget, StakingState.finish, StakingState.refuse]
          | pending | active =>
            refine Or.inl ⟨?_,fun h => by simp [hstatus] at h⟩
            simp only [hstatus, ValidatorSet.delegate, hget, StakingState.finish]
            exact .accept
          | jailed | inactive | unbonding =>
            refine Or.inl ⟨?_,fun h => by simp [hstatus] at h⟩
            simp only [hstatus]
            exact .refuse _
  · rw [if_pos hvalue]
    exact Or.inl ⟨.refuse _,fun h => hvalue h.1⟩

/-- A validator's claim is clean, unless the escrow cannot pay it: then it is off the books. -/
theorem claimOwnRewards_cases (sender : Address) (sentValue : ℕ) (st : StakingState) (view : ExecView)
    (validator : Address) :
    (Clean st view (claimOwnRewards sender sentValue st validator) ∧
      ¬ (sentValue = 0 ∧ sender = validator ∧
        ∃ v, st.vs.get validator = some v ∧ escrowOf view < v.pendingRewards)) ∨
    ∃ v e, sentValue = 0 ∧ sender = validator ∧ st.vs.get validator = some v ∧
      escrowOf view < v.pendingRewards ∧
      (claimOwnRewards sender sentValue st validator).run ExecView.answer view =
        (({ st with vs := st.vs.modify validator (fun v => { v with pendingRewards := 0 }) },.error e),
          view) := by
  unfold claimOwnRewards
  by_cases hvalue : sentValue = 0
  · rw [if_neg (not_not.mpr hvalue)]
    by_cases hsender : sender = validator
    · rw [if_neg (not_not.mpr hsender)]
      rcases hget : st.vs.get validator with _ | v
      · simp only [ValidatorSet.claimRewards, hget]
        refine Or.inl ⟨.refuse _,?_⟩
        rintro ⟨-,-,v,hv,-⟩
        cases hv
      · simp only [ValidatorSet.claimRewards, hget]
        rcases lt_or_ge (escrowOf view) v.pendingRewards with hlow | hpays
        · refine Or.inr ⟨v,.escrowUnderflow (escrowOf view) v.pendingRewards,hvalue,hsender,rfl,hlow,?_⟩
          rw [if_pos (Nat.zero_lt_of_lt hlow), run_settle_of_lt hlow]
          rfl
        · refine Or.inl ⟨?_,?_⟩
          · split
            · intro e h
              rw [answer_settle_of_le hpays] at h
              cases h
            · exact .accept
          · rintro ⟨-,-,w,hw,hlow⟩
            cases hw
            exact absurd hlow (not_lt.mpr hpays)
    · rw [if_pos hsender]
      exact Or.inl ⟨.refuse _,fun h => hsender h.2.1⟩
  · rw [if_pos hvalue]
    exact Or.inl ⟨.refuse _,fun h => hvalue h.1⟩

/-- A delegator's claim is clean, unless there is a pool and nothing, or more than the escrow
has, comes out of it: then the claim has changed the pool. -/
theorem claimDelegated_cases (faults : LedgerFaults) (sender : Address) (sentValue : ℕ) (st : StakingState)
    (view : ExecView) (validator : Address) :
    (Clean st view (claimDelegated faults sender sentValue st validator) ∧
      ¬ (sentValue = 0 ∧ ∃ stake v,
        st.delta.getDelegation faults st.columns (validator,sender) = .ok stake ∧
        st.vs.get validator = some v ∧ 0 < stake ∧ 0 < v.delegatorRewardPool ∧
        ((v.claimDelegatorShare stake).1 = 0 ∨ escrowOf view < (v.claimDelegatorShare stake).1))) ∨
    ∃ stake v e, sentValue = 0 ∧
      st.delta.getDelegation faults st.columns (validator,sender) = .ok stake ∧
      st.vs.get validator = some v ∧ 0 < stake ∧ 0 < v.delegatorRewardPool ∧
      ((v.claimDelegatorShare stake).1 = 0 ∨ escrowOf view < (v.claimDelegatorShare stake).1) ∧
      (claimDelegated faults sender sentValue st validator).run ExecView.answer view =
        (({ st with vs := { st.vs with
            validators := st.vs.validators.insert validator (v.claimDelegatorShare stake).2 } },.error e),
          view) := by
  unfold claimDelegated
  by_cases hvalue : sentValue = 0
  · rw [if_neg (not_not.mpr hvalue)]
    rcases hread : st.delta.getDelegation faults st.columns (validator,sender) with e | stake
    · refine Or.inl ⟨.refuse _,?_⟩
      rintro ⟨-,stake,-,hstake,-⟩
      cases hstake
    · by_cases hstake : stake = 0
      · simp only [if_pos hstake]
        refine Or.inl ⟨.refuse _,?_⟩
        rintro ⟨-,stake',v,hstake',-,hpositive,-⟩
        cases hstake'
        exact absurd hstake hpositive.ne'
      · have hpositive := Nat.pos_of_ne_zero hstake
        rcases hget : st.vs.get validator with _ | v
        · simp only [if_neg hstake, ValidatorSet.claimDelegatorReward, hget]
          refine Or.inl ⟨.refuse _,?_⟩
          rintro ⟨-,-,v,-,hv,-⟩
          cases hv
        · simp only [if_neg hstake, ValidatorSet.claimDelegatorReward, hget]
          by_cases hpool : v.delegatorRewardPool = 0
          · -- nothing is in the pool, and the validator is stored as it was
            refine Or.inl ⟨?_,?_⟩
            · have hshare : v.claimDelegatorShare stake = (0,v) := if_pos hpool
              simp only [hshare, if_pos]
              refine fun _ _ => ⟨⟨fun a => ?_,rfl,rfl,rfl,rfl⟩,rfl⟩
              by_cases ha : a = validator
              · subst ha
                exact (AList.lookup_insert _).trans hget.symm
              · exact AList.lookup_insert_ne ha
            · rintro ⟨-,-,w,-,hw,-,hpositive,-⟩
              cases hw
              exact absurd hpool hpositive.ne'
          · have hpoolPositive := Nat.pos_of_ne_zero hpool
            by_cases hshare : (v.claimDelegatorShare stake).1 = 0
            · refine Or.inr ⟨stake,v,.noPendingRewards sender,hvalue,rfl,rfl,hpositive,hpoolPositive,
                Or.inl hshare,?_⟩
              simp only [if_pos hshare]
              rfl
            · simp only [if_neg hshare, if_pos (Nat.pos_of_ne_zero hshare)]
              rcases lt_or_ge (escrowOf view) (v.claimDelegatorShare stake).1 with hlow | hpays
              · refine Or.inr ⟨stake,v,.escrowUnderflow (escrowOf view) (v.claimDelegatorShare stake).1,
                  hvalue,rfl,rfl,hpositive,hpoolPositive,Or.inr hlow,?_⟩
                rw [run_settle_of_lt hlow]
                rfl
              · refine Or.inl ⟨?_,?_⟩
                · intro e h
                  rw [answer_settle_of_le hpays] at h
                  cases h
                · rintro ⟨-,stake',w,hstake',hw,-,-,hzero | hlow⟩
                  · cases hstake'
                    cases hw
                    exact hshare hzero
                  · cases hstake'
                    cases hw
                    exact absurd hlow (not_lt.mpr hpays)
  · rw [if_pos hvalue]
    exact Or.inl ⟨.refuse _,fun h => hvalue h.1⟩

open Stateful SlashingPipeline in
/-- An appeal that the registry accepts is open there, whatever comes of the storage. -/
theorem dispatchFileAppealTx_cases (fault : ℕ → Option String) (evidenceId : H256) (sender : Address)
    (sentValue : ℕ) (currentHeight : UInt64) (p : SlashingPipeline) :
    (∃ e, (dispatchFileAppealTx fault evidenceId sender sentValue currentHeight).exec p = (.error e,p) ∧
      ¬ (sentValue = appealBondWei ∧ ∃ record, p.registry.getRecord evidenceId = some record ∧
        record.offender = sender ∧ record.status = .pending ∧ currentHeight ≤ record.appealDeadline)) ∨
    ∃ record answer p', sentValue = appealBondWei ∧ p.registry.getRecord evidenceId = some record ∧
      record.offender = sender ∧ record.status = .pending ∧ currentHeight ≤ record.appealDeadline ∧
      (dispatchFileAppealTx fault evidenceId sender sentValue currentHeight).exec p = (answer,p') ∧
      p'.validators = p.validators ∧
      p'.registry = p.registry.update evidenceId (fun r => { r with status := .appealed }) ∧
      ((∃ e, answer = .error e) ↔ (fault p.operations).isSome ∨ (fault (p.operations + 1)).isSome) := by
  unfold dispatchFileAppealTx
  by_cases hvalue : sentValue = appealBondWei
  · rw [if_neg (not_not.mpr hvalue)]
    simp only [exec_bind, exec_onRegistry, SlashingRegistryV2.fileAppealForTx,
      SlashingRegistryV2.fileAppeal]
    rcases hrecord : p.registry.getRecord evidenceId with _ | record
    · refine Or.inl ⟨.evidenceNotFound,rfl,?_⟩
      rintro ⟨-,record,h,-⟩
      cases h
    · dsimp only
      by_cases hsender : record.offender = sender
      · rw [if_neg (not_not.mpr hsender)]
        by_cases hstatus : record.status = .pending
        · rw [if_neg (not_not.mpr hstatus)]
          by_cases hclosed : record.appealDeadline < currentHeight
          · rw [if_pos hclosed]
            refine Or.inl ⟨_,rfl,?_⟩
            rintro ⟨-,r,hr,-,-,hopen⟩
            cases hr
            exact absurd hclosed (UInt64.not_lt.mpr hopen)
          · rw [if_neg hclosed]
            refine Or.inr ⟨record,_,_,hvalue,rfl,hsender,hstatus,UInt64.not_lt.mp hclosed,rfl,?_⟩
            generalize hopened : ({ p with
              registry := p.registry.update evidenceId (fun r => { r with status := .appealed }) } :
                SlashingPipeline) = opened
            have hoperations : opened.operations = p.operations := by rw [← hopened]
            have hkept : opened.validators = p.validators ∧ opened.registry =
                p.registry.update evidenceId (fun r => { r with status := .appealed }) := by
              rw [← hopened]
              exact ⟨rfl,rfl⟩
            rw [← hoperations]
            rcases hbond : fault opened.operations with _ | e
            · rw [exec_putBond_of_none hbond]
              dsimp only
              rcases hput : fault (opened.operations + 1) with _ | e
              · rw [exec_putRecord_of_none hput]
                exact ⟨hkept.1,hkept.2,by simp⟩
              · rw [exec_putRecord_of_some hput]
                exact ⟨hkept.1,hkept.2,by simp⟩
            · rw [exec_putBond_of_some hbond]
              exact ⟨hkept.1,hkept.2,by simp⟩
        · rw [if_pos hstatus]
          refine Or.inl ⟨_,rfl,?_⟩
          rintro ⟨-,r,hr,-,hpending,-⟩
          cases hr
          exact hstatus hpending
      · rw [if_pos hsender]
        refine Or.inl ⟨_,rfl,?_⟩
        rintro ⟨-,r,hr,hoffender,-⟩
        cases hr
        exact hsender hoffender
  · rw [if_pos hvalue]
    exact Or.inl ⟨.appealBondMismatch sentValue appealBondWei,rfl,fun h => hvalue h.1⟩

theorem run_dispatchCall {call : StakingTx} (h : call.isFileAppeal = false) (books : StakingBooks)
    (view : ExecView) :
    (dispatchCall P faults fault call sender sentValue currentHeight books).run ExecView.answer view =
      (({ books with state := ((dispatchStakingTx P faults sender sentValue currentHeight books.state
          call).run ExecView.answer view).1.1 },
        ((dispatchStakingTx P faults sender sentValue currentHeight books.state call).run
          ExecView.answer view).1.2),
        ((dispatchStakingTx P faults sender sentValue currentHeight books.state call).run
          ExecView.answer view).2) := by
  cases call with
  | fileAppeal evidenceId => cases h
  | _ => simp only [dispatchCall, Program.run_bind, Program.run_pure]

theorem Clean.leavesNoTrace {call : StakingTx} {books : StakingBooks} (happeal : call.isFileAppeal = false)
    (h : Clean books.state view (dispatchStakingTx P faults sender sentValue currentHeight books.state call)) :
    LeavesNoTrace books view (dispatchCall P faults fault call sender sentValue currentHeight books) := by
  intro e hrefused
  rw [run_dispatchCall happeal] at hrefused ⊢
  obtain ⟨hstate,hview⟩ := h e hrefused
  rw [hview]
  exact hstate.untouched view

theorem leavesNoTrace_iff_of_refused {call : StakingTx} {books : StakingBooks} {st : StakingState}
    (happeal : call.isFileAppeal = false)
    (h : (dispatchStakingTx P faults sender sentValue currentHeight books.state call).run ExecView.answer view =
      ((st,.error e),view)) :
    LeavesNoTrace books view (dispatchCall P faults fault call sender sentValue currentHeight books) ↔
      Untouched books { books with state := st } view view := by
  unfold LeavesNoTrace
  rw [run_dispatchCall happeal, h]
  exact ⟨fun hkept => hkept e rfl,fun huntouched _ _ => huntouched⟩

theorem untouched_putDelegation_iff {books : StakingBooks} {key : DelegationKey} {prior amount : ℕ}
    (hread : books.state.delta.getDelegation faults books.state.columns key = .ok prior) (hpositive : 0 < amount) :
    Untouched books { books with state := { books.state with
        delta := books.state.delta.putDelegation key (saturatingAdd128 prior amount) } } view view ↔
      books.state.delta.delegations.lookup key = some maxU128 := by
  constructor
  · intro h
    have hrow := h.delegations key
    simp only [StakingDelta.putDelegation, AList.lookup_insert] at hrow
    rw [← hrow]
    simp only [StakingDelta.getDelegation, ← hrow, Except.ok.injEq] at hread
    unfold saturatingAdd128 at hread ⊢
    congr 1
    omega
  · intro hfull
    simp only [StakingDelta.getDelegation, hfull, Except.ok.injEq] at hread
    have hsame : saturatingAdd128 prior amount = maxU128 := by
      unfold saturatingAdd128
      omega
    refine ⟨fun _ => rfl,rfl,rfl,fun k => ?_,fun _ => rfl,rfl,fun _ => rfl,fun _ => rfl,rfl,rfl,rfl⟩
    simp only [StakingDelta.putDelegation, hsame]
    by_cases hk : k = key
    · rw [hk, AList.lookup_insert, hfull]
    · rw [AList.lookup_insert_ne hk]

theorem claimDelegatorShare_ne {v : Validator} {stake : ℕ} (hstake : 0 < stake)
    (hpool : 0 < v.delegatorRewardPool) : (v.claimDelegatorShare stake).2 ≠ v := by
  intro h
  rw [Validator.claimDelegatorShare, if_neg hpool.ne'] at h
  dsimp only at h
  have hrest := congrArg Validator.delegatorRewardPool h
  have hdenominator := congrArg Validator.poolDenominator h
  dsimp only at hrest hdenominator
  -- the denominator was zero, and then the share is the pool
  have hzero : v.poolDenominator = 0 := by omega
  rw [if_neg (by omega : ¬ 0 < v.poolDenominator), min_self] at hrest
  omega

end Dispatched

section Late
variable (P : Platform) (faults : LedgerFaults) (fault : ℕ → Option String) (sender : Address) (sentValue : ℕ)
  (currentHeight : UInt64) (books : StakingBooks) (view : ExecView)

/-- A refused call leaves a trace exactly if it fails late. -/
abbrev TraceIffLate (call : StakingTx) : Prop :=
  LeavesNoTrace books view (dispatchCall P faults fault call sender sentValue currentHeight books) ↔
    ¬ FailsLate faults fault sender sentValue currentHeight books view call

theorem trace_delegate (validator : Address) (amount : ℕ) :
    TraceIffLate P faults fault sender sentValue currentHeight books view (.delegate validator amount) := by
  rcases delegateTo_cases faults sender sentValue books.state view validator amount with
    ⟨hclean,hearly⟩ | ⟨prior,hvalue,hpositive,htomb,hread,hrun⟩
  · exact iff_of_true (hclean.leavesNoTrace rfl) fun ⟨hvalue,hpositive,htomb,hread,_⟩ =>
      hearly ⟨hvalue,hpositive,htomb,hread⟩
  · have hrefused : (dispatchStakingTx P faults sender sentValue currentHeight books.state
        (.delegate validator amount)).run ExecView.answer view =
        (({ books.state with
            delta := books.state.delta.putDelegation (validator,sender) (saturatingAdd128 prior amount) },
          .error .jailed),view) := by
      rw [← hrun]
      rfl
    unfold TraceIffLate
    rw [leavesNoTrace_iff_of_refused rfl hrefused, untouched_putDelegation_iff hread hpositive]
    constructor
    · rintro hfull ⟨-,-,-,-,hne⟩
      exact hne hfull
    · intro hearly
      by_contra hne
      exact hearly ⟨hvalue,hpositive,htomb,by rw [hread]; rfl,hne⟩

theorem trace_claimRewards (validator : Address) :
    TraceIffLate P faults fault sender sentValue currentHeight books view (.claimRewards validator) := by
  rcases claimOwnRewards_cases sender sentValue books.state view validator with
    ⟨hclean,hearly⟩ | ⟨v,e,hvalue,hsender,hget,hlow,hrefused⟩
  · exact iff_of_true (hclean.leavesNoTrace rfl) hearly
  · have hdispatched : (dispatchStakingTx P faults sender sentValue currentHeight books.state
        (.claimRewards validator)).run ExecView.answer view = _ := hrefused
    unfold TraceIffLate
    rw [leavesNoTrace_iff_of_refused rfl hdispatched]
    refine iff_of_false (fun h => ?_) (not_not.mpr ⟨hvalue,hsender,v,hget,hlow⟩)
    have hvalidator := h.validators validator
    rw [get_modify, if_pos rfl, hget, Option.map_some, Option.some.injEq] at hvalidator
    have hzero := congrArg Validator.pendingRewards hvalidator
    dsimp only at hzero
    omega

theorem trace_claimDelegatorRewards (validator : Address) :
    TraceIffLate P faults fault sender sentValue currentHeight books view (.claimDelegatorRewards validator) := by
  rcases claimDelegated_cases faults sender sentValue books.state view validator with
    ⟨hclean,hearly⟩ | ⟨stake,v,e,hvalue,hread,hget,hstake,hpool,hshare,hrefused⟩
  · exact iff_of_true (hclean.leavesNoTrace rfl) hearly
  · have hdispatched : (dispatchStakingTx P faults sender sentValue currentHeight books.state
        (.claimDelegatorRewards validator)).run ExecView.answer view = _ := hrefused
    unfold TraceIffLate
    rw [leavesNoTrace_iff_of_refused rfl hdispatched]
    refine iff_of_false (fun h => ?_) (not_not.mpr ⟨hvalue,stake,v,hread,hget,hstake,hpool,hshare⟩)
    have hvalidator := h.validators validator
    rw [hget] at hvalidator
    exact claimDelegatorShare_ne hstake hpool
      (Option.some.inj ((AList.lookup_insert _).symm.trans hvalidator))

theorem trace_fileAppeal (evidenceId : H256) :
    TraceIffLate P faults fault sender sentValue currentHeight books view (.fileAppeal evidenceId) := by
  have hrun : (dispatchCall P faults fault (.fileAppeal evidenceId) sender sentValue currentHeight books).run
      ExecView.answer view = (((books.onPipeline (SlashingPipeline.dispatchFileAppealTx fault evidenceId
        sender sentValue currentHeight)).2,(books.onPipeline (SlashingPipeline.dispatchFileAppealTx fault
        evidenceId sender sentValue currentHeight)).1),view) := rfl
  unfold TraceIffLate LeavesNoTrace
  rw [hrun]
  unfold StakingBooks.onPipeline
  rcases dispatchFileAppealTx_cases fault evidenceId sender sentValue currentHeight books.pipeline with
    ⟨e,hexec,hearly⟩ | ⟨record,answer,p,hvalue,hrecord,hsender,hstatus,hopen,hexec,hvs,hregistry,hrefused⟩
  · rw [hexec]
    exact iff_of_true (fun _ _ => UpToCounter.untouched (.refl books.state) view)
      fun ⟨hvalue,hrecord,_⟩ => hearly ⟨hvalue,hrecord⟩
  · rw [hexec]
    have hthere : books.registry.getRecord evidenceId = some record := hrecord
    have hflipped : (books.withPipeline p).registry.getRecord evidenceId =
        some { record with status := .appealed } := by
      have hmodified : p.registry.getRecord evidenceId =
          (books.registry.getRecord evidenceId).map (fun r => { r with status := .appealed }) := by
        rw [hregistry]
        exact (AList.lookup_modify _ _ _ _).trans (if_pos rfl)
      exact hmodified.trans (by rw [hthere, Option.map_some])
    constructor
    · rintro hkept ⟨-,-,hfault⟩
      obtain ⟨e,he⟩ := hrefused.mpr hfault
      have hsame := ((hkept e he).records evidenceId).symm.trans hflipped
      rw [hthere, Option.some.injEq] at hsame
      have hpending := congrArg SlashEvidenceRecord.status hsame
      rw [hstatus] at hpending
      cases hpending
    · intro hearly e he
      exact absurd ⟨hvalue,⟨record,hrecord,hsender,hstatus,hopen⟩,hrefused.mp ⟨e,he⟩⟩ hearly

end Late

/-- A refused call changes nothing exactly if it is not refused too late. -/
theorem refused_call_leaves_no_trace_iff (P : Platform) (faults : LedgerFaults) (fault : ℕ → Option String)
    (call : StakingTx) (sender : Address) (sentValue : ℕ) (currentHeight : UInt64) (books : StakingBooks)
    (view : ExecView) :
    LeavesNoTrace books view (dispatchCall P faults fault call sender sentValue currentHeight books) ↔
      ¬ FailsLate faults fault sender sentValue currentHeight books view call := by
  cases call with
  | registerValidator blsPubkey blsPop selfStake commissionBps =>
    exact iff_of_true ((clean_registerValidator blsPubkey blsPop selfStake commissionBps).leavesNoTrace rfl) id
  | undelegate validator amount =>
    exact iff_of_true ((clean_undelegateFrom validator amount).leavesNoTrace rfl) id
  | withdraw validator => exact iff_of_true ((clean_withdrawFrom validator).leavesNoTrace rfl) id
  | proposeUpgrade moduleName newVersion activationHeight =>
    exact iff_of_true ((clean_proposeUpgrade moduleName newVersion activationHeight).leavesNoTrace rfl) id
  | castVote proposalId approve =>
    exact iff_of_true ((clean_castVote proposalId approve).leavesNoTrace rfl) id
  | delegate validator amount =>
    exact trace_delegate P faults fault sender sentValue currentHeight books view validator amount
  | claimRewards validator =>
    exact trace_claimRewards P faults fault sender sentValue currentHeight books view validator
  | claimDelegatorRewards validator =>
    exact trace_claimDelegatorRewards P faults fault sender sentValue currentHeight books view validator
  | fileAppeal evidenceId =>
    exact trace_fileAppeal P faults fault sender sentValue currentHeight books view evidenceId

def demoValidator (addr : Address) (status : ValidatorStatus) : Validator :=
  ⟨addr,0,minSelfStake,0,0,status,0,0,0,0,0⟩

def demoBooks (validators : List Validator) : StakingBooks :=
  ⟨⟨{ ValidatorSet.new with
      validators := (∅ : Table Address Validator).insertAll (validators.map fun v => ⟨v.address,v⟩) },
    .new,⟨∅,∅⟩,⟨none,none⟩⟩,⟨∅,∅,∅⟩,.new 0,0⟩

/-- A delegation to a tombstoned validator is refused, and stays on the books. -/
theorem refused_delegation_is_on_the_books : ¬ ∀ (P : Platform) (faults : LedgerFaults)
    (fault : ℕ → Option String) (call : StakingTx) (sender : Address) (sentValue : ℕ)
    (currentHeight : UInt64) (books : StakingBooks) (view : ExecView),
    LeavesNoTrace books view (dispatchCall P faults fault call sender sentValue currentHeight books) := by
  intro h
  have huntouched := h .integers .none (fun _ => none) (.delegate 7 5) 9 5 0
    (demoBooks [demoValidator 7 .tombstoned]) .new .jailed rfl
  have hrow := huntouched.delegations (7,9)
  exact absurd hrow (by decide)

end ZbxChain.Staking
