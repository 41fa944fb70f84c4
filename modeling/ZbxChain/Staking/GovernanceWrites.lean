import ZbxChain.Staking.CallEffects
import ZbxChain.Staking.Voting

/-! # What the staking calls write to the columns of the governance

A proposal that passes the first checks takes an id, and a vote that is accepted decides its
proposal. Neither is ever taken back, so no later call hides it.
-/
namespace ZbxChain.Staking
open StateProgram

def ProposalRegistry.stage (preg : ProposalRegistry) (id : UInt64) : ℕ :=
  match preg.lookup id with
  | none => 0
  | some p => if p.status = .pending then 1 else 2

namespace GovernanceColumns

/-- That many ids have been taken, and no proposal has gone back. -/
structure Advanced (taken : ℕ) (db db' : GovernanceColumns) : Prop where
  counter : db'.proposalCounter =
    if taken = 0 then db.proposalCounter else some (db.proposalCounter.getD 0 + UInt64.ofNat taken)
  stages : ∀ id, ProposalRegistry.stage db.loadProposalRegistry id ≤ ProposalRegistry.stage db'.loadProposalRegistry id

def Raised (db db' : GovernanceColumns) : Prop :=
  ∃ id, ProposalRegistry.stage db.loadProposalRegistry id < ProposalRegistry.stage db'.loadProposalRegistry id

variable {db db' db'' : GovernanceColumns} {taken taken' : ℕ}

theorem Advanced.refl (db : GovernanceColumns) : Advanced 0 db db := ⟨rfl,fun _ => le_rfl⟩

theorem Advanced.trans (h : Advanced taken db db') (h' : Advanced taken' db' db'') :
    Advanced (taken + taken') db db'' where
  counter := by
    rw [h'.counter, h.counter]
    by_cases hfirst : taken = 0
    · simp [hfirst]
    · by_cases hsecond : taken' = 0
      · simp [hfirst, hsecond]
      · have hsum : taken + taken' ≠ 0 := by omega
        simp only [hfirst, hsecond, hsum, if_false, Option.getD_some, UInt64.ofNat_add, UInt64.add_assoc]
  stages := fun id => (h.stages id).trans (h'.stages id)

theorem Advanced.ne (h : Advanced taken db db') (hlt : taken < 2 ^ 64) (hwrote : 0 < taken ∨ Raised db db') :
    db' ≠ db := by
  rintro rfl
  rcases hwrote with hpos | ⟨id,hraised⟩
  · have hcounter := h.counter
    rw [if_neg hpos.ne'] at hcounter
    have hid := congrArg (fun counter => (counter.getD 0).toNat) hcounter
    dsimp only [Option.getD_some] at hid
    rw [UInt64.toNat_add, UInt64.toNat_ofNat_of_lt' hlt] at hid
    have hfits := (db'.proposalCounter.getD 0).toNat_lt
    omega
  · exact lt_irrefl _ hraised

theorem Raised.left (h : Raised db db') (h' : Advanced taken' db' db'') : Raised db db'' := by
  obtain ⟨id,hid⟩ := h
  exact ⟨id,hid.trans_le (h'.stages id)⟩

/-- Where `writes` holds an id is taken or a proposal comes further, and elsewhere nothing
happens. -/
def WrittenIf (writes : Prop) (db db' : GovernanceColumns) : Prop :=
  (¬ writes → db' = db) ∧ (writes → ∃ taken ≤ 1, db.Advanced taken db' ∧ (0 < taken ∨ db.Raised db'))

theorem WrittenIf.keeps {writes : Prop} (hnot : ¬ writes) (h : db' = db) : db.WrittenIf writes db' :=
  ⟨fun _ => h,fun hwrites => absurd hwrites hnot⟩

end GovernanceColumns

section Calls
variable (faults : LedgerFaults) (sender : Address) (sentValue : ℕ) (currentHeight : UInt64) (st : StakingState)

/-- The calls that write to the columns of the governance: a proposal that comes as far as its
id, and a vote that is accepted. -/
def WritesGovernance : StakingTx → Prop
  | .proposeUpgrade moduleName _ activationHeight =>
    sentValue = 0 ∧ st.vs.isActiveValidator sender = true ∧
      (∃ modName, String.fromUTF8? ⟨moduleName.toArray⟩ = some modName ∧ modName.isEmpty = false ∧
        modName.utf8ByteSize ≤ 64) ∧
      currentHeight < activationHeight ∧ faults.getProposalCounter = none ∧ faults.putProposalCounter = none
  | .castVote proposalId _ =>
    sentValue = 0 ∧ st.vs.isActiveValidator sender = true ∧ faults.getProposals = none ∧
      (st.governance.loadProposalRegistry.lookup proposalId).map UpgradeProposal.status = some .pending ∧
      faults.putProposals = none
  | _ => False

end Calls

section Dispatch
variable {P : Platform} {faults : LedgerFaults} {sender : Address} {sentValue : ℕ} {currentHeight : UInt64}
  {st : StakingState} {view : ExecView}

/-- A program that leaves the columns of the governance alone. -/
def KeepsGovernance (db : GovernanceColumns) (p : StateProgram Dispatched) : Prop :=
  ∀ view, (p.run ExecView.answer view).1.1.governance = db

namespace KeepsGovernance

theorem pure {db : GovernanceColumns} {d : Dispatched} (h : d.1.governance = db) :
    KeepsGovernance db (Pure.pure d) := fun _ => h

theorem finish {st' : StakingState} {gas : UInt64} {r : Except StakingError ValidatorSet}
    (h : st'.governance = st.governance) : KeepsGovernance st.governance (Pure.pure (st'.finish gas r)) := by
  cases r with
  | error e => exact pure h
  | ok vs => exact pure h

theorem settle {st' paid : StakingState} (h : st'.governance = st.governance)
    (hpaid : paid.governance = st.governance) {gas : UInt64} {recipient : Address} {amount : ℕ} :
    KeepsGovernance st.governance (settle st' paid gas recipient amount) := by
  intro view
  rcases run_settle st' view paid gas recipient amount with ⟨-,hrun⟩ | ⟨-,hrun⟩
  · rw [hrun]
    exact h
  · rw [hrun]
    exact hpaid

end KeepsGovernance

theorem keepsGovernance_registerValidator (blsPubkey : BlsPubKey) (blsPop : BlsSignature) (selfStake : ℕ)
    (commissionBps : UInt16) : KeepsGovernance st.governance
      (pure (registerValidator P sender sentValue st blsPubkey blsPop selfStake commissionBps)) := by
  unfold registerValidator
  split_ifs
  · exact .pure rfl
  · exact .pure rfl
  · exact .pure rfl
  · exact .finish rfl

theorem keepsGovernance_delegateTo (validator : Address) (amount : ℕ) :
    KeepsGovernance st.governance (pure (delegateTo faults sender sentValue st validator amount)) := by
  unfold delegateTo
  split_ifs
  · exact .pure rfl
  · exact .pure rfl
  · cases st.vs.get validator with
    | none => exact .pure rfl
    | some v =>
      dsimp only
      cases v.status with
      | jailed | inactive | unbonding => exact .pure rfl
      | pending | active | tombstoned =>
        cases st.delta.getDelegation faults st.columns (validator,sender) with
        | error e => exact .pure rfl
        | ok prior => exact .finish rfl

theorem keepsGovernance_undelegateFrom (validator : Address) (amount : ℕ) :
    KeepsGovernance st.governance
      (pure (undelegateFrom faults sender sentValue currentHeight st validator amount)) := by
  unfold undelegateFrom
  split_ifs
  · exact .pure rfl
  · cases st.vs.get validator with
    | none => exact .pure rfl
    | some v =>
      dsimp only
      split_ifs
      · exact .pure rfl
      · cases st.delta.getDelegation faults st.columns (validator,sender) with
        | error e => exact .pure rfl
        | ok prior =>
          dsimp only
          split_ifs
          · exact .pure rfl
          · cases st.delta.getUnbondingEntry faults st.columns
              (saturatingAdd64 currentHeight unbondingPeriodBlocks,sender,validator) with
            | error e => exact .pure rfl
            | ok existing => exact .finish rfl

theorem keepsGovernance_withdrawFrom (validator : Address) :
    KeepsGovernance st.governance (withdrawFrom P faults sender sentValue currentHeight st validator) := by
  unfold withdrawFrom
  split_ifs
  · exact .pure rfl
  · cases st.delta.iterMaturedUnbondingsFor faults st.columns P sender currentHeight with
    | error e => exact .pure rfl
    | ok matured =>
      dsimp only
      split_ifs
      · exact .pure rfl
      · apply KeepsGovernance.settle
        · rfl
        · rfl

theorem keepsGovernance_claimOwnRewards (validator : Address) :
    KeepsGovernance st.governance (claimOwnRewards sender sentValue st validator) := by
  unfold claimOwnRewards
  split_ifs
  · exact .pure rfl
  · exact .pure rfl
  · rcases st.vs.claimRewards validator with e | ⟨amt,vs⟩
    · exact .pure rfl
    · dsimp only
      split_ifs
      · exact .settle rfl rfl
      · exact .pure rfl

theorem keepsGovernance_claimDelegated (validator : Address) :
    KeepsGovernance st.governance (claimDelegated faults sender sentValue st validator) := by
  unfold claimDelegated
  split_ifs
  · exact .pure rfl
  · cases st.delta.getDelegation faults st.columns (validator,sender) with
    | error e => exact .pure rfl
    | ok stake =>
      dsimp only
      split_ifs
      · exact .pure rfl
      · rcases st.vs.claimDelegatorReward validator sender stake with ⟨e | amt,vs⟩
        · exact .pure rfl
        · dsimp only
          split_ifs
          · exact .settle rfl rfl
          · exact .pure rfl

/-- A program that writes to the columns of the governance where `writes` holds. -/
def WritesIf (writes : Prop) (db : GovernanceColumns) (p : StateProgram Dispatched) : Prop :=
  ∀ view, db.WrittenIf writes (p.run ExecView.answer view).1.1.governance

theorem WritesIf.keeps {writes : Prop} {db : GovernanceColumns} {p : StateProgram Dispatched}
    (h : KeepsGovernance db p) (hnot : ¬ writes) : WritesIf writes db p :=
  fun view => .keeps hnot (h view)

theorem WritesIf.takes {writes : Prop} {db : GovernanceColumns} {p : StateProgram Dispatched} (hwrites : writes)
    (hcounter : ∀ view, (p.run ExecView.answer view).1.1.governance.proposalCounter = some db.nextProposalId)
    (hstages : ∀ view id, ProposalRegistry.stage db.loadProposalRegistry id ≤
      ProposalRegistry.stage (p.run ExecView.answer view).1.1.governance.loadProposalRegistry id) :
    WritesIf writes db p :=
  fun view => ⟨fun hnot => absurd hwrites hnot,
    fun _ => ⟨1,le_rfl,⟨hcounter view,hstages view⟩,Or.inl Nat.one_pos⟩⟩

theorem governance_storeProposals (gas : UInt64) (preg : ProposalRegistry) :
    ((storeProposals faults st gas preg).run ExecView.answer view).1.1.governance =
      if faults.putProposals = none then st.governance.persistProposalRegistry preg else st.governance := by
  unfold storeProposals
  cases faults.putProposals with
  | some e => rfl
  | none => rfl

@[simp] theorem loadProposalRegistry_persistProposalRegistry (db : GovernanceColumns) (preg : ProposalRegistry) :
    (db.persistProposalRegistry preg).loadProposalRegistry = preg := rfl

theorem stage_insert (preg : ProposalRegistry) (proposalId : UInt64) (p : UpgradeProposal) (id : UInt64) :
    ProposalRegistry.stage (preg.insert proposalId p) id =
      if id = proposalId then (if p.status = .pending then 1 else 2) else ProposalRegistry.stage preg id := by
  unfold ProposalRegistry.stage
  by_cases hid : id = proposalId
  · subst hid
    rw [Finmap.lookup_insert, if_pos rfl]
  · rw [Finmap.lookup_insert_of_ne _ hid, if_neg hid]

theorem stage_le_two (preg : ProposalRegistry) (id : UInt64) : ProposalRegistry.stage preg id ≤ 2 := by
  unfold ProposalRegistry.stage
  split
  · omega
  · split <;> omega

theorem tryFinalize_decided (p : UpgradeProposal) (validatorSet : Finset Address) (currentBlock : UInt64) :
    (p.tryFinalize validatorSet currentBlock).status ≠ .pending := by
  by_cases hpending : p.status = .pending
  · rw [tryFinalize_of_pending hpending]
    split_ifs
    · exact ProposalStatus.noConfusion
    · exact ProposalStatus.noConfusion
  · rwa [tryFinalize_of_not_pending hpending]

theorem writesIf_castVote (proposalId : UInt64) (approve : Bool) :
    WritesIf (WritesGovernance faults sender sentValue currentHeight st (.castVote proposalId approve))
      st.governance (castVote faults sender sentValue currentHeight st proposalId approve) := by
  unfold castVote
  by_cases hvalue : sentValue = 0
  · rw [if_neg (not_not.mpr hvalue)]
    by_cases hactive : st.vs.isActiveValidator sender = true
    · simp only [hactive, Bool.not_true, Bool.false_eq_true, if_false]
      cases hload : faults.getProposals with
      | some e => exact .keeps (.pure rfl) fun h => by simp [WritesGovernance, hload] at h
      | none =>
        dsimp only
        cases hlookup : st.governance.loadProposalRegistry.lookup proposalId with
        | none =>
          rw [castVote_of_none hlookup]
          exact .keeps (.pure rfl) fun h => by simp [WritesGovernance, hlookup] at h
        | some p =>
          by_cases hpending : p.status = .pending
          · rw [castVote_of_pending hlookup hpending]
            dsimp only
            intro view
            rw [governance_storeProposals]
            by_cases hput : faults.putProposals = none
            · rw [if_pos hput]
              have hstage : ProposalRegistry.stage st.governance.loadProposalRegistry proposalId = 1 := by
                rw [ProposalRegistry.stage, hlookup]
                exact if_pos hpending
              refine ⟨fun hnot => absurd ⟨hvalue,hactive,hload,by rw [hlookup, Option.map_some, hpending],hput⟩ hnot,
                fun _ => ⟨0,Nat.zero_le 1,⟨rfl,fun id => ?_⟩,Or.inr ⟨proposalId,?_⟩⟩⟩
              · rw [loadProposalRegistry_persistProposalRegistry, stage_insert,
                  if_neg (tryFinalize_decided _ _ _)]
                split_ifs
                · exact stage_le_two _ id
                · exact le_rfl
              · rw [hstage, loadProposalRegistry_persistProposalRegistry, stage_insert, if_pos rfl,
                  if_neg (tryFinalize_decided _ _ _)]
                exact Nat.one_lt_two
            · rw [if_neg hput]
              exact ⟨fun _ => rfl,fun h => absurd h.2.2.2.2 hput⟩
          · rw [castVote_of_not_pending hlookup hpending]
            exact .keeps (.pure rfl) fun h => by simp [WritesGovernance, hlookup, hpending] at h
    · simp only [hactive, Bool.not_false, if_true]
      exact .keeps (.pure rfl) fun h => hactive h.2.1
  · rw [if_pos hvalue]
    exact .keeps (.pure rfl) fun h => hvalue h.1

/-- The id is taken before the proposal is looked at, so a proposal that is then refused has
taken one as well. -/
theorem writesIf_proposeUpgrade (moduleName : List UInt8) (newVersion : UInt32) (activationHeight : UInt64) :
    WritesIf (WritesGovernance faults sender sentValue currentHeight st
        (.proposeUpgrade moduleName newVersion activationHeight)) st.governance
      (proposeUpgrade faults sender sentValue currentHeight st moduleName newVersion activationHeight) := by
  unfold proposeUpgrade
  by_cases hvalue : sentValue = 0
  · rw [if_neg (not_not.mpr hvalue)]
    by_cases hactive : st.vs.isActiveValidator sender = true
    · simp only [hactive, Bool.not_true, Bool.false_eq_true, if_false]
      cases hname : String.fromUTF8? ⟨moduleName.toArray⟩ with
      | none => exact .keeps (.pure rfl) fun h => by simp [WritesGovernance, hname] at h
      | some modName =>
        dsimp only
        by_cases hlength : modName.isEmpty = true ∨ 64 < modName.utf8ByteSize
        · rw [if_pos hlength]
          refine .keeps (.pure rfl) fun h => ?_
          obtain ⟨-,-,⟨other,hother,hnonempty,hshort⟩,-⟩ := h
          rw [hname, Option.some.injEq] at hother
          subst hother
          rcases hlength with hempty | hlong
          · rw [hempty] at hnonempty
            cases hnonempty
          · omega
        · rw [if_neg hlength]
          by_cases hheight : activationHeight ≤ currentHeight
          · rw [if_pos hheight]
            exact .keeps (.pure rfl) fun h => absurd hheight (UInt64.not_le.mpr h.2.2.2.1)
          · rw [if_neg hheight]
            cases hcounter : faults.getProposalCounter.or faults.putProposalCounter with
            | some e =>
              refine .keeps (.pure rfl) fun h => ?_
              rw [h.2.2.2.2.1, h.2.2.2.2.2] at hcounter
              cases hcounter
            | none =>
              have hwrites : WritesGovernance faults sender sentValue currentHeight st
                  (.proposeUpgrade moduleName newVersion activationHeight) := by
                obtain ⟨hget,hput⟩ := Option.or_eq_none_iff.mp hcounter
                obtain ⟨hnonempty,hshort⟩ := not_or.mp hlength
                exact ⟨hvalue,hactive,⟨modName,hname,by simpa using hnonempty,not_lt.mp hshort⟩,
                  UInt64.not_le.mp hheight,hget,hput⟩
              dsimp only
              cases faults.getProposals with
              | some e => exact .takes hwrites (fun _ => rfl) fun _ _ => le_rfl
              | none =>
                dsimp only
                cases hcreate : createProposal _ _ modName newVersion activationHeight sender with
                | error e => exact .takes hwrites (fun _ => rfl) fun _ _ => le_rfl
                | ok preg =>
                  obtain ⟨hfree,rfl⟩ := createProposal_ok hcreate
                  have hstage : ProposalRegistry.stage st.governance.loadProposalRegistry
                      st.governance.nextProposalId = 0 := by
                    have hlookup : st.governance.loadProposalRegistry.lookup st.governance.nextProposalId =
                        none := hfree
                    rw [ProposalRegistry.stage, hlookup]
                  refine .takes hwrites (fun view => ?_) fun view id => ?_
                  · dsimp only
                    rw [governance_storeProposals]
                    split_ifs
                    · rfl
                    · rfl
                  · dsimp only
                    rw [governance_storeProposals]
                    split_ifs
                    · rw [loadProposalRegistry_persistProposalRegistry, stage_insert]
                      split_ifs with hid
                      · exact (hid ▸ hstage).trans_le (Nat.zero_le _)
                      · exact (hid ▸ hstage).trans_le (Nat.zero_le _)
                      · exact le_rfl
                    · exact le_rfl
    · simp only [hactive, Bool.not_false, if_true]
      exact .keeps (.pure rfl) fun h => hactive h.2.1
  · rw [if_pos hvalue]
    exact .keeps (.pure rfl) fun h => hvalue h.1

theorem writesIf_dispatchStakingTx (call : StakingTx) :
    WritesIf (WritesGovernance faults sender sentValue currentHeight st call) st.governance
      (dispatchStakingTx P faults sender sentValue currentHeight st call) := by
  cases call with
  | registerValidator => exact .keeps (keepsGovernance_registerValidator _ _ _ _) id
  | delegate => exact .keeps (keepsGovernance_delegateTo _ _) id
  | undelegate => exact .keeps (keepsGovernance_undelegateFrom _ _) id
  | withdraw => exact .keeps (keepsGovernance_withdrawFrom _) id
  | claimRewards => exact .keeps (keepsGovernance_claimOwnRewards _) id
  | claimDelegatorRewards => exact .keeps (keepsGovernance_claimDelegated _) id
  | fileAppeal => exact .keeps (.pure rfl) id
  | proposeUpgrade => exact writesIf_proposeUpgrade _ _ _
  | castVote => exact writesIf_castVote _ _

end Dispatch

end ZbxChain.Staking
