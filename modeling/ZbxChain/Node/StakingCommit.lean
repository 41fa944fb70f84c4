import ZbxChain.Execution.SameView
import ZbxChain.Node.Committed
import ZbxChain.Node.Upgrades
import ZbxChain.Staking.Dispatch

/-! # Commits with the staking ledger and the governance registries

`execute_and_commit_with_validator_set` over the whole database: besides the columns of the
chain those of the staking ledger, which are written when the block is stored, and the
registries of the governance, which the dispatcher writes while the block is executed.
-/
namespace ZbxChain.Staking

structure NodeDb where
  chain : ChainDb
  columns : StakingColumns
  governance : GovernanceColumns
  versions : VersionRegistry

def governanceSweep (governance : GovernanceColumns) (versions : VersionRegistry) (vs : ValidatorSet)
    (currentBlock : UInt64) : (GovernanceColumns × VersionRegistry) × Bool :=
  let (preg,finalized) := tryFinalizeAllPending governance.loadProposalRegistry vs currentBlock
  let (upgrades,executed) := UpgradeState.applyReadyGovernance ⟨versions,preg⟩ currentBlock
  if finalized || executed then ((governance.persistProposalRegistry upgrades.preg,upgrades.vreg),true)
  else ((governance,versions),false)

def writesStaking : DbWrite → Bool
  | .stakingDelta => true
  | _ => false

def writesGovernance : DbWrite → Bool
  | .governance => true
  | _ => false

section Commit
variable (P : Platform) (M : Machines) (C : Commitments) (ledger : LedgerFaults)
  (decode : List UInt8 → Option StakingTx)

/-- The staking state as far as execution comes, whether the block is accepted or not. -/
def stateReached (db : ChainDb) (faults : Faults) (st : StakingState) (block : Block) : StakingState :=
  match seedAll db faults block.referenced [] .new with
  | .error _ => st
  | .ok view =>
    if BLOCK_GAS_LIMIT < block.header.gasLimit then st
    else (progressReached P M (precompile P ledger decode).toStakingPrecompile C block ⟨some st,0,[]⟩
      block.body.transactions view).validators.getD st

/-- What a commit leaves: the database, the live validators, and what it returns. -/
structure CommitOutcome where
  db : NodeDb
  vs : ValidatorSet
  result : Except String Block

/-- `execute_and_commit_with_validator_set`. -/
def NodeDb.commit (db : NodeDb) (vs : ValidatorSet) (faults : Faults) (block : Block) : CommitOutcome :=
  let st : StakingState := ⟨vs,.new,db.columns,db.governance⟩
  let reached := stateReached P M C ledger decode db.chain faults st block
  let ((governance,versions),changed) :=
    governanceSweep reached.governance db.versions reached.vs block.header.number
  let faults := { faults with governance := faults.governance.map (fun _ => changed) }
  let outcome := db.chain.executeAndCommitWithValidatorSet P M (precompile P ledger decode) C faults st
    block
  let swept := outcome.writes.any writesGovernance
  { db :=
      { chain := db.chain.applyAll outcome.writes
        columns :=
          if outcome.writes.any writesStaking then db.columns.applyStakingDelta reached.delta
          else db.columns
        governance := if swept then governance else reached.governance
        versions := if swept then versions else db.versions }
    vs := (outcome.validators.map StakingState.vs).getD vs
    result := outcome.result }

end Commit

section Kept
variable {V K : Type} {P : Platform} {M : Machines} {S : StakingNode V K} {C : Commitments}
  {I : V → Prop} {db : ChainDb} {faults : Faults} {block : Block}

theorem kept_applyIntervalRewards (hrewards : ∀ state height proposer fees, I state →
    I (S.distributeBlockReward state height proposer fees)) {live : V} (hlive : I live) :
    I (applyIntervalRewards S db faults block live).2 := by
  unfold applyIntervalRewards
  dsimp only
  split
  · cases faults.escrow with
    | none => exact hrewards _ _ _ _ hlive
    | some e => exact hlive
  · exact hrewards _ _ _ _ hlive

theorem kept_rewardStep (hrewards : ∀ state height proposer fees, I state →
    I (S.distributeBlockReward state height proposer fees)) {vs validators : Option V}
    (h : ∀ state, validators = some state → I state) (state : V)
    (hstate : (rewardStep S db faults block vs validators).2 = some state) : I state := by
  unfold rewardStep at hstate
  split at hstate
  · rename_i live
    have hlive := h live rfl
    split at hstate
    · obtain rfl := Option.some.inj hstate
      exact kept_applyIntervalRewards hrewards hlive
    · obtain rfl := Option.some.inj hstate
      exact hlive
  · exact h state hstate

/-- What staking calls and rewards keep, a commit keeps. -/
theorem kept_commit (hkeeps : S.Keeps I) (hrewards : ∀ state height proposer fees, I state →
    I (S.distributeBlockReward state height proposer fees)) (st : V) (hst : I st) (state : V)
    (hstate : (db.executeAndCommitWithValidatorSet P M S C faults st block).validators = some state) :
    I state := by
  unfold ChainDb.executeAndCommitWithValidatorSet executeAndCommitInner at hstate
  cases hprepare : prepare P M S C db faults (some st) block with
  | error e =>
    rw [hprepare] at hstate
    cases hstate
    exact hst
  | ok ready =>
    rw [hprepare] at hstate
    dsimp only at hstate
    obtain ⟨view,progress,hprepared⟩ := prepare_ok hprepare
    have hready : ∀ state, ready.validators = some state → I state := by
      intro state hsome
      obtain ⟨after,hafter,hI⟩ := has_runBlock hkeeps block st hst view progress ready.view hprepared.ran
      rw [hprepared.validators, hafter] at hsome
      cases hsome
      exact hI
    unfold persist at hstate
    split at hstate
    · cases hstate
      exact hst
    · split at hstate
      · exact hready state hstate
      · exact kept_rewardStep hrewards hready state hstate

end Kept

section Kept
variable {P : Platform} {M : Machines} {C : Commitments} {ledger : LedgerFaults}
  {decode : List UInt8 → Option StakingTx} {I : ValidatorSet → Prop}

theorem kept_vs_commit
    (hkeeps : (precompile P ledger decode).Keeps (fun st => I st.vs))
    (hrewards : ∀ vs height proposer fees, I vs →
      I (ValidatorSet.distributeBlockReward vs height proposer fees))
    (db : NodeDb) (vs : ValidatorSet) (hvs : I vs) (faults : Faults) (block : Block) :
    I (db.commit P M C ledger decode vs faults block).vs := by
  unfold NodeDb.commit
  dsimp only
  cases hvalidators : (db.chain.executeAndCommitWithValidatorSet P M (precompile P ledger decode) C _ _
    block).validators with
  | none => exact hvs
  | some state =>
    exact kept_commit (I := fun st : StakingState => I st.vs) hkeeps
      (fun st height proposer fees h => hrewards st.vs height proposer fees h) _ hvs state hvalidators

end Kept

end ZbxChain.Staking
