import ZbxChain.Node.StakingCommit
import ZbxChain.Staking.Tombstones

/-! # Tombstones over the runs of a node

`do_commit` ticks the slashing pipeline, executes the block and brings the validators of its
configuration up to date. Evidence and appeals come between any two of these stages, since
the pipeline shares the validators and takes their lock for one stage at a time.
-/
namespace ZbxChain.Staking
open Staking.ValidatorSet

/-- The part of `ConsensusConfig` that the commits read. -/
structure ConsensusConfig where
  validators : List (Address × BlsPubKey)
  epochLength : UInt64

/-- `apply_slash_burns`: each burn starts from the stored balance. -/
def applySlashBurns (accounts : Accounts) (burns : List (Address × ℕ)) : Accounts :=
  burns.foldl (fun batch burn =>
    let acct := (accounts.lookup burn.1).getD .fresh
    batch.insert burn.1 (acct.setBalanceU128 (acct.balanceU128 - min burn.2 acct.balanceU128))) accounts

def genesisValidator (height epoch : UInt64) (entry : Address × BlsPubKey) : Validator :=
  { address := entry.1
    blsPubkey := entry.2
    selfStake := minSelfStake
    delegatedStake := 0
    commissionBps := 500
    status := .active
    lastSignedBlock := height
    pendingRewards := 0
    delegatorRewardPool := 0
    poolDenominator := 0
    registeredEpoch := epoch }

def Validator.refresh (height : UInt64) (v : Validator) : Validator :=
  { v with
    lastSignedBlock := height
    status := if v.status = .jailed then v.status else .active }

def ValidatorSet.orInsert (vs : ValidatorSet) (addr : Address) (v : Validator) : ValidatorSet :=
  if (vs.get addr).isSome then vs else { vs with validators := vs.validators.insert addr v }

/-- One validator of the configuration: registered, and at a boundary active unless jailed. -/
def syncEntry (height epoch : UInt64) (boundary : Bool) (vs : ValidatorSet)
    (entry : Address × BlsPubKey) : ValidatorSet :=
  let registered := vs.orInsert entry.1 (genesisValidator height epoch entry)
  if boundary then registered.modify entry.1 (Validator.refresh height) else registered

def atEpochBoundary (cfg : ConsensusConfig) (height : UInt64) : Bool := height % cfg.epochLength = 0

/-- The set before the election. -/
def syncEntries (cfg : ConsensusConfig) (height : UInt64) (vs : ValidatorSet) : ValidatorSet :=
  let epoch := height / cfg.epochLength
  cfg.validators.foldl (syncEntry height epoch (atEpochBoundary cfg height))
    { vs with currentEpoch := epoch }

/-- The last stage of `do_commit`, with the set for `update_validator_set` at a boundary. A
division by zero has ended the commit before it starts. -/
def syncValidators (P : Platform) (cfg : ConsensusConfig) (height : UInt64) (vs : ValidatorSet) :
    ValidatorSet × Option (List Address) :=
  if cfg.epochLength = 0 then (vs,none)
  else if atEpochBoundary cfg height then
    let (elected,newActive) := (syncEntries cfg height vs).electActiveSet P
    (elected,some newActive)
  else (syncEntries cfg height vs,none)

structure NodeState where
  db : NodeDb
  pipeline : SlashingPipeline

def NodeState.vs (s : NodeState) : ValidatorSet := s.pipeline.validators

def NodeState.start (db : NodeDb) (store : EvidenceStore) (registry : SlashingRegistryV2) : NodeState :=
  ⟨db,⟨store,registry,.new,0⟩⟩

inductive Stage where
  | tick (fault : ℕ → Option String) (height : UInt64)
  | execute (ledger : LedgerFaults) (faults : Faults) (block : Block)
  | sync (height : UInt64)
  | ingest (fault : ℕ → Option String) (ev : EquivocationEvidence) (submitter : Address)
    (currentBlock currentEpoch : UInt64) (offenderStake : ℕ)
  | fileAppeal (fault : ℕ → Option String) (evidenceId : H256) (sender : Address) (sentValueWei : ℕ)
    (currentHeight : UInt64)
  | overturn (fault : ℕ → Option String) (evidenceId : H256)
  | rehydrate (fault : ℕ → Option String)

section Stages
variable (P : Platform) (sha3 : List UInt8 → H256) (bincode : EquivocationEvidence → List UInt8)
  (M : Machines) (C : Commitments) (decode : List UInt8 → Option StakingTx) (cfg : ConsensusConfig)
open SlashingPipeline

/-- The tick of the pipeline; what it has slashed is burnt from the accounts as well. -/
def tickStage (fault : ℕ → Option String) (height : UInt64) (s : NodeState) : NodeState :=
  let (applied,pipeline) := (tickFinalize fault height).exec s.pipeline
  match applied with
  | .error _ => { s with pipeline := pipeline }
  | .ok applied =>
    let accounts := applySlashBurns s.db.chain.accounts (applied.map (fun a => (a.offender,a.burnWei)))
    ⟨{ s.db with chain := { s.db.chain with accounts := accounts } },pipeline⟩

def executeStage (ledger : LedgerFaults) (faults : Faults) (block : Block) (s : NodeState) :
    NodeState × Except String Block :=
  let outcome := s.db.commit P M C ledger decode s.vs faults block
  (⟨outcome.db,{ s.pipeline with validators := outcome.vs }⟩,outcome.result)

def syncStage (height : UInt64) (s : NodeState) : NodeState × Option (List Address) :=
  let (vs,newActive) := syncValidators P cfg height s.vs
  ({ s with pipeline := { s.pipeline with validators := vs } },newActive)

/-- One stage, with the set it hands to `update_validator_set`. -/
def NodeState.step (s : NodeState) : Stage → NodeState × Option (List Address)
  | .tick fault height => (tickStage fault height s,none)
  | .execute ledger faults block => ((executeStage P M C decode ledger faults block s).1,none)
  | .sync height => syncStage P cfg height s
  | .ingest fault ev submitter currentBlock currentEpoch offenderStake =>
    ({ s with pipeline := ((ingestEquivocation P sha3 bincode fault ev submitter currentBlock currentEpoch
        offenderStake).exec s.pipeline).2 },none)
  | .fileAppeal fault evidenceId sender sentValueWei currentHeight =>
    ({ s with pipeline := ((dispatchFileAppealTx fault evidenceId sender sentValueWei
        currentHeight).exec s.pipeline).2 },none)
  | .overturn fault evidenceId =>
    ({ s with pipeline := ((overturnAndRefund fault evidenceId).exec s.pipeline).2 },none)
  | .rehydrate fault => ({ s with pipeline := ((rehydrateFromDisk fault).exec s.pipeline).2 },none)

/-- The stages of `do_commit` for a block; one that cannot be executed is not synced. -/
def commitStages (fault : ℕ → Option String) (ledger : LedgerFaults) (faults : Faults) (block : Block)
    (s : NodeState) : List Stage :=
  let ticked := tickStage fault block.header.number s
  let before : List Stage := [.tick fault block.header.number,.execute ledger faults block]
  match (executeStage P M C decode ledger faults block ticked).2 with
  | .ok _ => before ++ [.sync block.header.number]
  | .error _ => before

end Stages

def MeetsTombstone (cfg : ConsensusConfig) (s : NodeState) : Stage → Prop
  | .sync height => cfg.epochLength ≠ 0 ∧ atEpochBoundary cfg height = true ∧
      ∃ entry ∈ cfg.validators, s.vs.Tombstoned entry.1
  | _ => False

section Refresh
variable {P : Platform} {cfg : ConsensusConfig} {vs vs' : ValidatorSet} {height epoch : UInt64}
  {boundary : Bool} {entry : Address × BlsPubKey} {addr : Address}

def NoNewTombstone (vs vs' : ValidatorSet) : Prop := ∀ addr, vs'.Tombstoned addr → vs.Tombstoned addr

instance : Std.Refl NoNewTombstone := ⟨fun _ _ h => h⟩
instance : IsTrans ValidatorSet NoNewTombstone := ⟨fun _ _ _ h h' addr ha => h addr (h' addr ha)⟩

theorem noNewTombstone_modify {f : Validator → Validator}
    (hf : ∀ v, (f v).status = .tombstoned → v.status = .tombstoned) :
    NoNewTombstone vs (vs.modify addr f) := by
  intro a ha
  rw [Tombstoned, statusOf, get_modify] at ha
  split at ha
  · rename_i heq
    subst heq
    rw [Option.map_map, Option.map_eq_some_iff] at ha
    obtain ⟨v,hv,hstatus⟩ := ha
    rw [Tombstoned, statusOf, hv, Option.map_some, hf v hstatus]
  · exact ha

theorem noNewTombstone_foldl {α : Type} {f : ValidatorSet → α → ValidatorSet}
    (hf : ∀ vs a, NoNewTombstone vs (f vs a)) (l : List α) (vs : ValidatorSet) :
    NoNewTombstone vs (l.foldl f vs) := by
  induction l generalizing vs with
  | nil => exact refl_of _ vs
  | cons a l ih => exact trans_of _ (hf vs a) (ih (f vs a))

theorem noNewTombstone_electActiveSet : NoNewTombstone vs (vs.electActiveSet P).1 := by
  have hdemote : ∀ v : Validator, v.demote.status = .tombstoned → v.status = .tombstoned := by
    intro v hv
    unfold Validator.demote at hv
    split at hv
    · cases hv
    · exact hv
  have hpromote : ∀ v : Validator, v.promote.status = .tombstoned → v.status = .tombstoned := by
    intro v hv
    unfold Validator.promote at hv
    split at hv
    · cases hv
    · exact hv
  unfold electActiveSet
  dsimp only
  exact trans_of NoNewTombstone
    (trans_of _ (noNewTombstone_foldl (fun _ _ => noNewTombstone_modify hdemote) _ _)
      (noNewTombstone_foldl (fun _ _ => noNewTombstone_modify hpromote) _ _)) (fun _ h => h)

theorem refresh_status (v : Validator) : (v.refresh height).status ≠ .tombstoned := by
  unfold Validator.refresh
  dsimp only
  split
  · rename_i hjailed
    rw [hjailed]
    exact (by decide)
  · exact (by decide)

theorem genesisValidator_status : (genesisValidator height epoch entry).status ≠ .tombstoned := by
  simp [genesisValidator]

theorem get_orInsert (vs : ValidatorSet) (addr : Address) (w : Validator) (a : Address) :
    (vs.orInsert addr w).get a = if a = addr then some ((vs.get addr).getD w) else vs.get a := by
  unfold orInsert
  cases hregistered : vs.get addr with
  | some v =>
    simp only [Option.isSome_some, if_true, Option.getD_some]
    split
    · rename_i heq
      rw [heq, hregistered]
    · rfl
  | none =>
    simp only [Option.isSome_none, Bool.false_eq_true, if_false, Option.getD_none]
    unfold ValidatorSet.get
    split
    · rename_i heq
      subst heq
      exact AList.lookup_insert _
    · rename_i hne
      exact AList.lookup_insert_ne hne

theorem tombstoned_orInsert {w : Validator} (hw : w.status ≠ .tombstoned) :
    (vs.orInsert addr w).Tombstoned = vs.Tombstoned := by
  funext a
  unfold Tombstoned statusOf
  rw [get_orInsert]
  split
  · rename_i heq
    subst heq
    cases hv : vs.get a with
    | some v => rfl
    | none => simpa using hw
  · rfl

theorem preserves_orInsert {w : Validator} (haddress : w.address = addr) (hw : w.status ≠ .tombstoned) :
    vs.Preserves (vs.orInsert addr w) := by
  constructor
  · intro a ha
    rwa [tombstoned_orInsert hw]
  · intro hkeyed a v hv
    rw [get_orInsert] at hv
    split at hv
    · rename_i heq
      subst heq
      obtain rfl := Option.some.inj hv
      cases hold : vs.get a with
      | some v => exact hkeyed a v hold
      | none => exact haddress
    · exact hkeyed a v hv

theorem preserves_syncEntry (h : boundary = true → ¬ vs.Tombstoned entry.1) :
    vs.Preserves (syncEntry height epoch boundary vs entry) := by
  have hregistered : vs.Preserves (vs.orInsert entry.1 (genesisValidator height epoch entry)) :=
    preserves_orInsert rfl genesisValidator_status
  unfold syncEntry
  dsimp only
  split
  · rename_i hboundary
    refine hregistered.trans ⟨?_,fun hkeyed a v hv => ?_⟩
    · intro a ha
      have hne : a ≠ entry.1 := by
        rintro rfl
        rw [tombstoned_orInsert genesisValidator_status] at ha
        exact h hboundary ha
      rwa [Tombstoned, statusOf, get_modify, if_neg hne]
    · rw [get_modify] at hv
      split at hv
      · rename_i heq
        subst heq
        obtain ⟨w,hw,rfl⟩ := Option.map_eq_some_iff.mp hv
        exact hkeyed _ w hw
      · exact hkeyed a v hv
  · exact hregistered

theorem noNewTombstone_syncEntry :
    NoNewTombstone vs (syncEntry height epoch boundary vs entry) := by
  have hregistered : NoNewTombstone vs (vs.orInsert entry.1 (genesisValidator height epoch entry)) := by
    intro a ha
    rwa [tombstoned_orInsert genesisValidator_status] at ha
  unfold syncEntry
  dsimp only
  split
  · exact trans_of _ hregistered (noNewTombstone_modify fun v hv => absurd hv (refresh_status v))
  · exact hregistered

theorem lifted_syncEntry : ¬ (syncEntry height epoch true vs entry).Tombstoned entry.1 := by
  intro h
  unfold syncEntry at h
  rw [if_pos rfl, Tombstoned, statusOf, get_modify, if_pos rfl, Option.map_map,
    Option.map_eq_some_iff] at h
  obtain ⟨v,-,hstatus⟩ := h
  exact refresh_status v hstatus

theorem preserves_syncEntries
    (h : atEpochBoundary cfg height = true → ∀ entry ∈ cfg.validators, ¬ vs.Tombstoned entry.1) :
    vs.Preserves (syncEntries cfg height vs) := by
  unfold syncEntries
  dsimp only
  have hsame : vs.Preserves { vs with currentEpoch := height / cfg.epochLength } := preserves_of_eq rfl
  refine hsame.trans ?_
  replace h : atEpochBoundary cfg height = true → ∀ entry ∈ cfg.validators,
      ¬ ({ vs with currentEpoch := height / cfg.epochLength } : ValidatorSet).Tombstoned entry.1 := h
  generalize ({ vs with currentEpoch := height / cfg.epochLength } : ValidatorSet) = vs at h ⊢
  generalize cfg.validators = entries at h ⊢
  induction entries generalizing vs with
  | nil => exact refl_of _ vs
  | cons entry entries ih =>
    refine Preserves.trans (preserves_syncEntry fun hboundary => h hboundary entry (List.mem_cons_self ..))
      (ih _ fun hboundary e he htomb => ?_)
    exact h hboundary e (List.mem_cons_of_mem _ he) (noNewTombstone_syncEntry _ htomb)

theorem lifted_syncEntries (hboundary : atEpochBoundary cfg height = true) (h : entry ∈ cfg.validators) :
    ¬ (syncEntries cfg height vs).Tombstoned entry.1 := by
  obtain ⟨before,after,hsplit⟩ := List.append_of_mem h
  unfold syncEntries
  dsimp only
  rw [hsplit, hboundary, List.foldl_append, List.foldl_cons]
  intro htomb
  exact lifted_syncEntry (noNewTombstone_foldl (fun _ _ => noNewTombstone_syncEntry) after _ _ htomb)

end Refresh

section Runs
variable {P : Platform} {sha3 : List UInt8 → H256} {bincode : EquivocationEvidence → List UInt8}
  {M : Machines} {C : Commitments} {decode : List UInt8 → Option StakingTx} {cfg : ConsensusConfig}
  {s : NodeState} {stage : Stage} {addr : Address}
open SlashingPipeline Stateful

theorem keeps_precompile (ledger : LedgerFaults) (vs : ValidatorSet) :
    (precompile P ledger decode).Keeps (fun st => vs.Preserves st.vs) := by
  intro call sender sentValue height st view hst
  refine hst.trans ?_
  simp only [precompile, Program.run_bind]
  exact preserves_dispatchStakingTx call

/-- No block clears a tombstone. -/
theorem preserves_executeStage (ledger : LedgerFaults) (faults : Faults) (block : Block) :
    s.vs.Preserves (executeStage P M C decode ledger faults block s).1.vs :=
  kept_vs_commit (keeps_precompile ledger s.vs)
    (fun _ _ _ _ h => h.trans preserves_distributeBlockReward) s.db s.vs (refl_of _ s.vs) faults block

theorem keeps_rehydrateFromDisk (fault : ℕ → Option String) :
    Keeps (OnValidators ValidatorSet.Preserves) (rehydrateFromDisk fault) := by
  refine kept_loadAllRecords.bind fun records => Keeps.bind (kept_elsewhere ?_) fun _ => .pure _
  exact fun _ => rfl

theorem preserves_tickStage (fault : ℕ → Option String) (height : UInt64) :
    s.vs.Preserves (tickStage fault height s).vs := by
  have hticked : s.vs.Preserves ((tickFinalize fault height).exec s.pipeline).2.validators :=
    keeps_tickFinalize height s.pipeline
  unfold tickStage
  dsimp only
  split
  · exact hticked
  · exact hticked

theorem preserves_syncStage (height : UInt64) (h : ¬ MeetsTombstone cfg s (.sync height)) :
    s.vs.Preserves (syncStage P cfg height s).1.vs := by
  change s.vs.Preserves (syncValidators P cfg height s.vs).1
  unfold syncValidators
  split
  · exact refl_of _ s.vs
  · rename_i hpositive
    have hentries : s.vs.Preserves (syncEntries cfg height s.vs) :=
      preserves_syncEntries fun hboundary entry hentry htomb =>
        h ⟨hpositive,hboundary,entry,hentry,htomb⟩
    split
    · exact hentries.trans preserves_electActiveSet
    · exact hentries

theorem preserves_step (h : ¬ MeetsTombstone cfg s stage) :
    s.vs.Preserves (s.step P sha3 bincode M C decode cfg stage).1.vs := by
  cases stage with
  | tick fault height => exact preserves_tickStage fault height
  | execute ledger faults block => exact preserves_executeStage ledger faults block
  | sync height => exact preserves_syncStage height h
  | ingest fault ev submitter currentBlock currentEpoch offenderStake =>
    exact keeps_ingestEquivocation ev submitter currentBlock currentEpoch offenderStake s.pipeline
  | fileAppeal fault evidenceId sender sentValueWei currentHeight =>
    exact keeps_dispatchFileAppealTx evidenceId sender sentValueWei currentHeight s.pipeline
  | overturn fault evidenceId => exact keeps_overturnAndRefund evidenceId s.pipeline
  | rehydrate fault => exact keeps_rehydrateFromDisk fault s.pipeline

theorem handed_over {active : List Address}
    (h : (s.step P sha3 bincode M C decode cfg stage).2 = some active) :
    ∃ height, stage = .sync height ∧ cfg.epochLength ≠ 0 ∧ atEpochBoundary cfg height = true ∧
      active = ((syncEntries cfg height s.vs).electActiveSet P).2 := by
  cases stage with
  | sync height =>
    change (syncValidators P cfg height s.vs).2 = some active at h
    unfold syncValidators at h
    split at h
    · cases h
    · rename_i hpositive
      split at h
      · rename_i hboundary
        exact ⟨height,rfl,hpositive,hboundary,(Option.some.inj h).symm⟩
      · cases h
  | tick | execute | ingest | fileAppeal | overturn | rehydrate => cases h

theorem notMem_handed_over {active : List Address} (hkeyed : s.vs.Keyed) (htomb : s.vs.Tombstoned addr)
    (hmeets : ¬ MeetsTombstone cfg s stage)
    (h : (s.step P sha3 bincode M C decode cfg stage).2 = some active) : addr ∉ active := by
  obtain ⟨height,rfl,hpositive,hboundary,rfl⟩ := handed_over h
  have hentries : s.vs.Preserves (syncEntries cfg height s.vs) :=
    preserves_syncEntries fun _ entry hentry hlisted =>
      hmeets ⟨hpositive,hboundary,entry,hentry,hlisted⟩
  exact notMem_electActiveSet (hentries.keyed hkeyed) (hentries.tombstoned addr htomb)

theorem lifted_step (h : MeetsTombstone cfg s stage) :
    ∃ addr, s.vs.Tombstoned addr ∧ ¬ (s.step P sha3 bincode M C decode cfg stage).1.vs.Tombstoned addr := by
  cases stage with
  | sync height =>
    obtain ⟨hpositive,hboundary,entry,hentry,htomb⟩ := h
    refine ⟨entry.1,htomb,?_⟩
    change ¬ (syncValidators P cfg height s.vs).1.Tombstoned entry.1
    unfold syncValidators
    rw [if_neg hpositive, if_pos hboundary]
    intro hafter
    exact lifted_syncEntries hboundary hentry (noNewTombstone_electActiveSet _ hafter)
  | tick | execute | ingest | fileAppeal | overturn | rehydrate => exact h.elim

/-- In a run, whoever is tombstoned stays so, and is not handed over any more. -/
def TombstonesForever (step : NodeState → Stage → NodeState × Option (List Address)) (start : NodeState)
    (stages : List Stage) : Prop :=
  ∀ xs ys zs, stages = xs ++ ys ++ zs → ∀ addr, (Machine.final step start xs).vs.Tombstoned addr →
    (Machine.final step start (xs ++ ys)).vs.Tombstoned addr ∧
      ∀ e ∈ Machine.history step (Machine.final step start xs) ys, ∀ active, e.output = some active →
        addr ∉ active

/-- Nor does a run in which no stage meets one. -/
theorem preserves_run {stages : List Stage}
    (h : ∀ e ∈ Machine.history (NodeState.step P sha3 bincode M C decode cfg) s stages,
      ¬ MeetsTombstone cfg e.before e.call) :
    (∀ e ∈ Machine.history (NodeState.step P sha3 bincode M C decode cfg) s stages,
        s.vs.Preserves e.before.vs) ∧
      s.vs.Preserves (Machine.final (NodeState.step P sha3 bincode M C decode cfg) s stages).vs :=
  Machine.state_invariant _ (I := fun t => s.vs.Preserves t.vs)
    (G := fun t stage => ¬ MeetsTombstone cfg t stage) (refl_of _ s.vs)
    (fun _ _ ht hmeets => ht.trans (preserves_step hmeets)) stages h

theorem commitStages_ok {fault : ℕ → Option String} {ledger : LedgerFaults} {faults : Faults} {block : Block}
    (h : (executeStage P M C decode ledger faults block (tickStage fault block.header.number s)).2.isOk) :
    commitStages P M C decode fault ledger faults block s =
      [.tick fault block.header.number,.execute ledger faults block,.sync block.header.number] := by
  unfold commitStages
  dsimp only
  split
  · rfl
  · rename_i e hresult
    rw [hresult] at h
    cases h

theorem keyed_start (db : NodeDb) (store : EvidenceStore) (registry : SlashingRegistryV2) :
    (NodeState.start db store registry).vs.Keyed := by
  intro a v hv
  cases hv

end Runs

section Forever
variable (P : Platform) (sha3 : List UInt8 → H256) (bincode : EquivocationEvidence → List UInt8)
  (M : Machines) (C : Commitments) (decode : List UInt8 → Option StakingTx) (cfg : ConsensusConfig)

/-- Tombstones last for ever in a run exactly if no refresh of an epoch boundary meets one. -/
theorem tombstonesForever_iff (db : NodeDb) (store : EvidenceStore) (registry : SlashingRegistryV2)
    (stages : List Stage) :
    TombstonesForever (NodeState.step P sha3 bincode M C decode cfg)
        (NodeState.start db store registry) stages ↔
      ∀ e ∈ Machine.history (NodeState.step P sha3 bincode M C decode cfg)
        (NodeState.start db store registry) stages, ¬ MeetsTombstone cfg e.before e.call := by
  constructor
  · rintro hforever e he hmeets
    obtain ⟨xs,zs,hsplit,hbefore⟩ := Machine.history_split _ he
    obtain ⟨addr,htomb,hlifted⟩ := lifted_step (P := P) (M := M) (C := C) hmeets
    rw [hbefore] at htomb hlifted
    have hkept := (hforever xs [e.call] zs (by simpa using hsplit) addr htomb).1
    rw [Machine.final_append] at hkept
    exact hlifted hkept
  · intro hmeets xs ys zs hsplit addr htomb
    subst hsplit
    rw [List.append_assoc, Machine.history_append, Machine.history_append] at hmeets
    have hpast := preserves_run fun e he => hmeets e (List.mem_append_left _ he)
    have hrest := preserves_run fun e he =>
      hmeets e (List.mem_append_right _ (List.mem_append_left _ he))
    refine ⟨?_,fun e he active hactive => ?_⟩
    · rw [Machine.final_append]
      exact hrest.2.tombstoned addr htomb
    · have hbefore := hrest.1 e he
      rw [Machine.output_eq _ he] at hactive
      exact notMem_handed_over (hbefore.keyed (hpast.2.keyed (keyed_start db store registry)))
        (hbefore.tombstoned addr htomb)
        (hmeets e (List.mem_append_right _ (List.mem_append_left _ he))) hactive

end Forever

section Lapsed

def lapsedConfig : ConsensusConfig := ⟨[(5,0)],172800⟩

def doubleSign (id : H256) (submitBlock : UInt64) : SlashEvidenceRecord :=
  { id := id
    evidenceType := .doubleSign
    offender := 5
    submittedBy := 9
    submitBlock := submitBlock
    evidence := .doubleSign ⟨submitBlock,0,0,1,2,0,0,5,0⟩
    status := .pending
    baseSlashWei := slashAmountWei minSelfStake (baseSlashBps .doubleSign)
    finalSlashWei := slashAmountWei minSelfStake (correlatedSlashBps (baseSlashBps .doubleSign) 1 1)
    appealDeadline := submitBlock + appealWindowBlocks
    reporters := []
    jailedBySlash := false
    burnApplied := false
    formatVersion := slashRecordFormatVersion }

/-- The second slash of the validator is pending, the first has been burnt before the restart. -/
def lapsedStart : NodeState :=
  .start ⟨plainDb 345598 ∅,⟨∅,∅⟩,⟨none,none⟩,.new⟩
    ⟨∅,(AList.insert 1 { doubleSign 1 7 with status := .confirmed, jailedBySlash := true, burnApplied := true }
      (AList.insert 2 (doubleSign 2 172799) ∅)),∅⟩ (.new 1)

def lapsedStep : NodeState → Stage → NodeState × Option (List Address) :=
  NodeState.step .integersEmptyRoot (fun _ => 0) (fun _ => []) idleMachines zeroCommitments (fun _ => none)
    lapsedConfig

def plainCommit (height : UInt64) : List Stage :=
  [.tick (fun _ => none) height,.execute .none .none (plainBlock height 0),.sync height]

def lapsedState (stages : List Stage) : NodeState :=
  Machine.final lapsedStep lapsedStart (.rehydrate (fun _ => none) :: stages)

/-- The commits of the blocks 345599 and 345600 after a restart: the tick of the second one
tombstones the validator 5, and its sync makes it active again. -/
theorem tombstone_lifted_at_boundary :
    commitStages .integersEmptyRoot idleMachines zeroCommitments (fun _ => none) (fun _ => none) .none
        .none (plainBlock 345599 0) (lapsedState []) = plainCommit 345599 ∧
      commitStages .integersEmptyRoot idleMachines zeroCommitments (fun _ => none) (fun _ => none) .none
        .none (plainBlock 345600 0) (lapsedState (plainCommit 345599)) = plainCommit 345600 ∧
      (lapsedState (plainCommit 345599 ++ plainCommit 345600)).vs.statusOf 5 = some .active ∧
      ¬ TombstonesForever lapsedStep lapsedStart
        (.rehydrate (fun _ => none) :: (plainCommit 345599 ++ plainCommit 345600)) := by
  have htomb : (lapsedState (plainCommit 345599 ++ [.tick (fun _ => none) 345600])).vs.Tombstoned 5 := by
    unfold Tombstoned
    decide +kernel
  have hlifted : (lapsedState (plainCommit 345599 ++ plainCommit 345600)).vs.statusOf 5 =
      some .active := by decide +kernel
  refine ⟨commitStages_ok (by decide +kernel),commitStages_ok (by decide +kernel),hlifted,?_⟩
  intro hforever
  let ticked : List Stage := .rehydrate (fun _ => none) :: (plainCommit 345599 ++
    [.tick (fun _ => none) 345600])
  let rest : List Stage := [.execute .none .none (plainBlock 345600 0),.sync 345600]
  have hsplit : ticked ++ rest = .rehydrate (fun _ => none) :: (plainCommit 345599 ++
    plainCommit 345600) := rfl
  have hkept := (hforever ticked rest [] (by rw [hsplit, List.append_nil]) 5 htomb).1
  rw [hsplit, Tombstoned] at hkept
  rw [lapsedState, hkept] at hlifted
  exact absurd hlifted (by decide)

end Lapsed

end ZbxChain.Staking
