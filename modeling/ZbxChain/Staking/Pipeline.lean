import ZbxChain.Foundation.Stateful
import ZbxChain.Staking.SlashingRegistry

/-! # The slashing pipeline: from evidence to a burnt stake

The pipeline shares the validators with the rest of the node. Its evidence store is on disk,
and every operation on it may fail: `fault n` is the error of the `n`-th, if there is one.
-/
namespace ZbxChain.Staking

inductive BondKind where
  | whistleblower
  | appeal
  deriving DecidableEq

structure BondEntry where
  wei : ℕ
  kind : BondKind
  deriving DecidableEq

def appealBondWei : ℕ := 1000 * 10 ^ 18

def stakingGasFileAppeal : UInt64 := 150000

structure EvidenceStore where
  evidence : Table H256 EquivocationEvidence
  records : Table H256 SlashEvidenceRecord
  bonds : Table (H256 × Address) BondEntry

namespace EvidenceStore

/-- The records in the order of their keys. -/
def allRecords (store : EvidenceStore) : List SlashEvidenceRecord :=
  (StableSort.sortDesc (fun e : (Σ _ : H256, SlashEvidenceRecord) => OrderDual.toDual e.1.toNat)
    store.records.entries).map Sigma.snd

def bondsForRecord (store : EvidenceStore) (recordId : H256) : List (Address × BondEntry) :=
  (StableSort.sortDesc (fun e : Address × BondEntry => OrderDual.toDual e.1.toNat)
    ((store.bonds.entries.filter (fun e => e.1.1 = recordId)).map (fun e => (e.1.2,e.2))))

end EvidenceStore

structure SlashingPipeline where
  store : EvidenceStore
  registry : SlashingRegistryV2
  validators : ValidatorSet
  /-- The storage operations so far. -/
  operations : ℕ

structure AppliedSlash where
  recordId : H256
  offender : Address
  burnWei : ℕ
  whistleblowerWei : ℕ
  splits : List (Address × ℕ)
  jailed : Bool
  tombstoned : Bool

structure AppliedOverturn where
  recordId : H256
  offender : Address
  refundedWei : ℕ
  appealBondRefundedWei : ℕ
  whistleblowerBondsForfeitedWei : ℕ
  unjailed : Bool

/-- The offender of a slash: it loses stake, and its place as a validator. -/
def Validator.slash (v : Validator) (slashWei : ℕ) (forceTombstone : Bool) : Validator :=
  { v with
    selfStake := v.selfStake - min slashWei v.selfStake
    status :=
      match v.status,forceTombstone with
      | .tombstoned,_ => .tombstoned
      | _,true => .tombstoned
      | .active,false => .jailed
      | status,false => status }

/-- `apply_slash_burn_v2`; it tells whether the offender is newly jailed, newly tombstoned. -/
def applySlashBurnV2 (vs : ValidatorSet) (offender : Address) (slashWei : ℕ)
    (splits : List (Address × ℕ)) (forceTombstone : Bool) : ValidatorSet × Bool × Bool :=
  let before := (vs.get offender).map Validator.status
  let slashed := vs.modify offender (fun v => v.slash slashWei forceTombstone)
  let rewarded := splits.foldl (fun vs split => vs.modify split.1
    (fun w => { w with pendingRewards := saturatingAdd128 w.pendingRewards split.2 })) slashed
  ({ rewarded with activeSet := rewarded.activeSet.filter (fun a => a ≠ offender) },
    before = some .active && !forceTombstone,
    before.isSome && before != some .tombstoned && forceTombstone)

/-- What an overturned slash gives back to the offender. Only a jailed one gets out of jail. -/
def Validator.refund (v : Validator) (record : SlashEvidenceRecord) (refundedWei bondWei : ℕ) :
    Validator :=
  { v with
    selfStake := saturatingAdd128 v.selfStake refundedWei
    status := if record.burnApplied && record.jailedBySlash && v.status = .jailed then .pending
      else v.status
    pendingRewards := saturatingAdd128 v.pendingRewards bondWei }

abbrev PipelineM (α : Type) := Stateful StakingError SlashingPipeline α

namespace SlashingPipeline
variable (P : Platform) (sha3 : List UInt8 → H256) (bincode : EquivocationEvidence → List UInt8)
  (fault : ℕ → Option String)

def storageOp (context : String) : PipelineM Unit := do
  let p ← get
  modify (fun p => { p with operations := p.operations + 1 })
  match fault p.operations with
  | some e => throw (.persistence (context ++ e))
  | none => return ()

def putRecord (record : SlashEvidenceRecord) : PipelineM Unit := do
  storageOp fault "record put: "
  modify (fun p => { p with
    store := { p.store with records := p.store.records.insert record.id record } })

def putBond (recordId : H256) (reporter : Address) (bond : BondEntry) : PipelineM Unit := do
  storageOp fault "bond put: "
  modify (fun p => { p with
    store := { p.store with bonds := p.store.bonds.insert (recordId,reporter) bond } })

def deleteBond (recordId : H256) (reporter : Address) : PipelineM Unit := do
  storageOp fault "bond delete: "
  modify (fun p => { p with
    store := { p.store with bonds := p.store.bonds.erase (recordId,reporter) } })

def putEvidence (ev : EquivocationEvidence) : PipelineM Unit := do
  storageOp fault "evidence put: "
  modify (fun p => { p with
    store := { p.store with evidence := p.store.evidence.insert (P.keccak256 (bincode ev)) ev } })

def loadAllRecords : PipelineM (List SlashEvidenceRecord) := do
  storageOp fault "record iter: "
  return (← get).store.allRecords

def loadRecordsReadyToFinalize (currentBlock : UInt64) : PipelineM (List SlashEvidenceRecord) := do
  let records ← loadAllRecords fault
  return records.filter (fun r => r.status = .pending && r.appealDeadline < currentBlock)

def loadRecordsWithUnappliedBurn : PipelineM (List SlashEvidenceRecord) := do
  let records ← loadAllRecords fault
  return records.filter (fun r =>
    slashRecordFormatVersion ≤ r.formatVersion && r.status = .confirmed && !r.burnApplied)

def listBondsForRecord (recordId : H256) : PipelineM (List (Address × BondEntry)) := do
  storageOp fault "bond list: "
  return (← get).store.bondsForRecord recordId

def onRegistry {α : Type} (f : SlashingRegistryV2 → Except StakingError (α × SlashingRegistryV2)) :
    PipelineM α := do
  match f (← get).registry with
  | .error e => throw e
  | .ok (a,registry) =>
    modify (fun p => { p with registry := registry })
    return a

/-- The record of the registry, where the source goes on only if there is one. -/
def currentRecord (id : H256) (missing : String) : PipelineM SlashEvidenceRecord := do
  match (← get).registry.getRecord id with
  | none => throw (.persistence missing)
  | some record => return record

def evidenceToDoubleSign (ev : EquivocationEvidence) : SlashEvidenceV2 :=
  .doubleSign
    { height := ev.voteA.data.blockNumber
      round := ev.round
      phase := ev.phase
      blockA := ev.voteA.data.blockHash
      blockB := ev.voteB.data.blockHash
      sigA := ev.voteA.signature
      sigB := ev.voteB.signature
      validator := ev.validator
      validatorBlsPubkey := ev.pubkey }

def ingestEquivocation (ev : EquivocationEvidence) (submitter : Address)
    (currentBlock currentEpoch : UInt64) (offenderStake : ℕ) : PipelineM H256 := do
  if !ev.verify P then
    throw (.invalidEvidence "evidence failed BLS / structural re-verification")
  putEvidence P bincode fault ev
  let outcome ← onRegistry (fun reg => reg.submitEvidence sha3 (evidenceToDoubleSign ev) submitter
    currentBlock currentEpoch offenderStake)
  let record ← currentRecord outcome.recordId "submitted record vanished from registry"
  match outcome with
  | .newRecord id | .coWitnessAdded id =>
    putRecord fault record
    putBond fault id submitter ⟨0,.whistleblower⟩
    return id
  | .alreadyRecorded id => return id

def dispatchFileAppealTx (evidenceId : H256) (sender : Address) (sentValueWei : ℕ)
    (currentHeight : UInt64) : PipelineM UInt64 := do
  if sentValueWei ≠ appealBondWei then throw (.appealBondMismatch sentValueWei appealBondWei)
  let updatedRecord ← onRegistry (fun reg => reg.fileAppealForTx evidenceId sender currentHeight)
  putBond fault evidenceId sender ⟨appealBondWei,.appeal⟩
  putRecord fault updatedRecord
  return stakingGasFileAppeal

/-- The guard of the replay: what may already have been burnt is not burnt again. -/
def alreadySlashed (vs : ValidatorSet) (rec : SlashEvidenceRecord) : Bool :=
  match vs.get rec.offender with
  | none => true
  | some v =>
    v.selfStake < rec.finalSlashWei ||
      (rec.jailedBySlash && (v.status = .jailed || v.status = .tombstoned)) ||
      v.status ≠ .active

/-- The burn of a confirmed slash, and the mark on its record that it is done. -/
def burnAndMark (rec : SlashEvidenceRecord) (evidenceType : EvidenceType) (finalized : FinalizedSlash) :
    PipelineM AppliedSlash := do
  let p ← get
  let forceTombstone := 2 ≤ p.registry.lifetimeConfirmedSlashes rec.offender ||
    evidenceType = .invalidBlock
  let (validators,jailed,tombstoned) :=
    applySlashBurnV2 p.validators rec.offender finalized.slashWei finalized.splits forceTombstone
  let burnt := p.registry.setBurnApplied rec.id
  let registry := if jailed || tombstoned then burnt.setJailedBySlash rec.id true else burnt
  modify (fun p => { p with validators := validators, registry := registry })
  match registry.getRecord rec.id with
  | some marked => putRecord fault marked
  | none => pure ()
  return ⟨rec.id,rec.offender,finalized.slashWei,finalized.totalReward,finalized.splits,jailed,tombstoned⟩

/-- A confirmed record whose burn is not known to have been applied. -/
def replayBurn (currentBlock : UInt64) (rec : SlashEvidenceRecord) : PipelineM (Option AppliedSlash) := do
  if currentBlock ≤ rec.appealDeadline then return none
  if alreadySlashed (← get).validators rec then
    modify (fun p => { p with registry := p.registry.setBurnApplied rec.id })
    match (← get).registry.getRecord rec.id with
    | some marked => (putRecord fault marked).ignoring
    | none => pure ()
    return none
  return some (← burnAndMark fault rec rec.evidenceType (recomputeSplits rec))

def finalizeRecord (currentBlock : UInt64) (rec : SlashEvidenceRecord) :
    PipelineM (Option AppliedSlash) := do
  match ← onRegistry (fun reg => reg.finalizeSlash rec.id currentBlock) with
  | none => return none
  | some finalized =>
    let r ← currentRecord rec.id "post-finalize record vanished from registry"
    putRecord fault r
    return some (← burnAndMark fault rec r.evidenceType finalized)

/-- `tick_finalize`: the burns left over, then the records whose appeal window has closed. -/
def tickFinalize (currentBlock : UInt64) : PipelineM (List AppliedSlash) := do
  let toReplay ← loadRecordsWithUnappliedBurn fault
  let replayed ← toReplay.mapM (replayBurn fault currentBlock)
  let ready ← loadRecordsReadyToFinalize fault currentBlock
  let finalized ← ready.mapM (finalizeRecord fault currentBlock)
  return (replayed ++ finalized).reduceOption

def bondTotal (kind : BondKind) (bonds : List (Address × BondEntry)) : ℕ :=
  ((bonds.filter (fun b => b.2.kind = kind)).map (fun b => b.2.wei)).foldl saturatingAdd128 0

def refundAndMark (evidenceId : H256) (record : SlashEvidenceRecord) (bonds : List (Address × BondEntry)) :
    PipelineM AppliedOverturn := do
  let p ← get
  let refundedWei := if record.burnApplied then record.finalSlashWei else 0
  let appealBondRefunded := bondTotal .appeal bonds
  let unjailed := record.burnApplied && record.jailedBySlash &&
    (p.validators.get record.offender).map Validator.status = some .jailed
  modify (fun p => { p with
    validators := p.validators.modify record.offender
      (fun v => v.refund record refundedWei appealBondRefunded) })
  let _ ← onRegistry (fun reg => reg.overturnSlash evidenceId)
  let updated ← currentRecord evidenceId "overturned record vanished from registry"
  putRecord fault updated
  let _ ← bonds.mapM (fun b => (deleteBond fault evidenceId b.1).ignoring)
  return ⟨evidenceId,record.offender,refundedWei,appealBondRefunded,
    bondTotal .whistleblower bonds,unjailed⟩

def overturnAndRefund (evidenceId : H256) : PipelineM AppliedOverturn := do
  match (← get).registry.getRecord evidenceId with
  | none => throw .evidenceNotFound
  | some record =>
    if record.status ≠ .appealed then throw .overturnNotAllowed
    let bonds ← listBondsForRecord fault evidenceId
    refundAndMark fault evidenceId record bonds

def rehydrateFromDisk : PipelineM ℕ := do
  let records ← loadAllRecords fault
  modify (fun p => { p with
    registry := records.foldl (fun reg r => reg.insertRehydratedRecord r) p.registry })
  return records.length

open Stateful

section Runs
variable {fault} {p : SlashingPipeline} {context : String} {e : String}

theorem exec_storageOp_of_none (h : fault p.operations = none) :
    (storageOp fault context).exec p = (.ok (),{ p with operations := p.operations + 1 }) := by
  simp only [storageOp, exec_bind, exec_get, exec_modify, h, exec_pure]

theorem exec_storageOp_of_some (h : fault p.operations = some e) :
    (storageOp fault context).exec p =
      (.error (.persistence (context ++ e)),{ p with operations := p.operations + 1 }) := by
  simp only [storageOp, exec_bind, exec_get, exec_modify, h, exec_throw]

theorem exec_putRecord_of_none (h : fault p.operations = none) (record : SlashEvidenceRecord) :
    (putRecord fault record).exec p = (.ok (),{ p with
      store := { p.store with records := p.store.records.insert record.id record }
      operations := p.operations + 1 }) := by
  simp only [putRecord, exec_bind, exec_storageOp_of_none h, exec_modify]

theorem exec_putRecord_of_some (h : fault p.operations = some e) (record : SlashEvidenceRecord) :
    (putRecord fault record).exec p =
      (.error (.persistence ("record put: " ++ e)),{ p with operations := p.operations + 1 }) := by
  simp only [putRecord, exec_bind, exec_storageOp_of_some h]

theorem exec_putBond_of_none (h : fault p.operations = none) (recordId : H256) (reporter : Address)
    (bond : BondEntry) :
    (putBond fault recordId reporter bond).exec p = (.ok (),{ p with
      store := { p.store with bonds := p.store.bonds.insert (recordId,reporter) bond }
      operations := p.operations + 1 }) := by
  simp only [putBond, exec_bind, exec_storageOp_of_none h, exec_modify]

theorem exec_putBond_of_some (h : fault p.operations = some e) (recordId : H256) (reporter : Address)
    (bond : BondEntry) :
    (putBond fault recordId reporter bond).exec p =
      (.error (.persistence ("bond put: " ++ e)),{ p with operations := p.operations + 1 }) := by
  simp only [putBond, exec_bind, exec_storageOp_of_some h]

/-- An operation on the registry leaves the rest of the pipeline. -/
theorem exec_onRegistry {α : Type}
    (f : SlashingRegistryV2 → Except StakingError (α × SlashingRegistryV2)) (p : SlashingPipeline) :
    (onRegistry f).exec p = match f p.registry with
      | .error e => (.error e,p)
      | .ok (a,registry) => (.ok a,{ p with registry := registry }) := by
  simp only [onRegistry, exec_bind, exec_get]
  cases f p.registry with
  | error e => rfl
  | ok r => rfl

end Runs

end SlashingPipeline

end ZbxChain.Staking
