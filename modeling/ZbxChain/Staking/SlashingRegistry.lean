import ZbxChain.Staking.Validator

/-! # Slash evidence records and their registry

A record is pending until its appeal window has closed, and then confirmed, unless it is
appealed before. The arithmetic of the source that may leave 128 bits wraps.
-/
namespace ZbxChain.Staking

def appealWindowBlocks : UInt64 := 172800

def whistleblowerRewardBps : ℕ := 500

def epochLength : UInt64 := 172800

inductive EvidenceType where
  | doubleSign
  | livenessFault
  | consecutiveMiss
  | invalidBlock
  | surrogateVote
  deriving DecidableEq

inductive EvidenceStatus where
  | pending
  | appealed
  | confirmed
  | rejected
  | overturned
  deriving DecidableEq

structure DoubleSignProof where
  height : UInt64
  round : UInt64
  phase : UInt8
  blockA : H256
  blockB : H256
  sigA : BlsSignature
  sigB : BlsSignature
  validator : Address
  validatorBlsPubkey : BlsPubKey
  deriving DecidableEq

inductive SlashEvidenceV2 where
  | doubleSign (proof : DoubleSignProof)
  | livenessFault (epoch missed total : UInt64)
  | consecutiveMiss (fromBlock count : UInt64)
  | invalidBlock (blockHash : H256) (proposer : Address)
  | surrogateVote (voteHash blockA blockB : H256) (validator : Address)
  deriving DecidableEq

namespace SlashEvidenceV2

def evidenceType : SlashEvidenceV2 → EvidenceType
  | doubleSign _ => .doubleSign
  | livenessFault _ _ _ => .livenessFault
  | consecutiveMiss _ _ => .consecutiveMiss
  | invalidBlock _ _ => .invalidBlock
  | surrogateVote _ _ _ _ => .surrogateVote

def offender : SlashEvidenceV2 → Option Address
  | doubleSign proof => some proof.validator
  | invalidBlock _ proposer => some proposer
  | surrogateVote _ _ _ validator => some validator
  | livenessFault _ _ _ | consecutiveMiss _ _ => none

end SlashEvidenceV2

structure SlashEvidenceRecord where
  id : H256
  evidenceType : EvidenceType
  offender : Address
  submittedBy : Address
  submitBlock : UInt64
  evidence : SlashEvidenceV2
  status : EvidenceStatus
  baseSlashWei : ℕ
  finalSlashWei : ℕ
  appealDeadline : UInt64
  reporters : List Address
  jailedBySlash : Bool
  burnApplied : Bool
  formatVersion : UInt8
  deriving DecidableEq

def slashRecordFormatVersion : UInt8 := 1

def EvidenceType.discriminant : EvidenceType → UInt8
  | doubleSign => 0
  | livenessFault => 1
  | consecutiveMiss => 2
  | invalidBlock => 3
  | surrogateVote => 4

/-- `compute_id_for_offender`, over the hash that it takes, SHA3-256. -/
def computeIdForOffender (sha3 : List UInt8 → H256) (offender : Address) (submitBlock : UInt64)
    (evidenceType : EvidenceType) : H256 :=
  sha3 (offender.asBytes ++ (beBytes64 submitBlock).reverse ++ [evidenceType.discriminant])

def baseSlashBps : EvidenceType → ℕ
  | .doubleSign => 500
  | .livenessFault => 1
  | .consecutiveMiss => 100
  | .invalidBlock => 2000
  | .surrogateVote => 500

def correlatedSlashBps (baseBps : ℕ) (nSlashedThisEpoch nTotalValidators : UInt64) : ℕ :=
  if nTotalValidators = 0 then baseBps else
    let ratioBps := nSlashedThisEpoch.toNat * 10000 / nTotalValidators.toNat
    let factorFp := 10000 + 3 * ratioBps
    let factorSq := wrap128 (factorFp * factorFp) / 10000
    min (wrap128 (baseBps * factorSq) / 10000) 10000

theorem baseSlashBps_le (kind : EvidenceType) : baseSlashBps kind ≤ 2000 := by
  cases kind with
  | doubleSign | livenessFault | consecutiveMiss | invalidBlock | surrogateVote => decide

theorem correlatedSlashBps_le {baseBps : ℕ} {k N : UInt64} (h : baseBps ≤ 10000) :
    correlatedSlashBps baseBps k N ≤ 10000 := by
  unfold correlatedSlashBps
  split
  · exact h
  · exact min_le_right _ _

def slashAmountWei (stakeWei slashBps : ℕ) : ℕ :=
  match checkedMul128 stakeWei slashBps with
  | some p => p / 10000
  | none => min (stakeWei / 10000 * slashBps) maxU128

inductive SubmitOutcome where
  | newRecord (id : H256)
  | coWitnessAdded (id : H256)
  | alreadyRecorded (id : H256)
  deriving DecidableEq

def SubmitOutcome.recordId : SubmitOutcome → H256
  | newRecord id | coWitnessAdded id | alreadyRecorded id => id

structure FinalizedSlash where
  slashWei : ℕ
  totalReward : ℕ
  splits : List (Address × ℕ)

/-- `recompute_splits`: the reward in equal parts among the reporters, each counted once and
the smaller address first. -/
def recomputeSplits (record : SlashEvidenceRecord) : FinalizedSlash :=
  let totalReward := wrap128 (record.finalSlashWei * whistleblowerRewardBps) / 10000
  let allReporters := StableSort.sortDesc (fun a : Address => OrderDual.toDual a.toNat)
    (record.submittedBy :: record.reporters).dedup
  let perReporter := totalReward / allReporters.length
  ⟨record.finalSlashWei,totalReward,allReporters.map (fun r => (r,perReporter))⟩

structure SlashingRegistryV2 where
  records : Table H256 SlashEvidenceRecord
  epochSlashCount : Table (UInt64 × Address) UInt64
  totalValidators : UInt64

namespace SlashingRegistryV2

def new (totalValidators : UInt64) : SlashingRegistryV2 := ⟨∅,∅,totalValidators⟩

def getRecord (reg : SlashingRegistryV2) (id : H256) : Option SlashEvidenceRecord := reg.records.lookup id

def update (reg : SlashingRegistryV2) (id : H256) (f : SlashEvidenceRecord → SlashEvidenceRecord) :
    SlashingRegistryV2 := { reg with records := reg.records.modify id f }

def submitEvidence (sha3 : List UInt8 → H256) (reg : SlashingRegistryV2) (evidence : SlashEvidenceV2)
    (submittedBy : Address) (currentBlock currentEpoch : UInt64) (offenderStake : ℕ) :
    Except StakingError (SubmitOutcome × SlashingRegistryV2) :=
  match evidence.offender with
  | none => .error (.invalidEvidence "cannot determine offender")
  | some offender =>
    let evidenceType := evidence.evidenceType
    let id := computeIdForOffender sha3 offender currentBlock evidenceType
    match reg.getRecord id with
    | some existing =>
      if existing.status ≠ .pending then .ok (.alreadyRecorded id,reg)
      else if existing.submittedBy = submittedBy ∨ submittedBy ∈ existing.reporters then
        .ok (.alreadyRecorded id,reg)
      else .ok (.coWitnessAdded id,
        reg.update id (fun r => { r with reporters := r.reporters ++ [submittedBy] }))
    | none =>
      let nSlashed := (reg.epochSlashCount.lookup (currentEpoch,offender)).getD 0 + 1
      let baseBps := baseSlashBps evidenceType
      let corrBps := correlatedSlashBps baseBps nSlashed reg.totalValidators
      let record : SlashEvidenceRecord :=
        { id := id
          evidenceType := evidenceType
          offender := offender
          submittedBy := submittedBy
          submitBlock := currentBlock
          evidence := evidence
          status := .pending
          baseSlashWei := slashAmountWei offenderStake baseBps
          finalSlashWei := slashAmountWei offenderStake corrBps
          appealDeadline := currentBlock + appealWindowBlocks
          reporters := []
          jailedBySlash := false
          burnApplied := false
          formatVersion := slashRecordFormatVersion }
      .ok (.newRecord id,{ reg with records := reg.records.insert id record })

def setJailedBySlash (reg : SlashingRegistryV2) (id : H256) (jailed : Bool) : SlashingRegistryV2 :=
  reg.update id (fun r => { r with jailedBySlash := jailed })

def setBurnApplied (reg : SlashingRegistryV2) (id : H256) : SlashingRegistryV2 :=
  reg.update id (fun r => { r with burnApplied := true })

def fileAppeal (reg : SlashingRegistryV2) (evidenceId : H256) (currentBlock : UInt64) :
    Except StakingError SlashingRegistryV2 :=
  match reg.getRecord evidenceId with
  | none => .error .evidenceNotFound
  | some record =>
    if record.status ≠ .pending then .error .appealNotAllowed
    else if record.appealDeadline < currentBlock then .error .appealWindowExpired
    else .ok (reg.update evidenceId (fun r => { r with status := .appealed }))

/-- `file_appeal_for_tx`, with the record as it has become. -/
def fileAppealForTx (reg : SlashingRegistryV2) (evidenceId : H256) (sender : Address)
    (currentBlock : UInt64) : Except StakingError (SlashEvidenceRecord × SlashingRegistryV2) :=
  match reg.getRecord evidenceId with
  | none => .error .evidenceNotFound
  | some record =>
    if record.offender ≠ sender then .error .appealNotByOffender
    else match reg.fileAppeal evidenceId currentBlock with
      | .error e => .error e
      | .ok reg => .ok ({ record with status := .appealed },reg)

/-- `finalize_slash`; nothing is finalized unless the record is pending and its window closed. -/
def finalizeSlash (reg : SlashingRegistryV2) (evidenceId : H256) (currentBlock : UInt64) :
    Except StakingError (Option FinalizedSlash × SlashingRegistryV2) :=
  match reg.getRecord evidenceId with
  | none => .error .evidenceNotFound
  | some record =>
    if record.status ≠ .pending then .ok (none,reg)
    else if currentBlock ≤ record.appealDeadline then .ok (none,reg)
    else .ok (some (recomputeSplits record),reg.update evidenceId (fun r => { r with
      status := .confirmed
      formatVersion := slashRecordFormatVersion
      burnApplied := false }))

def overturnSlash (reg : SlashingRegistryV2) (evidenceId : H256) :
    Except StakingError (ℕ × SlashingRegistryV2) :=
  match reg.getRecord evidenceId with
  | none => .error .evidenceNotFound
  | some record =>
    if record.status ≠ .appealed then .error .overturnNotAllowed
    else .ok (record.finalSlashWei,reg.update evidenceId (fun r => { r with status := .overturned }))

def rejectAppeal (reg : SlashingRegistryV2) (evidenceId : H256) :
    Except StakingError (ℕ × SlashingRegistryV2) :=
  match reg.getRecord evidenceId with
  | none => .error .evidenceNotFound
  | some record =>
    if record.status ≠ .appealed then .error .overturnNotAllowed
    else .ok (record.finalSlashWei,reg.update evidenceId (fun r => { r with status := .confirmed }))

def lifetimeConfirmedSlashes (reg : SlashingRegistryV2) (offender : Address) : ℕ :=
  (reg.records.values.filter (fun r => r.status = .confirmed && r.offender = offender)).length

def insertRehydratedRecord (reg : SlashingRegistryV2) (record : SlashEvidenceRecord) :
    SlashingRegistryV2 :=
  let counted := match record.status with
    | .confirmed | .pending | .appealed =>
      let key := (record.submitBlock / epochLength,record.offender)
      reg.epochSlashCount.insert key ((reg.epochSlashCount.lookup key).getD 0 + 1)
    | .rejected | .overturned => reg.epochSlashCount
  { reg with epochSlashCount := counted, records := reg.records.insert record.id record }

end SlashingRegistryV2

end ZbxChain.Staking
