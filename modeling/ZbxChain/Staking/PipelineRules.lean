import ZbxChain.Staking.Pipeline

/-! # What the pipeline keeps of the validators, and the log of its burns

It changes them in two places, where a slash is burnt and where one is given back. A relation
that both keep, every operation of the pipeline keeps.

The pipeline forgets what it has burnt when an operation of the store fails later in the same
tick. So every burn is logged beside the state, and the log is erased by the theorems that say
that the logged tick is the tick.
-/
namespace ZbxChain.Staking
open SlashingPipeline Stateful

/-- Two pipelines whose validators stand in the relation. -/
def OnValidators (R : ValidatorSet → ValidatorSet → Prop) (p p' : SlashingPipeline) : Prop :=
  R p.validators p'.validators

/-- What a burn and a refund keep. -/
structure Slashes (R : ValidatorSet → ValidatorSet → Prop) : Prop where
  burn : ∀ vs offender slashWei splits forceTombstone,
    R vs (applySlashBurnV2 vs offender slashWei splits forceTombstone).1
  refund : ∀ (vs : ValidatorSet) (record : SlashEvidenceRecord) (refundedWei bondWei : ℕ),
    R vs (vs.modify record.offender (fun v => v.refund record refundedWei bondWei))

section Pipeline
variable {P : Platform} {sha3 : List UInt8 → H256} {bincode : EquivocationEvidence → List UInt8}
  {fault : ℕ → Option String} {R : ValidatorSet → ValidatorSet → Prop} [Std.Refl R]
  [IsTrans ValidatorSet R]

instance : Std.Refl (OnValidators R) := ⟨fun p => refl_of R p.validators⟩
instance : IsTrans SlashingPipeline (OnValidators R) := ⟨fun _ _ _ h h' => trans_of R h h'⟩

omit [IsTrans ValidatorSet R] in
theorem onValidators_of_eq {p p' : SlashingPipeline} (h : p'.validators = p.validators) :
    OnValidators R p p' := by
  rw [OnValidators, h]
  exact refl_of R p.validators

omit [IsTrans ValidatorSet R] in
/-- An operation that leaves the validators alone keeps every relation on them. -/
theorem kept_elsewhere {f : SlashingPipeline → SlashingPipeline}
    (h : ∀ p : SlashingPipeline, (f p).validators = p.validators) :
    Keeps (OnValidators R) (modify f : PipelineM Unit) :=
  Keeps.modify fun p => onValidators_of_eq (h p)

theorem kept_storageOp (context : String) : Keeps (OnValidators R) (storageOp fault context) := by
  refine Keeps.get.bind fun p => Keeps.bind (kept_elsewhere ?_) fun _ => ?_
  · exact fun _ => rfl
  · cases fault p.operations with
    | none => exact .pure ()
    | some e => exact .throw _

theorem kept_putRecord (record : SlashEvidenceRecord) :
    Keeps (OnValidators R) (putRecord fault record) := by
  refine (kept_storageOp _).bind fun _ => kept_elsewhere ?_
  exact fun _ => rfl

theorem kept_putBond (recordId : H256) (reporter : Address) (bond : BondEntry) :
    Keeps (OnValidators R) (putBond fault recordId reporter bond) := by
  refine (kept_storageOp _).bind fun _ => kept_elsewhere ?_
  exact fun _ => rfl

theorem kept_deleteBond (recordId : H256) (reporter : Address) :
    Keeps (OnValidators R) (deleteBond fault recordId reporter) := by
  refine (kept_storageOp _).bind fun _ => kept_elsewhere ?_
  exact fun _ => rfl

theorem kept_putEvidence (ev : EquivocationEvidence) :
    Keeps (OnValidators R) (putEvidence P bincode fault ev) := by
  refine (kept_storageOp _).bind fun _ => kept_elsewhere ?_
  exact fun _ => rfl

theorem kept_loadAllRecords : Keeps (OnValidators R) (loadAllRecords fault) :=
  (kept_storageOp _).bind fun _ => Keeps.get.bind fun _ => .pure _

theorem kept_listBonds (recordId : H256) :
    Keeps (OnValidators R) (listBondsForRecord fault recordId) :=
  (kept_storageOp _).bind fun _ => Keeps.get.bind fun _ => .pure _

theorem kept_onRegistry {α : Type}
    (f : SlashingRegistryV2 → Except StakingError (α × SlashingRegistryV2)) :
    Keeps (OnValidators R) (onRegistry f) := by
  refine Keeps.get.bind fun p => ?_
  cases f p.registry with
  | error e => exact .throw e
  | ok r =>
    refine Keeps.bind (kept_elsewhere ?_) fun _ => .pure r.1
    exact fun _ => rfl

theorem kept_currentRecord (id : H256) (missing : String) :
    Keeps (OnValidators R) (currentRecord id missing) := by
  refine Keeps.get.bind fun p => ?_
  cases p.registry.getRecord id with
  | none => exact .throw _
  | some record => exact .pure _

theorem kept_ingestEquivocation (ev : EquivocationEvidence) (submitter : Address)
    (currentBlock currentEpoch : UInt64) (offenderStake : ℕ) :
    Keeps (OnValidators R)
      (ingestEquivocation P sha3 bincode fault ev submitter currentBlock currentEpoch offenderStake) := by
  unfold ingestEquivocation
  refine .guarded ((kept_putEvidence ev).bind fun _ => (kept_onRegistry _).bind fun outcome =>
    (kept_currentRecord _ _).bind fun record => ?_)
  cases outcome with
  | newRecord id =>
    exact (kept_putRecord record).bind fun _ => (kept_putBond id submitter _).bind fun _ => .pure id
  | coWitnessAdded id =>
    exact (kept_putRecord record).bind fun _ => (kept_putBond id submitter _).bind fun _ => .pure id
  | alreadyRecorded id => exact .pure id

theorem kept_dispatchFileAppealTx (evidenceId : H256) (sender : Address) (sentValueWei : ℕ)
    (currentHeight : UInt64) :
    Keeps (OnValidators R)
      (dispatchFileAppealTx fault evidenceId sender sentValueWei currentHeight) := by
  unfold dispatchFileAppealTx
  refine .guarded ((kept_onRegistry _).bind fun updatedRecord =>
    (kept_putBond evidenceId sender _).bind fun _ => ?_)
  exact (kept_putRecord updatedRecord).bind fun _ => .pure stakingGasFileAppeal

omit [Std.Refl R] in
theorem onValidators_exec {α : Type} {m : PipelineM α} {p q : SlashingPipeline}
    (hq : R p.validators q.validators) (hm : Keeps (OnValidators R) m) :
    OnValidators R p (m.exec q).2 := trans_of R hq (hm q)

theorem kept_burnAndMark (hR : Slashes R) (rec : SlashEvidenceRecord) (evidenceType : EvidenceType)
    (finalized : FinalizedSlash) :
    Keeps (OnValidators R) (burnAndMark fault rec evidenceType finalized) := by
  intro p
  unfold burnAndMark
  rw [exec_bind, exec_get]
  dsimp only
  rw [exec_bind, exec_modify]
  dsimp only
  have hburn : R p.validators (applySlashBurnV2 p.validators rec.offender finalized.slashWei
      finalized.splits (2 ≤ p.registry.lifetimeConfirmedSlashes rec.offender ||
        evidenceType = .invalidBlock)).1 := hR.burn _ _ _ _ _
  refine onValidators_exec hburn ?_
  split
  · exact (kept_putRecord _).bind fun _ => .pure _
  · exact .pure _

theorem kept_replayBurn (hR : Slashes R) (currentBlock : UInt64) (rec : SlashEvidenceRecord) :
    Keeps (OnValidators R) (replayBurn fault currentBlock rec) := by
  unfold replayBurn
  split
  · exact .pure none
  · refine Keeps.get.bind fun p => ?_
    split
    · refine Keeps.bind (kept_elsewhere ?_) fun _ => Keeps.get.bind fun q => ?_
      · exact fun _ => rfl
      · split
        · exact (kept_putRecord _).ignoring.bind fun _ => .pure none
        · exact (Keeps.pure ()).bind fun _ => .pure none
    · exact (kept_burnAndMark hR rec _ _).bind fun _ => .pure _

theorem kept_finalizeRecord (hR : Slashes R) (currentBlock : UInt64) (rec : SlashEvidenceRecord) :
    Keeps (OnValidators R) (finalizeRecord fault currentBlock rec) := by
  refine (kept_onRegistry _).bind fun finalized => ?_
  cases finalized with
  | none => exact .pure none
  | some finalized =>
    exact (kept_currentRecord _ _).bind fun r => (kept_putRecord r).bind fun _ =>
      (kept_burnAndMark hR rec _ _).bind fun _ => .pure _

theorem kept_tickFinalize (hR : Slashes R) (currentBlock : UInt64) :
    Keeps (OnValidators R) (tickFinalize fault currentBlock) := by
  unfold tickFinalize loadRecordsWithUnappliedBurn loadRecordsReadyToFinalize
  refine (kept_loadAllRecords.bind fun _ => .pure _).bind fun toReplay => ?_
  refine (Keeps.mapM (kept_replayBurn hR currentBlock) toReplay).bind fun replayed => ?_
  refine (kept_loadAllRecords.bind fun _ => .pure _).bind fun ready => ?_
  exact (Keeps.mapM (kept_finalizeRecord hR currentBlock) ready).bind fun _ => .pure _

theorem kept_refundAndMark (hR : Slashes R) (evidenceId : H256) (record : SlashEvidenceRecord)
    (bonds : List (Address × BondEntry)) :
    Keeps (OnValidators R) (refundAndMark fault evidenceId record bonds) := by
  intro p
  unfold refundAndMark
  rw [exec_bind, exec_get]
  dsimp only
  rw [exec_bind, exec_modify]
  dsimp only
  refine onValidators_exec (hR.refund _ record _ _) ?_
  refine (kept_onRegistry _).bind fun _ => (kept_currentRecord _ _).bind fun updated => ?_
  refine (kept_putRecord updated).bind fun _ => Keeps.bind (Keeps.mapM ?_ bonds) fun _ => .pure _
  exact fun b => (kept_deleteBond evidenceId b.1).ignoring

theorem kept_overturnAndRefund (hR : Slashes R) (evidenceId : H256) :
    Keeps (OnValidators R) (overturnAndRefund fault evidenceId) := by
  refine Keeps.get.bind fun p => ?_
  cases p.registry.getRecord evidenceId with
  | none => exact .throw _
  | some record =>
    exact .guarded ((kept_listBonds evidenceId).bind fun bonds => kept_refundAndMark hR evidenceId record bonds)

end Pipeline

/-- One execution of `apply_slash_burn_v2`. -/
structure Burn where
  recordId : H256
  offender : Address
  slashWei : ℕ
  /-- What the offender has lost of its self stake. -/
  lostWei : ℕ
  splits : List (Address × ℕ)
  deriving DecidableEq

def burnOf (rec : SlashEvidenceRecord) (finalized : FinalizedSlash) (p : SlashingPipeline) : Burn where
  recordId := rec.id
  offender := rec.offender
  slashWei := finalized.slashWei
  lostWei := min finalized.slashWei (((p.validators.get rec.offender).map Validator.selfStake).getD 0)
  splits := finalized.splits

/-- The pipeline and its burns so far. -/
abbrev SlashingState := SlashingPipeline × List Burn

abbrev BurnM (α : Type) := Stateful StakingError SlashingState α

namespace SlashingPipeline
variable (fault : ℕ → Option String)

def burnAndMarkLogged (rec : SlashEvidenceRecord) (evidenceType : EvidenceType) (finalized : FinalizedSlash) :
    BurnM AppliedSlash := do
  tell (burnOf rec finalized)
  (burnAndMark fault rec evidenceType finalized).logged

def replayBurnLogged (currentBlock : UInt64) (rec : SlashEvidenceRecord) : BurnM (Option AppliedSlash) := do
  let s ← get
  if currentBlock ≤ rec.appealDeadline ∨ alreadySlashed s.1.validators rec then
    (replayBurn fault currentBlock rec).logged
  else
    return some (← burnAndMarkLogged fault rec rec.evidenceType (recomputeSplits rec))

def finalizeRecordLogged (currentBlock : UInt64) (rec : SlashEvidenceRecord) :
    BurnM (Option AppliedSlash) := do
  match ← (onRegistry (fun reg => reg.finalizeSlash rec.id currentBlock)).logged with
  | none => return none
  | some finalized =>
    let r ← (currentRecord rec.id "post-finalize record vanished from registry").logged
    (putRecord fault r).logged
    return some (← burnAndMarkLogged fault rec r.evidenceType finalized)

def tickFinalizeLogged (currentBlock : UInt64) : BurnM (List AppliedSlash) := do
  let toReplay ← (loadRecordsWithUnappliedBurn fault).logged
  let replayed ← toReplay.mapM (replayBurnLogged fault currentBlock)
  let ready ← (loadRecordsReadyToFinalize fault currentBlock).logged
  let finalized ← ready.mapM (finalizeRecordLogged fault currentBlock)
  return (replayed ++ finalized).reduceOption

section Erasure
variable {fault}

theorem erases_burnAndMark (rec : SlashEvidenceRecord) (evidenceType : EvidenceType)
    (finalized : FinalizedSlash) :
    Erases (burnAndMarkLogged fault rec evidenceType finalized) (burnAndMark fault rec evidenceType finalized) :=
  (Erases.logged _).tell_then

theorem erases_replayBurn (currentBlock : UInt64) (rec : SlashEvidenceRecord) :
    Erases (replayBurnLogged fault currentBlock rec) (replayBurn fault currentBlock rec) := by
  intro s
  unfold replayBurnLogged
  rw [exec_bind, exec_get]
  dsimp only
  split
  · rfl
  · rename_i h
    rw [not_or] at h
    have hburn : Erases (some <$> burnAndMarkLogged fault rec rec.evidenceType (recomputeSplits rec))
        (some <$> burnAndMark fault rec rec.evidenceType (recomputeSplits rec)) :=
      (erases_burnAndMark rec rec.evidenceType (recomputeSplits rec)).bind fun a => .pure (some a)
    refine (hburn s).trans ?_
    unfold replayBurn
    simp [exec_bind, h.1, h.2]

theorem erases_finalizeRecord (currentBlock : UInt64) (rec : SlashEvidenceRecord) :
    Erases (finalizeRecordLogged fault currentBlock rec) (finalizeRecord fault currentBlock rec) := by
  refine (Erases.logged _).bind fun finalized => ?_
  cases finalized with
  | none => exact .pure none
  | some finalized =>
    exact (Erases.logged _).bind fun r => (Erases.logged _).bind fun _ =>
      (erases_burnAndMark rec r.evidenceType finalized).bind fun a => .pure (some a)

theorem erases_tickFinalize (currentBlock : UInt64) :
    Erases (tickFinalizeLogged fault currentBlock) (tickFinalize fault currentBlock) :=
  (Erases.logged _).bind fun toReplay =>
    (Erases.mapM (erases_replayBurn currentBlock) toReplay).bind fun _ =>
      (Erases.logged _).bind fun ready =>
        (Erases.mapM (erases_finalizeRecord currentBlock) ready).bind fun _ => .pure _

end Erasure

end SlashingPipeline

/-- What happens to the pipeline, each event with the operations of the store that fail in it. -/
inductive SlashingEvent where
  | ingest (fault : ℕ → Option String) (ev : EquivocationEvidence) (submitter : Address)
      (currentBlock currentEpoch : UInt64) (offenderStake : ℕ)
  | tick (fault : ℕ → Option String) (currentBlock : UInt64)
  | elect
  | fileAppeal (fault : ℕ → Option String) (evidenceId : H256) (sender : Address) (sentValueWei : ℕ)
      (currentHeight : UInt64)
  | overturn (fault : ℕ → Option String) (evidenceId : H256)
  | reject (evidenceId : H256)
  /-- The process starts again: the registry is rebuilt from the disk, the validators stay. -/
  | restart (totalValidators : UInt64)

inductive SlashingAnswer where
  | ingested (r : Except StakingError H256)
  | ticked (r : Except StakingError (List AppliedSlash))
  | elected (newSet : List Address)
  | appealed (r : Except StakingError UInt64)
  | overturned (r : Except StakingError AppliedOverturn)
  | rejected (r : Except StakingError ℕ)
  | restarted (r : Except StakingError ℕ)

variable (P : Platform) (sha3 : List UInt8 → H256) (bincode : EquivocationEvidence → List UInt8)

def slashingStep (s : SlashingState) : SlashingEvent → SlashingState × SlashingAnswer
  | .ingest fault ev submitter currentBlock currentEpoch offenderStake =>
    let (r,p) := (ingestEquivocation P sha3 bincode fault ev submitter currentBlock currentEpoch
      offenderStake).exec s.1
    ((p,s.2),.ingested r)
  | .tick fault currentBlock =>
    let (r,s) := (tickFinalizeLogged fault currentBlock).exec s
    (s,.ticked r)
  | .elect =>
    let (validators,newSet) := s.1.validators.electActiveSet P
    (({ s.1 with validators := validators },s.2),.elected newSet)
  | .fileAppeal fault evidenceId sender sentValueWei currentHeight =>
    let (r,p) := (dispatchFileAppealTx fault evidenceId sender sentValueWei currentHeight).exec s.1
    ((p,s.2),.appealed r)
  | .overturn fault evidenceId =>
    let (r,p) := (overturnAndRefund fault evidenceId).exec s.1
    ((p,s.2),.overturned r)
  | .reject evidenceId =>
    let (r,p) := (onRegistry (fun reg => reg.rejectAppeal evidenceId)).exec s.1
    ((p,s.2),.rejected r)
  | .restart totalValidators =>
    let (r,p) := (rehydrateFromDisk (fun _ => none)).exec { s.1 with registry := .new totalValidators }
    ((p,s.2),.restarted r)

/-- A tick whose burns are logged answers and leaves what `tick_finalize` does. -/
theorem slashingStep_tick (fault : ℕ → Option String) (currentBlock : UInt64) (s : SlashingState) :
    ((slashingStep P sha3 bincode s (.tick fault currentBlock)).2,
        (slashingStep P sha3 bincode s (.tick fault currentBlock)).1.1) =
      (.ticked ((tickFinalize fault currentBlock).exec s.1).1,((tickFinalize fault currentBlock).exec s.1).2) := by
  have herases : Erases (tickFinalizeLogged fault currentBlock) (tickFinalize fault currentBlock) :=
    erases_tickFinalize currentBlock
  rw [← herases s]
  rfl

def SlashingState.burntWei (s : SlashingState) (id : H256) : ℕ :=
  ((s.2.filter (fun b => b.recordId = id)).map Burn.lostWei).sum

def SlashingState.start (validators : ValidatorSet) (totalValidators : UInt64) : SlashingState :=
  (⟨⟨∅,∅,∅⟩,.new totalValidators,validators,0⟩,[])

end ZbxChain.Staking
