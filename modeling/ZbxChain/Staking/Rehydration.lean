import ZbxChain.Staking.Offences

/-! # The registry after a restart

A record that is rehydrated is counted for the correlated slashes of its epoch, and counted
again when it is rehydrated again. A record that is submitted is not counted at all.
-/
namespace ZbxChain.Staking
open SlashingPipeline Machine

inductive RegistryOp where
  | submitEvidence (evidence : SlashEvidenceV2) (submittedBy : Address) (currentBlock currentEpoch : UInt64)
      (offenderStake : ℕ)
  | fileAppeal (evidenceId : H256) (currentBlock : UInt64)
  | finalizeSlash (evidenceId : H256) (currentBlock : UInt64)
  | overturnSlash (evidenceId : H256)
  | rejectAppeal (evidenceId : H256)

/-- The answers, for a submission with the record that the evidence went into. -/
inductive RegistryAnswer where
  | submitted (r : Except StakingError (SubmitOutcome × Option SlashEvidenceRecord))
  | appealed (r : Except StakingError Unit)
  | finalized (r : Except StakingError (Option FinalizedSlash))
  | overturned (r : Except StakingError ℕ)
  | rejected (r : Except StakingError ℕ)

variable (sha3 : List UInt8 → H256)

def registryStep (reg : SlashingRegistryV2) : RegistryOp → SlashingRegistryV2 × RegistryAnswer
  | .submitEvidence evidence submittedBy currentBlock currentEpoch offenderStake =>
    match reg.submitEvidence sha3 evidence submittedBy currentBlock currentEpoch offenderStake with
    | .error e => (reg,.submitted (.error e))
    | .ok (outcome,reg) => (reg,.submitted (.ok (outcome,reg.getRecord outcome.recordId)))
  | .fileAppeal evidenceId currentBlock =>
    match reg.fileAppeal evidenceId currentBlock with
    | .error e => (reg,.appealed (.error e))
    | .ok reg => (reg,.appealed (.ok ()))
  | .finalizeSlash evidenceId currentBlock =>
    match reg.finalizeSlash evidenceId currentBlock with
    | .error e => (reg,.finalized (.error e))
    | .ok (finalized,reg) => (reg,.finalized (.ok finalized))
  | .overturnSlash evidenceId =>
    match reg.overturnSlash evidenceId with
    | .error e => (reg,.overturned (.error e))
    | .ok (wei,reg) => (reg,.overturned (.ok wei))
  | .rejectAppeal evidenceId =>
    match reg.rejectAppeal evidenceId with
    | .error e => (reg,.rejected (.error e))
    | .ok (wei,reg) => (reg,.rejected (.ok wei))

def registryAnswers (reg : SlashingRegistryV2) (ops : List RegistryOp) : List RegistryAnswer :=
  (history (registryStep sha3) reg ops).map Entry.output

def rebuilt (totalValidators : UInt64) (records : List SlashEvidenceRecord) : SlashingRegistryV2 :=
  records.foldl (fun reg r => reg.insertRehydratedRecord r) (.new totalValidators)

/-- The rehydration counts the record for its offender in the epoch. -/
def countsFor (epoch : UInt64) (offender : Address) (r : SlashEvidenceRecord) : Bool :=
  (r.status = .confirmed || r.status = .pending || r.status = .appealed) &&
    r.submitBlock / epochLength = epoch && r.offender = offender

variable {sha3}

namespace SlashingRegistryV2
variable {reg reg' : SlashingRegistryV2}

/-- `n_slashed` of a new record. -/
def nSlashed (reg : SlashingRegistryV2) (epoch : UInt64) (offender : Address) : UInt64 :=
  (reg.epochSlashCount.lookup (epoch,offender)).getD 0 + 1

/-- Registries with the same records, of as many validators. -/
structure Mirrors (reg reg' : SlashingRegistryV2) : Prop where
  records : ∀ id, reg'.getRecord id = reg.getRecord id
  totalValidators : reg'.totalValidators = reg.totalValidators

/-- Whatever evidence may still make a new record, both count its slash at one rate. -/
def SameRates (sha3 : List UInt8 → H256) (reg reg' : SlashingRegistryV2) : Prop :=
  ∀ (evidence : SlashEvidenceV2) (offender : Address) (block epoch : UInt64), evidence.offender = some offender →
    reg.getRecord (computeIdForOffender sha3 offender block evidence.evidenceType) = none →
    correlatedSlashBps (baseSlashBps evidence.evidenceType) (reg'.nSlashed epoch offender) reg.totalValidators =
      correlatedSlashBps (baseSlashBps evidence.evidenceType) (reg.nSlashed epoch offender) reg.totalValidators

theorem Mirrors.update (h : Mirrors reg reg') (id : H256) (f : SlashEvidenceRecord → SlashEvidenceRecord) :
    Mirrors (reg.update id f) (reg'.update id f) where
  records id' := by
    have hid : reg'.records.lookup id = reg.records.lookup id := h.records id
    have hid' : reg'.records.lookup id' = reg.records.lookup id' := h.records id'
    simp only [getRecord, SlashingRegistryV2.update, AList.lookup_modify, hid, hid']
  totalValidators := h.totalValidators

theorem Mirrors.insert (h : Mirrors reg reg') (id : H256) (r : SlashEvidenceRecord) :
    Mirrors { reg with records := reg.records.insert id r } { reg' with records := reg'.records.insert id r } where
  records id' := by
    have hid' : reg'.records.lookup id' = reg.records.lookup id' := h.records id'
    simp only [getRecord]
    by_cases hid : id' = id
    · rw [hid, AList.lookup_insert, AList.lookup_insert]
    · rw [AList.lookup_insert_ne hid, AList.lookup_insert_ne hid, hid']
  totalValidators := h.totalValidators

theorem SameRates.mono {after after' : SlashingRegistryV2} (h : SameRates sha3 reg reg')
    (hcounts : after.epochSlashCount = reg.epochSlashCount) (hcounts' : after'.epochSlashCount = reg'.epochSlashCount)
    (htotal : after.totalValidators = reg.totalValidators)
    (hrecords : ∀ id, after.getRecord id = none → reg.getRecord id = none) : SameRates sha3 after after' := by
  intro evidence offender block epoch hoffender hfree
  have hbefore := h evidence offender block epoch hoffender (hrecords _ hfree)
  simpa only [nSlashed, hcounts, hcounts', htotal] using hbefore

theorem getRecord_update_none {id id' : H256} {f : SlashEvidenceRecord → SlashEvidenceRecord}
    (h : (reg.update id f).getRecord id' = none) : reg.getRecord id' = none := by
  have hlookup : (if id' = id then (reg.records.lookup id).map f else reg.records.lookup id') = none :=
    (AList.lookup_modify _ _ _ _).symm.trans h
  split at hlookup
  · rename_i hid
    subst hid
    exact Option.map_eq_none_iff.mp hlookup
  · exact hlookup

end SlashingRegistryV2

open SlashingRegistryV2

/-- Registries that answer alike, and go on to. -/
def AnswersAlike (sha3 : List UInt8 → H256) (reg reg' : SlashingRegistryV2) : Prop :=
  Mirrors reg reg' ∧ SameRates sha3 reg reg'

section Steps
variable {reg reg' : SlashingRegistryV2}

/-- Registries that answer alike still do after the same update. -/
theorem AnswersAlike.update (h : AnswersAlike sha3 reg reg') (id : H256)
    (f : SlashEvidenceRecord → SlashEvidenceRecord) : AnswersAlike sha3 (reg.update id f) (reg'.update id f) :=
  ⟨h.1.update id f,h.2.mono rfl rfl rfl fun _ => getRecord_update_none⟩

theorem answersAlike_submitEvidence (h : AnswersAlike sha3 reg reg') (evidence : SlashEvidenceV2)
    (submittedBy : Address) (currentBlock currentEpoch : UInt64) (offenderStake : ℕ) :
    (registryStep sha3 reg' (.submitEvidence evidence submittedBy currentBlock currentEpoch offenderStake)).2 =
      (registryStep sha3 reg (.submitEvidence evidence submittedBy currentBlock currentEpoch offenderStake)).2 ∧
    AnswersAlike sha3
      (registryStep sha3 reg (.submitEvidence evidence submittedBy currentBlock currentEpoch offenderStake)).1
      (registryStep sha3 reg' (.submitEvidence evidence submittedBy currentBlock currentEpoch offenderStake)).1 := by
  simp only [registryStep, SlashingRegistryV2.submitEvidence]
  cases hoffender : evidence.offender with
  | none => exact ⟨rfl,h⟩
  | some offender =>
    dsimp only
    generalize hid : computeIdForOffender sha3 offender currentBlock evidence.evidenceType = id
    have hsame := h.1.records id
    cases hr : reg.getRecord id with
    | some existing =>
      rw [hr] at hsame
      by_cases hpending : existing.status = .pending
      · by_cases hlisted : existing.submittedBy = submittedBy ∨ submittedBy ∈ existing.reporters
        · simp only [hsame, hr, hpending, hlisted, ne_eq, not_true_eq_false, if_true, if_false,
            SubmitOutcome.recordId]
          exact ⟨trivial,h⟩
        · simp only [hsame, hpending, hlisted, ne_eq, not_true_eq_false, if_false, SubmitOutcome.recordId,
            (h.1.update id _).records id]
          exact ⟨trivial,h.update id _⟩
      · simp only [hsame, hr, hpending, ne_eq, not_false_eq_true, if_true, SubmitOutcome.recordId]
        exact ⟨trivial,h⟩
    | none =>
      rw [hr] at hsame
      have hrate := h.2 evidence offender currentBlock currentEpoch hoffender (by rw [hid]; exact hr)
      nth_rewrite 1 [← h.1.totalValidators] at hrate
      simp only [SlashingRegistryV2.nSlashed] at hrate
      simp only [hsame, hrate, SubmitOutcome.recordId]
      refine ⟨?_,h.1.insert id _,h.2.mono rfl rfl rfl fun id' hnone => ?_⟩
      · simp only [(h.1.insert id _).records id]
      · by_cases hid' : id' = id
        · rw [hid']
          exact hr
        · have hlookup : reg.records.lookup id' = none := (AList.lookup_insert_ne hid').symm.trans hnone
          exact hlookup

theorem answersAlike_step (h : AnswersAlike sha3 reg reg') (op : RegistryOp) :
    (registryStep sha3 reg' op).2 = (registryStep sha3 reg op).2 ∧
      AnswersAlike sha3 (registryStep sha3 reg op).1 (registryStep sha3 reg' op).1 := by
  cases op with
  | submitEvidence evidence submittedBy currentBlock currentEpoch offenderStake =>
    exact answersAlike_submitEvidence h evidence submittedBy currentBlock currentEpoch offenderStake
  | fileAppeal evidenceId currentBlock =>
    simp only [registryStep, SlashingRegistryV2.fileAppeal, h.1.records]
    cases reg.getRecord evidenceId with
    | none => exact ⟨rfl,h⟩
    | some r =>
      dsimp only
      split_ifs
      · exact ⟨rfl,h⟩
      · exact ⟨rfl,h⟩
      · exact ⟨rfl,h.update evidenceId _⟩
  | finalizeSlash evidenceId currentBlock =>
    simp only [registryStep, SlashingRegistryV2.finalizeSlash, h.1.records]
    cases reg.getRecord evidenceId with
    | none => exact ⟨rfl,h⟩
    | some r =>
      dsimp only
      split_ifs
      · exact ⟨rfl,h⟩
      · exact ⟨rfl,h⟩
      · exact ⟨rfl,h.update evidenceId _⟩
  | overturnSlash evidenceId =>
    simp only [registryStep, SlashingRegistryV2.overturnSlash, h.1.records]
    cases reg.getRecord evidenceId with
    | none => exact ⟨rfl,h⟩
    | some r =>
      dsimp only
      split_ifs
      · exact ⟨rfl,h⟩
      · exact ⟨rfl,h.update evidenceId _⟩
  | rejectAppeal evidenceId =>
    simp only [registryStep, SlashingRegistryV2.rejectAppeal, h.1.records]
    cases reg.getRecord evidenceId with
    | none => exact ⟨rfl,h⟩
    | some r =>
      dsimp only
      split_ifs
      · exact ⟨rfl,h⟩
      · exact ⟨rfl,h.update evidenceId _⟩

theorem answers_alike (h : AnswersAlike sha3 reg reg') (ops : List RegistryOp) :
    registryAnswers sha3 reg' ops = registryAnswers sha3 reg ops := by
  induction ops generalizing reg reg' with
  | nil => rfl
  | cons op ops ih =>
    obtain ⟨hanswer,hafter⟩ := answersAlike_step h op
    simp only [registryAnswers, history_cons, List.map_cons, List.cons.injEq]
    exact ⟨hanswer,ih hafter⟩

end Steps

section Rebuilt
variable {reg : SlashingRegistryV2} {records : List SlashEvidenceRecord}

theorem nSlashed_insertRehydratedRecord (r : SlashEvidenceRecord) (epoch : UInt64) (offender : Address) :
    (reg.insertRehydratedRecord r).nSlashed epoch offender =
      reg.nSlashed epoch offender + if countsFor epoch offender r then 1 else 0 := by
  by_cases hkey : (r.submitBlock / epochLength,r.offender) = (epoch,offender)
  · obtain ⟨rfl,rfl⟩ := Prod.ext_iff.mp hkey
    cases hstatus : r.status with
    | pending | appealed | confirmed =>
      simp only [insertRehydratedRecord, nSlashed, countsFor, hstatus, AList.lookup_insert, Option.getD_some]
      simp
    | rejected | overturned => simp [insertRehydratedRecord, nSlashed, countsFor, hstatus]
  · have hcounts : countsFor epoch offender r = false := by
      rw [Prod.mk.injEq, not_and] at hkey
      simp only [countsFor, Bool.and_eq_false_iff, decide_eq_false_iff_not]
      by_cases hepoch : r.submitBlock / epochLength = epoch
      · exact Or.inr (hkey hepoch)
      · exact Or.inl (Or.inr hepoch)
    rw [hcounts]
    cases hstatus : r.status with
    | pending | appealed | confirmed =>
      simp only [insertRehydratedRecord, nSlashed, hstatus, AList.lookup_insert_ne (Ne.symm hkey)]
      simp
    | rejected | overturned => simp [insertRehydratedRecord, nSlashed, hstatus]

theorem nSlashed_foldl (epoch : UInt64) (offender : Address) :
    (records.foldl (fun reg r => reg.insertRehydratedRecord r) reg).nSlashed epoch offender =
      reg.nSlashed epoch offender + UInt64.ofNat (records.countP (countsFor epoch offender)) := by
  induction records generalizing reg with
  | nil => simp
  | cons r records ih =>
    rw [List.foldl_cons, ih, nSlashed_insertRehydratedRecord, List.countP_cons, UInt64.add_assoc]
    congr 1
    split
    · simp [UInt64.ofNat_add, UInt64.add_comm]
    · simp

theorem nSlashed_rebuilt (totalValidators epoch : UInt64) (offender : Address) :
    (rebuilt totalValidators records).nSlashed epoch offender =
      1 + UInt64.ofNat (records.countP (countsFor epoch offender)) := nSlashed_foldl epoch offender

theorem totalValidators_foldl :
    (records.foldl (fun reg r => reg.insertRehydratedRecord r) reg).totalValidators = reg.totalValidators := by
  induction records generalizing reg with
  | nil => rfl
  | cons r records ih => exact ih

theorem getRecord_foldl {live : SlashingRegistryV2} (h : ∀ r ∈ records, live.getRecord r.id = some r) (id : H256) :
    (records.foldl (fun reg r => reg.insertRehydratedRecord r) reg).getRecord id =
      if id ∈ records.map SlashEvidenceRecord.id then live.getRecord id else reg.getRecord id := by
  induction records generalizing reg with
  | nil => simp
  | cons r records ih =>
    rw [List.foldl_cons, ih fun r' hr' => h r' (List.mem_cons_of_mem _ hr')]
    have hinsert : (reg.insertRehydratedRecord r).getRecord id = if id = r.id then some r else reg.getRecord id := by
      split
      · rename_i hid
        rw [hid]
        exact AList.lookup_insert _
      · rename_i hid
        exact AList.lookup_insert_ne hid
    rw [hinsert]
    by_cases hmem : id ∈ records.map SlashEvidenceRecord.id
    · simp [hmem]
    · by_cases hid : id = r.id
      · simp [hid, h r List.mem_cons_self]
      · simp [hid]

end Rebuilt

structure Live (totalValidators : UInt64) (reg : SlashingRegistryV2) : Prop where
  keyed : ∀ id r, reg.getRecord id = some r → r.id = id
  uncounted : reg.epochSlashCount = ∅
  total : reg.totalValidators = totalValidators

section Live
variable {reg : SlashingRegistryV2} {totalValidators : UInt64}

theorem live_new (totalValidators : UInt64) : Live totalValidators (.new totalValidators) :=
  ⟨fun _ _ h => (by cases h),rfl,rfl⟩

theorem Live.update (h : Live totalValidators reg) (id : H256) {f : SlashEvidenceRecord → SlashEvidenceRecord}
    (hf : ∀ r, (f r).id = r.id) : Live totalValidators (reg.update id f) where
  keyed id' r hr := by
    have hlookup : (if id' = id then (reg.records.lookup id).map f else reg.records.lookup id') = some r :=
      (AList.lookup_modify _ _ _ _).symm.trans hr
    split at hlookup
    · rename_i hid
      subst hid
      obtain ⟨r',hr',rfl⟩ := Option.map_eq_some_iff.mp hlookup
      rw [hf]
      exact h.keyed id' r' hr'
    · exact h.keyed id' r hlookup
  uncounted := h.uncounted
  total := h.total

theorem live_step (h : Live totalValidators reg) (op : RegistryOp) :
    Live totalValidators (registryStep sha3 reg op).1 := by
  cases op with
  | submitEvidence evidence submittedBy currentBlock currentEpoch offenderStake =>
    simp only [registryStep]
    cases hsubmit : reg.submitEvidence sha3 evidence submittedBy currentBlock currentEpoch offenderStake with
    | error e => exact h
    | ok answer =>
      obtain ⟨outcome,reg'⟩ := answer
      cases hoffender : evidence.offender with
      | none =>
        simp [SlashingRegistryV2.submitEvidence, hoffender] at hsubmit
      | some offender =>
        cases submitted_submitEvidence hoffender hsubmit with
        | @newRecord r hid hfresh hpending hmark =>
          refine ⟨fun id' r' hr' => ?_,h.uncounted,h.total⟩
          rcases AList.lookup_insert_some hr' with ⟨rfl,rfl⟩ | ⟨-,hr'⟩
          · exact hid
          · exact h.keyed id' r' hr'
        | coWitness hr hpending => exact h.update _ fun _ => rfl
        | recorded hr => exact h
  | fileAppeal evidenceId currentBlock =>
    simp only [registryStep, SlashingRegistryV2.fileAppeal]
    cases reg.getRecord evidenceId with
    | none => exact h
    | some r =>
      dsimp only
      split_ifs
      · exact h
      · exact h
      · exact h.update _ fun _ => rfl
  | finalizeSlash evidenceId currentBlock =>
    simp only [registryStep, SlashingRegistryV2.finalizeSlash]
    cases reg.getRecord evidenceId with
    | none => exact h
    | some r =>
      dsimp only
      split_ifs
      · exact h
      · exact h
      · exact h.update _ fun _ => rfl
  | overturnSlash evidenceId =>
    simp only [registryStep, SlashingRegistryV2.overturnSlash]
    cases reg.getRecord evidenceId with
    | none => exact h
    | some r =>
      dsimp only
      split_ifs
      · exact h
      · exact h.update _ fun _ => rfl
  | rejectAppeal evidenceId =>
    simp only [registryStep, SlashingRegistryV2.rejectAppeal]
    cases reg.getRecord evidenceId with
    | none => exact h
    | some r =>
      dsimp only
      split_ifs
      · exact h
      · exact h.update _ fun _ => rfl

theorem live_final (totalValidators : UInt64) (ops : List RegistryOp) :
    Live totalValidators (final (registryStep sha3) (.new totalValidators) ops) :=
  (state_invariant (registryStep sha3) (G := fun _ _ => True) (I := Live totalValidators) (live_new totalValidators)
    (fun _ op h _ => live_step h op) ops fun _ _ => trivial).2

theorem Live.mirrors (h : Live totalValidators reg) {records : List SlashEvidenceRecord}
    (hrecords : ∀ r, r ∈ records ↔ r ∈ reg.records.values) : Mirrors reg (rebuilt totalValidators records) where
  records id := by
    have hown : ∀ r ∈ records, reg.getRecord r.id = some r := by
      intro r hr
      obtain ⟨id',hid'⟩ := AList.mem_values.mp ((hrecords r).mp hr)
      rw [h.keyed id' r hid']
      exact hid'
    rw [rebuilt, getRecord_foldl hown]
    split
    · rfl
    · rename_i hmem
      cases hr : reg.getRecord id with
      | none => rfl
      | some r =>
        refine absurd (List.mem_map.mpr ⟨r,(hrecords r).mpr (AList.mem_values.mpr ⟨id,hr⟩),?_⟩) hmem
        exact h.keyed id r hr
  totalValidators := totalValidators_foldl.trans h.total.symm

end Live

theorem slashAmountWei_tenThousand {bps : ℕ} (h : bps ≤ 10000) : slashAmountWei 10000 bps = bps := by
  have hfits : 10000 * bps ≤ maxU128 := by
    have hmax : 10000 * 10000 ≤ maxU128 := by decide
    omega
  simp [slashAmountWei, checkedMul128, hfits]

/-- A registry and the one that a restart builds from its records answer alike if, and only if,
the records that are counted change no rate at which a new record may still be slashed. -/
theorem restart_answers_iff (sha3 : List UInt8 → H256) (totalValidators : UInt64) (ops : List RegistryOp)
    (records : List SlashEvidenceRecord)
    (hrecords : ∀ r, r ∈ records ↔
      r ∈ (final (registryStep sha3) (.new totalValidators) ops).records.values) :
    (∀ later, registryAnswers sha3 (rebuilt totalValidators records) later =
      registryAnswers sha3 (final (registryStep sha3) (.new totalValidators) ops) later) ↔
    ∀ (evidence : SlashEvidenceV2) (offender : Address) (block epoch : UInt64), evidence.offender = some offender →
      (final (registryStep sha3) (.new totalValidators) ops).getRecord
        (computeIdForOffender sha3 offender block evidence.evidenceType) = none →
      correlatedSlashBps (baseSlashBps evidence.evidenceType)
          (1 + UInt64.ofNat (records.countP (countsFor epoch offender))) totalValidators =
        correlatedSlashBps (baseSlashBps evidence.evidenceType) 1 totalValidators := by
  have hlive : Live totalValidators (final (registryStep sha3) (.new totalValidators) ops) :=
    live_final totalValidators ops
  generalize final (registryStep sha3) (.new totalValidators) ops = live at hlive hrecords ⊢
  have hmirrors := hlive.mirrors hrecords
  have hone : ∀ epoch offender, live.nSlashed epoch offender = 1 := by
    intro epoch offender
    rw [SlashingRegistryV2.nSlashed, hlive.uncounted]
    rfl
  constructor
  · intro hsame evidence offender block epoch hoffender hfree
    -- evidence against the offender, whose stake shows the rate
    have hanswer := hsame [.submitEvidence evidence 0 block epoch 10000]
    have hfree' := (hmirrors.records _).trans hfree
    simp only [registryAnswers, history_cons, history_nil, List.map_cons, List.map_nil, registryStep,
      SlashingRegistryV2.submitEvidence, hoffender, hfree, hfree', SubmitOutcome.recordId] at hanswer
    simp only [SlashingRegistryV2.getRecord, AList.lookup_insert, List.cons.injEq, RegistryAnswer.submitted.injEq,
      Except.ok.injEq, Prod.mk.injEq, Option.some.injEq, SlashEvidenceRecord.mk.injEq, and_true, true_and,
      slashAmountWei_tenThousand (correlatedSlashBps_le ((baseSlashBps_le _).trans (by decide))), hmirrors.totalValidators, hlive.total] at hanswer
    have hcount : (rebuilt totalValidators records).nSlashed epoch offender = _ :=
      nSlashed_rebuilt totalValidators epoch offender
    have hcount' := hone epoch offender
    simp only [SlashingRegistryV2.nSlashed] at hcount hcount'
    rwa [hcount, hcount'] at hanswer
  · intro hrates later
    refine answers_alike ⟨hmirrors,fun evidence offender block epoch hoffender hfree => ?_⟩ later
    rw [nSlashed_rebuilt, hone, hlive.total]
    exact hrates evidence offender block epoch hoffender hfree

def submittedDoubleVote (currentBlock : UInt64) : RegistryOp :=
  .submitEvidence (evidenceToDoubleSign doubleVote) 8 currentBlock 0 minSelfStake

theorem restart_answers_double_vote :
    (∀ later, registryAnswers Platform.integers.keccak256
        (rebuilt 100 ((final (registryStep Platform.integers.keccak256) (.new 100)
          [submittedDoubleVote 1]).records.values)) later =
      registryAnswers Platform.integers.keccak256
        (final (registryStep Platform.integers.keccak256) (.new 100) [submittedDoubleVote 1]) later) ↔
    ∀ (evidence : SlashEvidenceV2) (offender : Address) (block epoch : UInt64), evidence.offender = some offender →
      (final (registryStep Platform.integers.keccak256) (.new 100) [submittedDoubleVote 1]).getRecord
        (computeIdForOffender Platform.integers.keccak256 offender block evidence.evidenceType) = none →
      correlatedSlashBps (baseSlashBps evidence.evidenceType)
          (1 + UInt64.ofNat (((final (registryStep Platform.integers.keccak256) (.new 100)
            [submittedDoubleVote 1]).records.values).countP (countsFor epoch offender))) 100 =
        correlatedSlashBps (baseSlashBps evidence.evidenceType) 1 100 :=
  restart_answers_iff Platform.integers.keccak256 100 [submittedDoubleVote 1] _ fun _ => Iff.rfl

def submittedSlash : RegistryAnswer → Option ℕ
  | .submitted (.ok (_,some r)) => some r.finalSlashWei
  | _ => none

/-- After a restart the next double vote of the validator costs it more. -/
theorem restart_raises_slash : ¬ ∀ (sha3 : List UInt8 → H256) (totalValidators : UInt64) (ops : List RegistryOp)
    (records : List SlashEvidenceRecord),
    (∀ r, r ∈ records ↔ r ∈ (final (registryStep sha3) (.new totalValidators) ops).records.values) →
    ∀ later, registryAnswers sha3 (rebuilt totalValidators records) later =
      registryAnswers sha3 (final (registryStep sha3) (.new totalValidators) ops) later := by
  intro h
  have hsame := h Platform.integers.keccak256 100 [submittedDoubleVote 1] _ (fun _ => Iff.rfl) [submittedDoubleVote 2]
  have hdiffer : (registryAnswers Platform.integers.keccak256
      (rebuilt 100 ((final (registryStep Platform.integers.keccak256) (.new 100)
        [submittedDoubleVote 1]).records.values)) [submittedDoubleVote 2]).map submittedSlash ≠
      (registryAnswers Platform.integers.keccak256
        (final (registryStep Platform.integers.keccak256) (.new 100) [submittedDoubleVote 1])
        [submittedDoubleVote 2]).map submittedSlash := by decide +kernel
  exact hdiffer (congrArg (List.map submittedSlash) hsame)

end ZbxChain.Staking
