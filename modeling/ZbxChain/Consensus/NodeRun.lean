import ZbxChain.Consensus.Slashing
import ZbxChain.Consensus.Tally

/-! # Where the events of a machine come from

The safety rules inside a machine make a run of their own, so what holds of runs of
the rules holds of the votes a machine casts. A cast vote answers a proposal or a
certificate of the phase before; a committed block answers a certificate of the last
phase and was proposed earlier.
-/
namespace ZbxChain.HotStuffConsensus
open Machine

def events : Except ConsensusError (List ConsensusEvent) → List ConsensusEvent
  | .ok es => es
  | .error _ => []

def voteOf : ConsensusEvent → Option Vote
  | .voteCast v => some v
  | _ => none

def committedOf : ConsensusEvent → Option Block
  | .committed b _ => some b
  | _ => none

def castVotes (e : Step) : List Vote := (events e.output).filterMap voteOf

variable (P : Platform) (cs : HotStuffConsensus)

def nextData (qc : QuorumCertificate) (phase : Phase) : VoteData :=
  ⟨qc.blockHash,qc.blockNumber,phase.toUInt8,cs.pacemaker.currentEpoch⟩

def qcSafetyCalls (qc : QuorumCertificate) : List SafetyRules.Call :=
  if qc.phase = 0 then [.updateLockedQc qc, .vote (cs.nextData qc .preCommit) qc]
  else if qc.phase = 1 then [.vote (cs.nextData qc .commit) qc]
  else []

def safetyCalls : Call → List SafetyRules.Call
  | .proposal block parentQc =>
    if parentQc.verify P = true ∧ block.coinbase = cs.validatorSet.proposerForRound P block.number
    then [.vote (prepareData P block) parentQc] else []
  | .vote vote pk =>
    match cs.formedQc P (.vote vote pk) with
    | some qc => cs.qcSafetyCalls qc
    | none => []
  | _ => []

variable {P cs} {qc parentQc : QuorumCertificate} {block : Block} {vote : Vote} {pk : BlsPubKey}

theorem safetyCalls_proposal : cs.safetyCalls P (.proposal block parentQc) =
    if parentQc.verify P = true ∧ block.coinbase = cs.validatorSet.proposerForRound P block.number
    then [.vote (prepareData P block) parentQc] else [] := rfl

theorem safetyCalls_vote : cs.safetyCalls P (.vote vote pk) =
    match cs.formedQc P (.vote vote pk) with
    | some qc => cs.qcSafetyCalls qc
    | none => [] := rfl

theorem votes_vote (rules : SafetyRules) (data : VoteData) (qc : QuorumCertificate) :
    SafetyRules.votes P rules [.vote data qc] =
      if rules.state.Admits data qc then [rules.ballot P data] else [] := by
  by_cases h : rules.state.Admits data qc
  · rw [if_pos h]
    simp only [SafetyRules.votes, history_cons, history_nil, SafetyRules.step,
      SafetyRules.vote_of_admits h]
    rfl
  · obtain ⟨e,he⟩ := SafetyRules.vote_of_not_admits (P := P) h
    rw [if_neg h]
    simp only [SafetyRules.votes, history_cons, history_nil, SafetyRules.step, he]
    rfl

theorem votes_updateLockedQc (rules : SafetyRules) (qc : QuorumCertificate)
    (rest : List SafetyRules.Call) :
    SafetyRules.votes P rules (.updateLockedQc qc :: rest) =
      SafetyRules.votes P (rules.updateLockedQc qc) rest := rfl

theorem voteNextPhase_of_admits {phase : Phase}
    (h : cs.safetyRules.state.Admits (cs.nextData qc phase) qc) :
    cs.voteNextPhase P qc phase =
      ({ cs with
          safetyRules := { cs.safetyRules with
            state := cs.safetyRules.state.record (cs.nextData qc phase) } },
        .ok [.voteCast (cs.safetyRules.ballot P (cs.nextData qc phase))]) := by
  have hvote := SafetyRules.vote_of_admits (P := P) h
  unfold nextData at hvote
  simp only [voteNextPhase, hvote]
  rfl

theorem voteNextPhase_of_not_admits {phase : Phase}
    (h : ¬ cs.safetyRules.state.Admits (cs.nextData qc phase) qc) :
    cs.voteNextPhase P qc phase = (cs, .ok []) := by
  obtain ⟨e,hvote⟩ := SafetyRules.vote_of_not_admits (P := P) h
  unfold nextData at hvote
  simp only [voteNextPhase, hvote]

theorem voteNextPhase_spec (cs : HotStuffConsensus) (qc : QuorumCertificate) (phase : Phase) :
    (cs.voteNextPhase P qc phase).1.safetyRules =
        (cs.safetyRules.vote P (cs.nextData qc phase) qc).1 ∧
      events (cs.voteNextPhase P qc phase).2 =
        (SafetyRules.votes P cs.safetyRules [.vote (cs.nextData qc phase) qc]).map .voteCast := by
  rw [votes_vote]
  by_cases h : cs.safetyRules.state.Admits (cs.nextData qc phase) qc
  · rw [voteNextPhase_of_admits h, SafetyRules.vote_of_admits h, if_pos h]
    exact ⟨rfl,rfl⟩
  · obtain ⟨e,he⟩ := SafetyRules.vote_of_not_admits (P := P) h
    rw [voteNextPhase_of_not_admits h, he, if_neg h]
    exact ⟨rfl,rfl⟩

theorem filterMap_voteOf_map (vs : List Vote) :
    (vs.map ConsensusEvent.voteCast).filterMap voteOf = vs := by
  induction vs with
  | nil => rfl
  | cons v vs ih => simp [voteOf, ih]

/-- What a certificate makes of the safety rules, its votes and its commits. -/
theorem onQc_spec (cs : HotStuffConsensus) (qc : QuorumCertificate) :
    (cs.onQc P qc).1.safetyRules =
        final (SafetyRules.step P) cs.safetyRules (cs.qcSafetyCalls qc) ∧
      (events (cs.onQc P qc).2).filterMap voteOf =
        SafetyRules.votes P cs.safetyRules (cs.qcSafetyCalls qc) ∧
      ∀ block qc', ConsensusEvent.committed block qc' ∈ events (cs.onQc P qc).2 →
        qc' = qc ∧ qc.phase = 2 ∧ cs.blockStore.get qc.blockHash = some block ∧
          cs.committedHeight < block.number := by
  unfold onQc qcSafetyCalls
  split
  · rename_i hphase
    obtain ⟨hrules,hevents⟩ := voteNextPhase_spec (P := P)
      { cs with safetyRules := cs.safetyRules.updateLockedQc qc, highestQc := some qc } qc .preCommit
    rw [if_pos hphase, hrules, hevents, filterMap_voteOf_map, votes_updateLockedQc]
    refine ⟨rfl,rfl,?_⟩
    intro block qc' hmem
    obtain ⟨v,-,hv⟩ := List.mem_map.mp hmem
    cases hv
  · rename_i hphase
    obtain ⟨hrules,hevents⟩ := voteNextPhase_spec (P := P) cs qc .commit
    rw [hphase, if_neg (by decide), if_pos rfl, hrules, hevents, filterMap_voteOf_map]
    refine ⟨rfl,rfl,?_⟩
    intro block qc' hmem
    obtain ⟨v,-,hv⟩ := List.mem_map.mp hmem
    cases hv
  · rename_i hphase
    rw [hphase, if_neg (by decide), if_neg (by decide)]
    unfold decideBlock
    cases hget : cs.blockStore.get qc.blockHash with
    | none => exact ⟨rfl,rfl,fun _ _ hmem => nomatch hmem⟩
    | some b =>
      dsimp only
      split
      · rename_i hheight
        refine ⟨rfl,rfl,?_⟩
        intro block qc' hmem
        cases List.mem_singleton.mp hmem
        exact ⟨rfl,rfl,rfl,hheight⟩
      · exact ⟨rfl,rfl,fun _ _ hmem => nomatch hmem⟩
  · rename_i hzero hone htwo
    rw [if_neg (fun h => hzero h), if_neg (fun h => hone h)]
    exact ⟨rfl,rfl,fun _ _ hmem => nomatch hmem⟩

theorem onProposal_spec :
    (cs.onProposal P block parentQc).1.safetyRules =
        final (SafetyRules.step P) cs.safetyRules (cs.safetyCalls P (.proposal block parentQc)) ∧
      (events (cs.onProposal P block parentQc).2).filterMap voteOf =
        SafetyRules.votes P cs.safetyRules (cs.safetyCalls P (.proposal block parentQc)) := by
  rw [safetyCalls_proposal]
  by_cases h : cs.Proposable P block parentQc
  · have hvote := SafetyRules.vote_of_admits (P := P) h.2.2
    rw [onProposal_of_proposable h, if_pos ⟨h.1,h.2.1⟩, votes_vote, if_pos h.2.2, final_cons,
      final_nil, SafetyRules.step, hvote]
    exact ⟨rfl,rfl⟩
  · obtain ⟨⟨e,he⟩,hstate⟩ := onProposal_of_not_proposable h
    have hrules : (cs.onProposal P block parentQc).1.safetyRules = cs.safetyRules := by
      rcases hstate with hstate | hstate
      · rw [hstate]
      · rw [hstate]
    rw [he, hrules]
    split
    · rename_i hpre
      have hadmits : ¬ cs.safetyRules.state.Admits (prepareData P block) parentQc :=
        fun hadmits => h ⟨hpre.1,hpre.2,hadmits⟩
      obtain ⟨e',he'⟩ := SafetyRules.vote_of_not_admits (P := P) hadmits
      rw [votes_vote, if_neg hadmits, final_cons, final_nil, SafetyRules.step, he']
      exact ⟨rfl,rfl⟩
    · exact ⟨rfl,rfl⟩

theorem onVote_spec :
    (cs.onVote P vote pk).1.safetyRules =
        final (SafetyRules.step P) cs.safetyRules (cs.safetyCalls P (.vote vote pk)) ∧
      (events (cs.onVote P vote pk).2).filterMap voteOf =
        SafetyRules.votes P cs.safetyRules (cs.safetyCalls P (.vote vote pk)) := by
  have hframe := intakeFrame_acceptVote P cs vote pk
  rw [safetyCalls_vote]
  rcases onVote_cases P cs vote pk with
    ⟨hnone,hstate,hevents⟩ | ⟨qc,hsome,-,hstate⟩
  · rw [hnone, hstate, hframe.safetyRules]
    refine ⟨rfl,?_⟩
    cases hresult : (cs.onVote P vote pk).2 with
    | error e => rfl
    | ok es =>
      rw [hevents es hresult]
      rfl
  · obtain ⟨hrules,hvotes,-⟩ := onQc_spec (P := P) (cs.acceptVote P vote pk).1 qc
    rw [hsome, hstate, hrules, hvotes, hframe.safetyRules]
    simp only [qcSafetyCalls, nextData, hframe.pacemaker]
    exact ⟨trivial,trivial⟩

theorem step_spec (cs : HotStuffConsensus) (call : Call) :
    (step P cs call).1.safetyRules =
        final (SafetyRules.step P) cs.safetyRules (cs.safetyCalls P call) ∧
      (events (step P cs call).2).filterMap voteOf =
        SafetyRules.votes P cs.safetyRules (cs.safetyCalls P call) := by
  cases call with
  | proposal block parentQc => exact onProposal_spec
  | vote vote pk => exact onVote_spec
  | timeout => exact ⟨rfl,rfl⟩
  | updateValidatorSet addrs => exact ⟨rfl,rfl⟩
  | rotateEpochSeed seed => exact ⟨rfl,rfl⟩
  | registerValidatorPubkey addr pk =>
    obtain ⟨keys,-,hkeys⟩ := registerValidatorPubkey_eq cs addr pk
    rw [step, hkeys]
    exact ⟨rfl,rfl⟩
  | pruneSeenVotesBelow committedRound => exact ⟨rfl,rfl⟩

theorem castVotes_run (xs : List Call) :
    (history (step P) cs xs).flatMap castVotes =
      SafetyRules.votes P cs.safetyRules (innerCalls (step P) (safetyCalls P) cs xs) := by
  have hsafety := history_component (step P) (SafetyRules.step P) HotStuffConsensus.safetyRules (safetyCalls P)
    (fun s a => (step_spec (P := P) s a).1) cs xs
  rw [SafetyRules.votes, hsafety, List.filterMap_flatMap]
  refine List.flatMap_congr ?_
  intro e he
  rw [castVotes, output_eq _ he, (step_spec e.before e.call).2]
  rfl

theorem advanceEpoch_notMem_safetyCalls (call : Call) (newEpoch : UInt64) :
    .advanceEpoch newEpoch ∉ cs.safetyCalls P call := by
  unfold safetyCalls
  split
  · split
    · simp
    · simp
  · split
    · unfold qcSafetyCalls
      split
      · simp
      · split
        · simp
        · simp
    · simp
  · simp

theorem nodup_castVotes (xs : List Call) :
    (((history (step P) cs xs).flatMap castVotes).map SafetyRules.phaseKey).Nodup := by
  rw [castVotes_run]
  apply SafetyRules.nodup_phaseKey_votes
  apply SafetyRules.neverReopens_of_fixed_epoch
  intro newEpoch hmem
  obtain ⟨e,-,he⟩ := List.mem_flatMap.mp hmem
  exact advanceEpoch_notMem_safetyCalls e.call newEpoch he

theorem nextData_of_mem {data : VoteData} (h : .vote data parentQc ∈ cs.qcSafetyCalls qc) :
    data.blockHash = qc.blockHash ∧ data.blockNumber = qc.blockNumber ∧
      data.phase.toNat = qc.phase.toNat + 1 := by
  unfold qcSafetyCalls at h
  split at h
  · rename_i hphase
    simp only [List.mem_cons, reduceCtorEq, SafetyRules.Call.vote.injEq, List.not_mem_nil,
      or_false, false_or] at h
    rw [h.1, hphase]
    exact ⟨rfl,rfl,rfl⟩
  · split at h
    · rename_i hphase
      simp only [List.mem_cons, SafetyRules.Call.vote.injEq, List.not_mem_nil, or_false] at h
      rw [h.1, hphase]
      exact ⟨rfl,rfl,rfl⟩
    · cases h

theorem castVotes_origin {e : Step} (hout : e.output = (step P e.before e.call).2) {v : Vote}
    (hv : v ∈ castVotes e) :
    (∃ block parentQc, e.call = .proposal block parentQc ∧ e.before.Proposable P block parentQc ∧
      v.data = prepareData P block) ∨
    ∃ qc, e.before.formedQc P e.call = some qc ∧ v.data.blockHash = qc.blockHash ∧
      v.data.blockNumber = qc.blockNumber ∧ v.data.phase.toNat = qc.phase.toNat + 1 := by
  rw [castVotes, hout, (step_spec e.before e.call).2] at hv
  obtain ⟨data,parentQc,hmem,hdata⟩ := SafetyRules.mem_votes hv
  cases hcall : e.call with
  | proposal block q =>
    rw [hcall] at hv hmem
    by_cases hprop : e.before.Proposable P block q
    · rw [safetyCalls_proposal, if_pos ⟨hprop.1,hprop.2.1⟩] at hmem
      cases List.mem_singleton.mp hmem
      exact Or.inl ⟨block,_,rfl,hprop,hdata⟩
    · obtain ⟨⟨err,herr⟩,-⟩ := onProposal_of_not_proposable hprop
      rw [← onProposal_spec.2, herr] at hv
      cases hv
  | vote vote pk =>
    rw [hcall, safetyCalls_vote] at hmem
    cases hqc : e.before.formedQc P (.vote vote pk) with
    | none =>
      rw [hqc] at hmem
      cases hmem
    | some qc =>
      rw [hqc] at hmem
      refine Or.inr ⟨qc,rfl,?_⟩
      rw [hdata]
      exact nextData_of_mem hmem
  | timeout | updateValidatorSet | rotateEpochSeed | registerValidatorPubkey
  | pruneSeenVotesBelow =>
    rw [hcall] at hmem
    cases hmem

/-- A committed block is in the store under the hash of a certificate of the last phase. -/
theorem committed_origin {e : Step} (hout : e.output = (step P e.before e.call).2)
    (h : ConsensusEvent.committed block qc ∈ events e.output) :
    e.before.formedQc P e.call = some qc ∧ qc.phase = 2 ∧
      e.before.blockStore.get qc.blockHash = some block ∧
      e.before.committedHeight < block.number := by
  rw [hout] at h
  cases hcall : e.call with
  | proposal b q =>
    rw [hcall, step] at h
    by_cases hprop : e.before.Proposable P b q
    · rw [onProposal_of_proposable hprop] at h
      cases List.mem_singleton.mp h
    · obtain ⟨⟨err,herr⟩,-⟩ := onProposal_of_not_proposable hprop
      rw [herr] at h
      cases h
  | vote vote pk =>
    rw [hcall, step] at h
    have hframe := intakeFrame_acceptVote P e.before vote pk
    rcases onVote_cases P e.before vote pk with
      ⟨-,-,hevents⟩ | ⟨qc',hsome,-,hstate⟩
    · cases hresult : (e.before.onVote P vote pk).2 with
      | error err =>
        rw [hresult] at h
        cases h
      | ok es =>
        rw [hresult, events, hevents es hresult] at h
        cases h
    · rw [hstate] at h
      obtain ⟨rfl,hphase,hget,hheight⟩ := (onQc_spec _ _).2.2 _ _ h
      rw [hframe.blockStore] at hget
      rw [hframe.committedHeight] at hheight
      exact ⟨hsome,hphase,hget,hheight⟩
  | timeout =>
    rw [hcall] at h
    cases List.mem_singleton.mp h
  | updateValidatorSet | rotateEpochSeed | registerValidatorPubkey | pruneSeenVotesBelow =>
    rw [hcall] at h
    cases h

end ZbxChain.HotStuffConsensus
