import ZbxChain.Consensus.NodeRun
import ZbxChain.Node.BlockProducer

/-! # What a round of votes does to the state machine

Votes leave the validator set and the block store alone and only add to the voted phases.
At most one block is decided in a round, and it is then the round's result; otherwise the
pacemaker stands still or times out once.
-/
namespace ZbxChain.HotStuffConsensus

structure Kept (cs cs' : HotStuffConsensus) : Prop where
  validatorSet : cs'.validatorSet = cs.validatorSet
  blockStore : cs'.blockStore = cs.blockStore
  votedPhases : cs.safetyRules.state.votedPhases ⊆ cs'.safetyRules.state.votedPhases

/-- The machine stays where it is on its way through the rounds. -/
def Stays (cs cs' : HotStuffConsensus) : Prop :=
  cs'.pacemaker = cs.pacemaker ∧ cs'.committedHeight = cs.committedHeight

/-- The machine decides a stored block above its last one, and moves on past its height. -/
def Decides (cs cs' : HotStuffConsensus) (block : Block) : Prop :=
  (∃ hash, cs.blockStore.get hash = some block) ∧ cs.committedHeight < block.number ∧
    cs'.committedHeight = block.number ∧
      ∃ epoch, cs'.pacemaker = cs.pacemaker.advanceRound (block.number + 1) epoch

/-- An error, silence, or a vote for the phase after `phase`. -/
def Answers (phase : UInt8) (result : Except ConsensusError (List ConsensusEvent)) : Prop :=
  (∃ e, result = .error e) ∨ result = .ok [] ∨
    ∃ v : Vote, result = .ok [.voteCast v] ∧ v.data.phase.toNat = phase.toNat + 1 ∧
      v.data.phase.toNat ≤ 2

/-- What a round with this result does. -/
def Outcome (cs cs' : HotStuffConsensus) : Option Block → Prop
  | none => cs'.committedHeight = cs.committedHeight ∧
      (cs'.pacemaker = cs.pacemaker ∨ cs'.pacemaker = cs.pacemaker.onTimeout.1)
  | some block => Decides cs cs' block

variable {P : Platform} {cs cs' cs'' : HotStuffConsensus} {vote : Vote} {pk : BlsPubKey}
  {qc : QuorumCertificate} {block : Block}

theorem Kept.refl (cs : HotStuffConsensus) : Kept cs cs := ⟨rfl,rfl,Finset.Subset.refl _⟩

theorem Kept.trans (h : Kept cs cs') (h' : Kept cs' cs'') : Kept cs cs'' :=
  ⟨h'.validatorSet.trans h.validatorSet,h'.blockStore.trans h.blockStore,
    h.votedPhases.trans h'.votedPhases⟩

theorem Stays.refl (cs : HotStuffConsensus) : Stays cs cs := ⟨rfl,rfl⟩

theorem Stays.trans (h : Stays cs cs') (h' : Stays cs' cs'') : Stays cs cs'' :=
  ⟨h'.1.trans h.1,h'.2.trans h.2⟩

theorem Decides.after (h : Decides cs' cs'' block) (hk : Kept cs cs') (hs : Stays cs cs') :
    Decides cs cs'' block := by
  obtain ⟨hstored,hheight,hcommitted,hround⟩ := h
  rw [hk.blockStore] at hstored
  rw [hs.2] at hheight
  rw [hs.1] at hround
  exact ⟨hstored,hheight,hcommitted,hround⟩

theorem votedPhases_updateLockedQc (rules : SafetyRules) (qc : QuorumCertificate) :
    (rules.updateLockedQc qc).state.votedPhases = rules.state.votedPhases := by
  unfold SafetyRules.updateLockedQc
  split
  · rfl
  · rfl

theorem voteNextPhase_outcome (cs : HotStuffConsensus) (qc : QuorumCertificate) (phase : Phase) :
    Kept cs (cs.voteNextPhase P qc phase).1 ∧ Stays cs (cs.voteNextPhase P qc phase).1 ∧
      ((cs.voteNextPhase P qc phase).2 = .ok [] ∨ ∃ v : Vote,
        (cs.voteNextPhase P qc phase).2 = .ok [.voteCast v] ∧ v.data.phase = phase.toUInt8) := by
  by_cases h : cs.safetyRules.state.Admits (cs.nextData qc phase) qc
  · rw [voteNextPhase_of_admits h]
    exact ⟨⟨rfl,rfl,Finset.subset_insert _ _⟩,Stays.refl cs,Or.inr ⟨_,rfl,rfl⟩⟩
  · rw [voteNextPhase_of_not_admits h]
    exact ⟨Kept.refl cs,Stays.refl cs,Or.inl rfl⟩

/-- A certificate is answered with a vote for the next phase, or decides a block. -/
theorem onQc_outcome (cs : HotStuffConsensus) (qc : QuorumCertificate) :
    Kept cs (cs.onQc P qc).1 ∧
      (Stays cs (cs.onQc P qc).1 ∧ Answers qc.phase (cs.onQc P qc).2 ∨
        ∃ block, (cs.onQc P qc).2 = .ok [.committed block qc] ∧ Decides cs (cs.onQc P qc).1 block) := by
  unfold onQc
  split
  · rename_i hphase
    have hlocked : Kept cs
        { cs with safetyRules := cs.safetyRules.updateLockedQc qc, highestQc := some qc } :=
      ⟨rfl,rfl,(votedPhases_updateLockedQc cs.safetyRules qc).ge⟩
    obtain ⟨hkept,hstays,hresult⟩ := voteNextPhase_outcome (P := P)
      { cs with safetyRules := cs.safetyRules.updateLockedQc qc, highestQc := some qc } qc .preCommit
    refine ⟨hlocked.trans hkept,Or.inl ⟨hstays,?_⟩⟩
    rcases hresult with hnil | ⟨v,hvote,hv⟩
    · exact Or.inr (Or.inl hnil)
    · exact Or.inr (Or.inr ⟨v,hvote,by rw [hv, hphase]; decide,by rw [hv]; decide⟩)
  · rename_i hphase
    obtain ⟨hkept,hstays,hresult⟩ := voteNextPhase_outcome (P := P) cs qc .commit
    refine ⟨hkept,Or.inl ⟨hstays,?_⟩⟩
    rcases hresult with hnil | ⟨v,hvote,hv⟩
    · exact Or.inr (Or.inl hnil)
    · exact Or.inr (Or.inr ⟨v,hvote,by rw [hv, hphase]; decide,by rw [hv]; decide⟩)
  · unfold decideBlock
    cases hget : cs.blockStore.get qc.blockHash with
    | none => exact ⟨Kept.refl cs,Or.inl ⟨Stays.refl cs,Or.inr (Or.inl rfl)⟩⟩
    | some block =>
      dsimp only
      split
      · rename_i hheight
        exact ⟨⟨rfl,rfl,Finset.Subset.refl _⟩,
          Or.inr ⟨block,rfl,⟨_,hget⟩,hheight,rfl,_,rfl⟩⟩
      · exact ⟨Kept.refl cs,Or.inl ⟨Stays.refl cs,Or.inr (Or.inl rfl)⟩⟩
  · exact ⟨Kept.refl cs,Or.inl ⟨Stays.refl cs,Or.inl ⟨_,rfl⟩⟩⟩

/-- A vote leads to the next phase, to a commit, or to nothing. -/
theorem onVote_outcome (cs : HotStuffConsensus) (vote : Vote) (pk : BlsPubKey) :
    Kept cs (cs.onVote P vote pk).1 ∧
      (Stays cs (cs.onVote P vote pk).1 ∧ Answers vote.data.phase (cs.onVote P vote pk).2 ∨
        ∃ block qc, (cs.onVote P vote pk).2 = .ok [.committed block qc] ∧
          Decides cs (cs.onVote P vote pk).1 block) := by
  have hframe := intakeFrame_acceptVote P cs vote pk
  have hkept : Kept cs (cs.acceptVote P vote pk).1 :=
    ⟨hframe.validatorSet,hframe.blockStore,by rw [hframe.safetyRules]⟩
  have hstays : Stays cs (cs.acceptVote P vote pk).1 := ⟨hframe.pacemaker,hframe.committedHeight⟩
  rcases onVote_cases P cs vote pk with ⟨-,hstate,hevents⟩ | ⟨qc,hformed,-,hnext⟩
  · rw [hstate]
    refine ⟨hkept,Or.inl ⟨hstays,?_⟩⟩
    cases hresult : (cs.onVote P vote pk).2 with
    | error e => exact Or.inl ⟨e,rfl⟩
    | ok events => exact Or.inr (Or.inl (by rw [hevents events hresult]))
  · have hdata : qc.phase = vote.data.phase := by
      obtain ⟨-,-,hcounts,-,rfl⟩ := formedQc_spec hformed
      exact (congrArg VoteData.phase hcounts.1).symm
    obtain ⟨hkept',houtcome⟩ := onQc_outcome (P := P) (cs.acceptVote P vote pk).1 qc
    rw [hnext, ← hdata]
    refine ⟨hkept.trans hkept',?_⟩
    rcases houtcome with ⟨hstays',hanswers⟩ | ⟨block,hcommitted,hdecides⟩
    · exact Or.inl ⟨hstays.trans hstays',hanswers⟩
    · exact Or.inr ⟨block,qc,hcommitted,hdecides.after hkept hstays⟩

/-- A queue that `onVote` fills: nothing yet, one vote of our own, or a decision. -/
def Ready (cs cs' : HotStuffConsensus) (queue : List ConsensusEvent) : Prop :=
  Stays cs cs' ∧ (queue = [] ∨ ∃ v, queue = [.voteCast v]) ∨
    ∃ block qc, queue = [.committed block qc] ∧ Decides cs cs' block

theorem kept_onVote {result : Except ConsensusError (List ConsensusEvent)}
    (h : cs.onVote P vote pk = (cs',result)) : Kept cs cs' := by
  have hkept := (onVote_outcome (P := P) cs vote pk).1
  rwa [h] at hkept

theorem stays_onVote {e : ConsensusError} (h : cs.onVote P vote pk = (cs',.error e)) :
    Stays cs cs' := by
  have houtcome := (onVote_outcome (P := P) cs vote pk).2
  rw [h] at houtcome
  rcases houtcome with ⟨hstays,-⟩ | ⟨block,qc,hcommitted,-⟩
  · exact hstays
  · cases hcommitted

theorem onVote_ok {events : List ConsensusEvent} (h : cs.onVote P vote pk = (cs',.ok events)) :
    Stays cs cs' ∧ (events = [] ∨ ∃ v : Vote, events = [.voteCast v] ∧
        v.data.phase.toNat = vote.data.phase.toNat + 1 ∧ v.data.phase.toNat ≤ 2) ∨
      ∃ block qc, events = [.committed block qc] ∧ Decides cs cs' block := by
  have houtcome := (onVote_outcome (P := P) cs vote pk).2
  rw [h] at houtcome
  rcases houtcome with ⟨hstays,⟨e,he⟩ | hnil | ⟨v,hvote,hphase⟩⟩ | ⟨block,qc,hcommitted,hdecides⟩
  · cases he
  · cases hnil
    exact Or.inl ⟨hstays,Or.inl rfl⟩
  · cases hvote
    exact Or.inl ⟨hstays,Or.inr ⟨v,rfl,hphase⟩⟩
  · cases hcommitted
    exact Or.inr ⟨block,qc,rfl,hdecides⟩

theorem ready_onVote {events : List ConsensusEvent} (h : cs.onVote P vote pk = (cs',.ok events)) :
    Ready cs cs' events := by
  rcases onVote_ok h with ⟨hstays,hnil | ⟨v,hvote,-⟩⟩ | hdecided
  · exact Or.inl ⟨hstays,Or.inl hnil⟩
  · exact Or.inl ⟨hstays,Or.inr ⟨v,hvote⟩⟩
  · exact Or.inr hdecided

theorem Ready.after {queue : List ConsensusEvent} (h : Ready cs' cs'' queue) (hk : Kept cs cs')
    (hs : Stays cs cs') : Ready cs cs'' queue := by
  rcases h with ⟨hs',hqueue⟩ | ⟨block,qc,hqueue,hdecides⟩
  · exact Or.inl ⟨hs.trans hs',hqueue⟩
  · exact Or.inr ⟨block,qc,hqueue,hdecides.after hk hs⟩

theorem processEvents_voteCast (fuel : ℕ) (rest : List ConsensusEvent) :
    processEvents P pk (fuel + 1) cs (.voteCast vote :: rest) =
      match cs.onVote P vote pk with
      | (cs, .ok moreEvents) => processEvents P pk fuel cs (rest ++ moreEvents)
      | (cs, .error _) => processEvents P pk fuel cs rest := rfl

theorem processEvents_nil (fuel : ℕ) : processEvents P pk fuel cs [] = (cs,none) := by
  cases fuel with
  | zero => rfl
  | succ fuel => rfl

theorem processEvents_committed (fuel : ℕ) (rest : List ConsensusEvent) :
    processEvents P pk fuel cs (.committed block qc :: rest) = (cs,some block) := by
  cases fuel with
  | zero => rfl
  | succ fuel => rfl

theorem processEvents_outcome (pk : BlsPubKey) (fuel : ℕ) {queue : List ConsensusEvent} (hkept : Kept cs cs')
    (hready : Ready cs cs' queue) :
    Kept cs (cs'.processEvents P pk fuel queue).1 ∧
      match (cs'.processEvents P pk fuel queue).2 with
      | none => Stays cs (cs'.processEvents P pk fuel queue).1
      | some block => Decides cs (cs'.processEvents P pk fuel queue).1 block := by
  induction fuel generalizing cs' queue with
  | zero =>
    rcases hready with ⟨hstays,rfl | ⟨v,rfl⟩⟩ | ⟨block,qc,rfl,hdecides⟩
    · exact ⟨hkept,hstays⟩
    · exact ⟨hkept,hstays⟩
    · exact ⟨hkept,hdecides⟩
  | succ fuel ih =>
    rcases hready with ⟨hstays,rfl | ⟨v,rfl⟩⟩ | ⟨block,qc,rfl,hdecides⟩
    · exact ⟨hkept,hstays⟩
    · rw [processEvents_voteCast]
      cases hvote : cs'.onVote P v pk with
      | mk next result =>
        have hkept' : Kept cs next := hkept.trans (kept_onVote hvote)
        cases result with
        | error e => exact ih hkept' (Or.inl ⟨hstays.trans (stays_onVote hvote),Or.inl rfl⟩)
        | ok events => exact ih hkept' ((ready_onVote hvote).after hkept hstays)
    · exact ⟨hkept,hdecides⟩

theorem waitForCommit_outcome (pk : BlsPubKey) (channelClosed : Bool) (inbound : List InboundVote)
    (hkept : Kept cs cs') (hstays : Stays cs cs') :
    Kept cs (cs'.waitForCommit P pk channelClosed inbound).1 ∧
      Outcome cs (cs'.waitForCommit P pk channelClosed inbound).1
        (cs'.waitForCommit P pk channelClosed inbound).2 := by
  induction inbound generalizing cs' with
  | nil =>
    unfold waitForCommit
    split
    · exact ⟨hkept,hstays.2,Or.inl hstays.1⟩
    · refine ⟨hkept.trans ⟨rfl,rfl,Finset.Subset.refl _⟩,hstays.2,Or.inr ?_⟩
      rw [← hstays.1]
      rfl
  | cons msg rest ih =>
    unfold waitForCommit
    cases hvote : cs'.onVote P msg.vote msg.pubkey with
    | mk next result =>
      have hkept' : Kept cs next := hkept.trans (kept_onVote hvote)
      cases result with
      | error e => exact ih hkept' (hstays.trans (stays_onVote hvote))
      | ok events =>
        have hready : Ready cs next events := (ready_onVote hvote).after hkept hstays
        obtain ⟨hkept'',hdone⟩ := processEvents_outcome (P := P) pk eventFuel hkept' hready
        dsimp only
        cases hevents : next.processEvents P pk eventFuel events with
        | mk last committed =>
          rw [hevents] at hkept'' hdone
          cases committed with
          | none => exact ih hkept'' hdone
          | some block => exact ⟨hkept'',hdone⟩

theorem collectVotes_outcome (pk : BlsPubKey) (channelClosed : Bool) (inbound : List InboundVote)
    {events : List ConsensusEvent} (hready : Ready cs cs events) :
    Kept cs (cs.collectVotes P pk channelClosed inbound events).1 ∧
      Outcome cs (cs.collectVotes P pk channelClosed inbound events).1
        (cs.collectVotes P pk channelClosed inbound events).2 := by
  unfold collectVotes
  obtain ⟨hkept,hdone⟩ := processEvents_outcome (P := P) pk eventFuel (Kept.refl cs) hready
  cases hevents : cs.processEvents P pk eventFuel events with
  | mk next committed =>
    rw [hevents] at hkept hdone
    cases committed with
    | some block =>
      dsimp only
      rw [if_neg (by simp)]
      exact ⟨hkept,hdone⟩
    | none =>
      dsimp only
      split
      · exact waitForCommit_outcome pk channelClosed inbound hkept hdone
      · exact ⟨hkept,hdone.2,Or.inl hdone.1⟩

/-- The queues that `process_events` is called with. -/
def Queued (queue : List ConsensusEvent) : Prop :=
  queue = [] ∨ (∃ v : Vote, queue = [.voteCast v] ∧ v.data.phase.toNat ≤ 2) ∨
    ∃ block qc, queue = [.committed block qc]

theorem queued_onVote {events : List ConsensusEvent} (h : cs.onVote P vote pk = (cs',.ok events)) :
    Queued events := by
  rcases onVote_ok h with ⟨-,hnil | ⟨v,hvote,-,hphase⟩⟩ | ⟨block,qc,hcommitted,-⟩
  · exact Or.inl hnil
  · exact Or.inr (Or.inl ⟨v,hvote,hphase⟩)
  · exact Or.inr (Or.inr ⟨block,qc,hcommitted⟩)

theorem queued_onProposal {parentQc : QuorumCertificate} {events : List ConsensusEvent}
    (h : (cs.onProposal P block parentQc).2 = .ok events) : Queued events := by
  by_cases hprop : cs.Proposable P block parentQc
  · rw [onProposal_of_proposable hprop] at h
    cases h
    have hphase : Phase.prepare.toUInt8.toNat ≤ 2 := by decide
    exact Or.inr (Or.inl ⟨_,rfl,hphase⟩)
  · obtain ⟨⟨e,he⟩,-⟩ := onProposal_of_not_proposable hprop
    rw [he] at h
    cases h

/-- The loop of `process_events`, with no bound on its rounds. -/
inductive WorksOff (P : Platform) (pk : BlsPubKey) :
    HotStuffConsensus → List ConsensusEvent → HotStuffConsensus × Option Block → Prop
  | empty (cs : HotStuffConsensus) : WorksOff P pk cs [] (cs,none)
  | committed (cs : HotStuffConsensus) (block : Block) (qc : QuorumCertificate) (rest : List ConsensusEvent) :
      WorksOff P pk cs (.committed block qc :: rest) (cs,some block)
  | voteCast {cs cs' : HotStuffConsensus} {vote : Vote} {more rest out} (h : cs.onVote P vote pk = (cs',.ok more))
      (hrest : WorksOff P pk cs' (rest ++ more) out) : WorksOff P pk cs (.voteCast vote :: rest) out
  | refused {cs cs' : HotStuffConsensus} {vote : Vote} {e rest out} (h : cs.onVote P vote pk = (cs',.error e))
      (hrest : WorksOff P pk cs' rest out) : WorksOff P pk cs (.voteCast vote :: rest) out
  | timeout {cs : HotStuffConsensus} {round rest out} (hrest : WorksOff P pk cs rest out) :
      WorksOff P pk cs (.timeout round :: rest) out
  | proposalRequired {cs : HotStuffConsensus} {round proposer rest out} (hrest : WorksOff P pk cs rest out) :
      WorksOff P pk cs (.proposalRequired round proposer :: rest) out

theorem worksOff_vote (fuel : ℕ) (v : Vote) (hphase : v.data.phase.toNat ≤ 2)
    (hfuel : 3 ≤ v.data.phase.toNat + fuel) :
    WorksOff P pk cs [.voteCast v] (cs.processEvents P pk fuel [.voteCast v]) := by
  induction fuel generalizing cs v with
  | zero => omega
  | succ fuel ih =>
    rw [processEvents_voteCast]
    cases hvote : cs.onVote P v pk with
    | mk next result =>
      cases result with
      | error e =>
        dsimp only
        rw [processEvents_nil]
        exact .refused hvote (.empty _)
      | ok events =>
        refine .voteCast hvote ?_
        -- each vote in the queue answers one of the phase before, so the fuel left suffices
        rcases onVote_ok hvote with ⟨-,rfl | ⟨v',rfl,hnext,hphase'⟩⟩ | ⟨block,qc,rfl,-⟩
        · simp only [List.append_nil, processEvents_nil]
          exact .empty _
        · exact ih v' hphase' (by omega)
        · simp only [List.nil_append, processEvents_committed]
          exact .committed _ _ _ _

theorem worksOff_queued {queue : List ConsensusEvent} (hqueue : Queued queue) :
    WorksOff P pk cs queue (cs.processEvents P pk eventFuel queue) := by
  rcases hqueue with rfl | ⟨v,rfl,hphase⟩ | ⟨block,qc,rfl⟩
  · rw [processEvents_nil]
    exact .empty _
  · exact worksOff_vote eventFuel v hphase (Nat.le_add_left 3 _)
  · rw [processEvents_committed]
    exact .committed _ _ _ _

/-- The events of an answer are worked off in three rounds. -/
def LoopEnds (P : Platform) (pk : BlsPubKey) :
    HotStuffConsensus × Except ConsensusError (List ConsensusEvent) → Prop
  | (cs,.ok events) => WorksOff P pk cs events (cs.processEvents P pk eventFuel events)
  | (_,.error _) => True

/-- Feeding its own votes back to itself, a node always comes to an end: after a proposal as after a vote. -/
theorem event_loop_ends (P : Platform) (pk pk' : BlsPubKey) (cs : HotStuffConsensus) (block : Block)
    (parentQc : QuorumCertificate) (vote : Vote) :
    LoopEnds P pk (cs.onProposal P block parentQc) ∧ LoopEnds P pk (cs.onVote P vote pk') := by
  constructor
  · rcases hanswer : cs.onProposal P block parentQc with ⟨next,e | events⟩
    · trivial
    · exact worksOff_queued (queued_onProposal (congrArg Prod.snd hanswer))
  · rcases hanswer : cs.onVote P vote pk' with ⟨next,e | events⟩
    · trivial
    · exact worksOff_queued (queued_onVote hanswer)

end ZbxChain.HotStuffConsensus
