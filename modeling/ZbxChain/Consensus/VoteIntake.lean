import ZbxChain.Consensus.HotStuff

/-! # How a vote is taken in

A vote gets past the filters of `on_vote` when it is authentic and its voter has not
been seen with another hash. Such a vote is remembered and handed to the accumulator
of its block number and phase; any other vote moves a counter at most.
-/
namespace ZbxChain.HotStuffConsensus
open Machine

abbrev Step := Entry HotStuffConsensus Call (Except ConsensusError (List ConsensusEvent))

def Authentic (P : Platform) (cs : HotStuffConsensus) (vote : Vote) (pk : BlsPubKey) : Prop :=
  vote.voter ∈ cs.validatorSet.validators ∧ cs.validatorPubkeys.lookup vote.voter = some pk ∧
    P.verifySingle vote.signature pk (vote.data.signingHash P) = true

def seenHash (cs : HotStuffConsensus) (vote : Vote) : Option H256 :=
  (cs.seenVotes.lookup (vote.data.blockNumber,vote.data.phase,vote.voter)).map Prod.fst

def Equivocates (cs : HotStuffConsensus) (vote : Vote) : Prop :=
  ∃ h, cs.seenHash vote = some h ∧ h ≠ vote.data.blockHash

def remember (cs : HotStuffConsensus) (vote : Vote) (pk : BlsPubKey) : HotStuffConsensus :=
  match cs.seenVotes.lookup (vote.data.blockNumber,vote.data.phase,vote.voter) with
  | some _ => cs
  | none =>
    { cs with
      seenVotes := cs.seenVotes.insert (vote.data.blockNumber,vote.data.phase,vote.voter)
        (vote.data.blockHash,vote,pk) }

/-- The certificate that a call hands to `onQc`. -/
def formedQc (P : Platform) (cs : HotStuffConsensus) : Call → Option QuorumCertificate
  | .vote vote pk =>
    match (cs.acceptVote P vote pk).2 with
    | .ok (some qc) => some qc
    | _ => none
  | _ => none

/-- What no vote and no certificate changes. -/
structure Frame (cs cs' : HotStuffConsensus) : Prop where
  myAddress : cs'.myAddress = cs.myAddress
  validatorSet : cs'.validatorSet = cs.validatorSet
  validatorPubkeys : cs'.validatorPubkeys = cs.validatorPubkeys
  blockStore : cs'.blockStore = cs.blockStore

/-- What taking a vote in leaves to the handling of certificates. -/
structure IntakeFrame (cs cs' : HotStuffConsensus) : Prop extends Frame cs cs' where
  safetyRules : cs'.safetyRules = cs.safetyRules
  pacemaker : cs'.pacemaker = cs.pacemaker
  committedHeight : cs'.committedHeight = cs.committedHeight
  highestQc : cs'.highestQc = cs.highestQc

/-- What the handling of certificates leaves to the intake of votes. -/
structure QcFrame (cs cs' : HotStuffConsensus) : Prop extends Frame cs cs' where
  voteAccumulators : cs'.voteAccumulators = cs.voteAccumulators
  seenVotes : cs'.seenVotes = cs.seenVotes

variable {P : Platform} {cs cs' cs'' : HotStuffConsensus} {vote : Vote} {pk : BlsPubKey}
  {qc : QuorumCertificate}

theorem Frame.refl (cs : HotStuffConsensus) : Frame cs cs := ⟨rfl,rfl,rfl,rfl⟩

theorem Frame.trans (h : Frame cs cs') (h' : Frame cs' cs'') : Frame cs cs'' :=
  ⟨h'.myAddress.trans h.myAddress,h'.validatorSet.trans h.validatorSet,
    h'.validatorPubkeys.trans h.validatorPubkeys,h'.blockStore.trans h.blockStore⟩

theorem QcFrame.refl (cs : HotStuffConsensus) : QcFrame cs cs := ⟨Frame.refl cs,rfl,rfl⟩

theorem QcFrame.trans (h : QcFrame cs cs') (h' : QcFrame cs' cs'') : QcFrame cs cs'' :=
  ⟨h.toFrame.trans h'.toFrame,h'.voteAccumulators.trans h.voteAccumulators,
    h'.seenVotes.trans h.seenVotes⟩

theorem qcFrame_update (cs : HotStuffConsensus) (rules : SafetyRules) (pacemaker : Pacemaker)
    (height : UInt64) (highest : Option QuorumCertificate) :
    QcFrame cs { cs with
      safetyRules := rules, pacemaker := pacemaker, committedHeight := height, highestQc := highest } :=
  ⟨⟨rfl,rfl,rfl,rfl⟩,rfl,rfl⟩

theorem remember_eq (cs : HotStuffConsensus) (vote : Vote) (pk : BlsPubKey) :
    ∃ seen, cs.remember vote pk = { cs with seenVotes := seen } := by
  unfold remember
  split
  · exact ⟨_,rfl⟩
  · exact ⟨_,rfl⟩

@[simp] theorem accumulator_remember (data : VoteData) :
    (cs.remember vote pk).accumulator data = cs.accumulator data := by
  obtain ⟨seen,hseen⟩ := remember_eq cs vote pk
  rw [hseen]
  rfl

@[simp] theorem voteAccumulators_remember :
    (cs.remember vote pk).voteAccumulators = cs.voteAccumulators := by
  obtain ⟨seen,hseen⟩ := remember_eq cs vote pk
  rw [hseen]

theorem acceptVote_of_authentic (ha : cs.Authentic P vote pk) (hn : ¬ cs.Equivocates vote) :
    cs.acceptVote P vote pk = (cs.remember vote pk).accumulate P vote pk := by
  obtain ⟨hmember,hkey,hsig⟩ := ha
  have hcontains : cs.validatorSet.contains vote.voter = true := decide_eq_true hmember
  unfold acceptVote remember
  simp only [hcontains, not_true_eq_false, ↓reduceIte, hkey, ne_eq, hsig]
  cases hseen : cs.seenVotes.lookup (vote.data.blockNumber,vote.data.phase,vote.voter) with
  | none => rfl
  | some entry =>
    have hsame : entry.1 = vote.data.blockHash := by
      by_contra hne
      exact hn ⟨entry.1,by simp [seenHash, hseen],hne⟩
    simp only [hsame, not_true_eq_false, ↓reduceIte]

theorem acceptVote_counters (h : ¬ (cs.Authentic P vote pk ∧ ¬ cs.Equivocates vote)) :
    ∃ unregistered mismatch invalidSig nonValidator,
      (cs.acceptVote P vote pk).1 = { cs with
        droppedUnregistered := unregistered, droppedPubkeyMismatch := mismatch
        droppedInvalidSig := invalidSig, droppedNonValidator := nonValidator } ∧
      ∀ qc, (cs.acceptVote P vote pk).2 ≠ .ok (some qc) := by
  unfold acceptVote
  split
  · exact ⟨_,_,_,_,rfl,fun _ => nofun⟩
  rename_i hcontains
  have hmember : vote.voter ∈ cs.validatorSet.validators := by
    simpa [ValidatorSet.contains] using hcontains
  cases hkey : cs.validatorPubkeys.lookup vote.voter with
  | none => exact ⟨_,_,_,_,rfl,fun _ => nofun⟩
  | some registered =>
    simp only []
    split
    · exact ⟨_,_,_,_,rfl,fun _ => nofun⟩
    rename_i hpk
    split
    · exact ⟨_,_,_,_,rfl,fun _ => nofun⟩
    rename_i hsig
    -- past the filters, the one reason left is an earlier vote for another hash
    have hauth : cs.Authentic P vote pk :=
      ⟨hmember,by rw [hkey, not_not.mp hpk],not_not.mp hsig⟩
    have heq : cs.Equivocates vote := not_not.mp (fun hn => h ⟨hauth,hn⟩)
    obtain ⟨hash,hseen,hne⟩ := heq
    obtain ⟨entry,hlook,rfl⟩ := Option.map_eq_some_iff.mp hseen
    simp only [hlook, ne_eq, hne, not_false_eq_true, ↓reduceIte]
    exact ⟨_,_,_,_,rfl,fun _ => nofun⟩

/-- A vote that is filtered out is not remembered. -/
theorem acceptVote_of_filtered (h : ¬ (cs.Authentic P vote pk ∧ ¬ cs.Equivocates vote)) :
    IntakeFrame cs (cs.acceptVote P vote pk).1 ∧
      (cs.acceptVote P vote pk).1.voteAccumulators = cs.voteAccumulators ∧
      (cs.acceptVote P vote pk).1.seenVotes = cs.seenVotes ∧
      ∀ qc, (cs.acceptVote P vote pk).2 ≠ .ok (some qc) := by
  obtain ⟨_,_,_,_,hstate,hno⟩ := acceptVote_counters h
  rw [hstate]
  exact ⟨⟨⟨rfl,rfl,rfl,rfl⟩,rfl,rfl,rfl,rfl⟩,rfl,rfl,hno⟩

theorem intakeFrame_acceptVote (P : Platform) (cs : HotStuffConsensus) (vote : Vote) (pk : BlsPubKey) :
    IntakeFrame cs (cs.acceptVote P vote pk).1 := by
  by_cases h : cs.Authentic P vote pk ∧ ¬ cs.Equivocates vote
  · obtain ⟨seen,hseen⟩ := remember_eq cs vote pk
    rw [acceptVote_of_authentic h.1 h.2, hseen]
    exact ⟨⟨rfl,rfl,rfl,rfl⟩,rfl,rfl,rfl,rfl⟩
  · exact (acceptVote_of_filtered h).1

theorem qcFrame_voteNextPhase (cs : HotStuffConsensus) (qc : QuorumCertificate) (phase : Phase) :
    QcFrame cs (cs.voteNextPhase P qc phase).1 := by
  unfold voteNextPhase
  simp only []
  split
  · exact qcFrame_update cs _ _ _ _
  · exact qcFrame_update cs _ _ _ _

theorem qcFrame_decideBlock (cs : HotStuffConsensus) (qc : QuorumCertificate) :
    QcFrame cs (cs.decideBlock qc).1 := by
  unfold decideBlock
  split
  · exact QcFrame.refl cs
  · split
    · exact qcFrame_update cs _ _ _ _
    · exact QcFrame.refl cs

theorem qcFrame_onQc : QcFrame cs (cs.onQc P qc).1 := by
  unfold onQc
  split
  · have hlocked : QcFrame cs
        { cs with safetyRules := cs.safetyRules.updateLockedQc qc, highestQc := some qc } :=
      qcFrame_update cs _ _ _ _
    exact hlocked.trans (qcFrame_voteNextPhase _ qc .preCommit)
  · exact qcFrame_voteNextPhase cs qc .commit
  · exact qcFrame_decideBlock cs qc
  · exact QcFrame.refl cs

/-- A vote is only counted, or it completes a certificate. -/
theorem onVote_cases (P : Platform) (cs : HotStuffConsensus) (vote : Vote) (pk : BlsPubKey) :
    (cs.formedQc P (.vote vote pk) = none ∧
      (cs.onVote P vote pk).1 = (cs.acceptVote P vote pk).1 ∧
      ∀ events, (cs.onVote P vote pk).2 = .ok events → events = []) ∨
    ∃ qc, cs.formedQc P (.vote vote pk) = some qc ∧
      (cs.acceptVote P vote pk).2 = .ok (some qc) ∧
      cs.onVote P vote pk = (cs.acceptVote P vote pk).1.onQc P qc := by
  cases hnext : cs.acceptVote P vote pk with
  | mk cs' result =>
    simp only [formedQc, onVote, hnext]
    cases result with
    | error e => exact Or.inl ⟨rfl,rfl,fun _ => nofun⟩
    | ok formed =>
      cases formed with
      | none => exact Or.inl ⟨rfl,rfl,fun _ h => by cases h; rfl⟩
      | some qc => exact Or.inr ⟨qc,rfl,rfl,rfl⟩

theorem onVote_tally (P : Platform) (cs : HotStuffConsensus) (vote : Vote) (pk : BlsPubKey) :
    QcFrame (cs.acceptVote P vote pk).1 (cs.onVote P vote pk).1 := by
  rcases onVote_cases P cs vote pk with ⟨-,hstate,-⟩ | ⟨qc,-,-,heq⟩
  · rw [hstate]
    exact QcFrame.refl _
  · rw [heq]
    exact qcFrame_onQc

theorem frame_onVote : Frame cs (cs.onVote P vote pk).1 :=
  (intakeFrame_acceptVote P cs vote pk).toFrame.trans (onVote_tally P cs vote pk).toFrame

end ZbxChain.HotStuffConsensus
