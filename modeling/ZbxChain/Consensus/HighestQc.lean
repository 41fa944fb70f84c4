import ZbxChain.Consensus.HotStuff2
import ZbxChain.Foundation.Machine

/-! # What the calls of the two-phase machine can do

A call leaves the two kept certificates alone or puts a higher one on top. Commits and
vote requests come from proposals only, and a proposal has one of four outcomes.
-/
namespace ZbxChain.HotStuff2
open Machine

abbrev Step := Entry HotStuff2 Call (Except ConsensusError (List Hs2Event))

def events : Except ConsensusError (List Hs2Event) → List Hs2Event
  | .ok es => es
  | .error _ => []

def requestOf : Hs2Event → Option VoteData
  | .voteRequest data => some data
  | _ => none

def committedOf : Hs2Event → Option (Block × QuorumCertificate)
  | .committed block qc => some (block,qc)
  | _ => none

def requests (e : Step) : List VoteData := (events e.output).filterMap requestOf

def commits (e : Step) : List (Block × QuorumCertificate) := (events e.output).filterMap committedOf

/-- The highest certificate stays, or a higher one moves it to second place. -/
def Raises (hs hs' : HotStuff2) : Prop :=
  hs'.highestQc = hs.highestQc ∧ hs'.prevQc = hs.prevQc ∨
    hs.highestQc.blockNumber < hs'.highestQc.blockNumber ∧ hs'.prevQc = some hs.highestQc

structure Silent (r : HotStuff2 × Except ConsensusError (List Hs2Event)) : Prop where
  requests : (events r.2).filterMap requestOf = []
  commits : (events r.2).filterMap committedOf = []

/-- What an `onProposal` that goes on to a vote leaves behind. -/
def votedFor (P : Platform) (hs : HotStuff2) (block : Block) (round : UInt64) (now : ℕ) : HotStuff2 :=
  { hs with
    voteAccum := some (.new ⟨block.header.hash P,round,0,hs.currentEpoch⟩ hs.quorum)
    votedAt := hs.votedAt.insert round (block.header.hash P)
    phase := .voted round (block.header.hash P)
    roundTimer := hs.roundTimer.start now }

variable {P : Platform} {hs hs' : HotStuff2} {block : Block} {justify qc : QuorumCertificate} {now : ℕ}

theorem Raises.le (h : Raises hs hs') : hs.highestQc.blockNumber ≤ hs'.highestQc.blockNumber := by
  rcases h with ⟨hsame,-⟩ | ⟨hlt,-⟩
  · rw [hsame]
    exact UInt64.le_refl _
  · exact UInt64.le_of_lt hlt

theorem Raises.refl (hs : HotStuff2) : Raises hs hs := Or.inl ⟨rfl,rfl⟩

theorem Raises.congr {hs'' : HotStuff2} (h : Raises hs hs') (hhigh : hs''.highestQc = hs'.highestQc)
    (hprev : hs''.prevQc = hs'.prevQc) : Raises hs hs'' := by
  unfold Raises
  rw [hhigh, hprev]
  exact h

@[simp] theorem votedAt_adoptQc : (hs.adoptQc qc).votedAt = hs.votedAt := by
  unfold adoptQc
  split
  · rfl
  · rfl

@[simp] theorem currentEpoch_adoptQc : (hs.adoptQc qc).currentEpoch = hs.currentEpoch := by
  unfold adoptQc
  split
  · rfl
  · rfl

theorem adoptQc_of_le (h : ¬ hs.highestQc.blockNumber < qc.blockNumber) : hs.adoptQc qc = hs :=
  if_neg h

/-- A certificate is adopted only over a lower one. -/
theorem raises_adoptQc (hs : HotStuff2) (qc : QuorumCertificate) : Raises hs (hs.adoptQc qc) := by
  unfold adoptQc
  split
  · rename_i hlt
    exact Or.inr ⟨hlt,rfl⟩
  · exact Raises.refl hs

theorem le_highestQc_adoptQc : qc.blockNumber ≤ (hs.adoptQc qc).highestQc.blockNumber := by
  unfold adoptQc
  split
  · exact UInt64.le_refl _
  · rename_i hle
    exact UInt64.not_lt.mp hle

/-- All that a proposal can come to. -/
theorem onProposal_cases (P : Platform) (hs : HotStuff2) (block : Block) (justify : QuorumCertificate)
    (now : ℕ) :
    (justify.blockNumber < hs.highestQc.blockNumber ∧
      hs.onProposal P block justify now =
        (hs, .error (.staleProposal (justify.blockNumber + 1) hs.highestQc.blockNumber))) ∨
    ¬ justify.blockNumber < hs.highestQc.blockNumber ∧
      ((∃ prevHash, hs.votedAt.lookup (justify.blockNumber + 1) = some prevHash ∧
          prevHash ≠ block.header.hash P ∧
          hs.onProposal P block justify now = (hs.adoptQc justify,
            .error (.equivocation (justify.blockNumber + 1) prevHash (block.header.hash P)))) ∨
        (hs.votedAt.lookup (justify.blockNumber + 1) = some (block.header.hash P) ∧
          hs.onProposal P block justify now =
            (hs.adoptQc justify, .ok (hs.commitRule block justify))) ∨
        (hs.votedAt.lookup (justify.blockNumber + 1) = none ∧
          hs.onProposal P block justify now =
            ((hs.adoptQc justify).votedFor P block (justify.blockNumber + 1) now,
              .ok (hs.commitRule block justify ++ [.voteRequest
                ⟨block.header.hash P,justify.blockNumber + 1,0,hs.currentEpoch⟩])))) := by
  by_cases hstale : justify.blockNumber < hs.highestQc.blockNumber
  · exact Or.inl ⟨hstale,if_pos hstale⟩
  · refine Or.inr ⟨hstale,?_⟩
    unfold onProposal
    simp only [if_neg hstale, votedAt_adoptQc, currentEpoch_adoptQc]
    cases hvoted : hs.votedAt.lookup (justify.blockNumber + 1) with
    | none =>
      refine Or.inr (Or.inr ⟨rfl,?_⟩)
      simp only [votedFor, votedAt_adoptQc, currentEpoch_adoptQc]
    | some prevHash =>
      by_cases hsame : prevHash = block.header.hash P
      · exact Or.inr (Or.inl ⟨by rw [hsame],if_neg (not_not.mpr hsame)⟩)
      · exact Or.inl ⟨prevHash,rfl,hsame,if_pos hsame⟩

theorem raises_onProposal : Raises hs (hs.onProposal P block justify now).1 := by
  rcases onProposal_cases P hs block justify now with
    ⟨-,h⟩ | ⟨-,⟨prevHash,-,-,h⟩ | ⟨-,h⟩ | ⟨-,h⟩⟩
  · rw [h]
    exact Raises.refl hs
  · rw [h]
    exact raises_adoptQc hs justify
  · rw [h]
    exact raises_adoptQc hs justify
  · rw [h]
    exact (raises_adoptQc hs justify).congr rfl rfl

/-- What a vote or a timeout share does: it may raise the highest certificate, and that is
all that proposals see of it. -/
structure Backstage (hs : HotStuff2) (r : HotStuff2 × Except ConsensusError (List Hs2Event)) : Prop
    extends Silent r where
  raises : Raises hs r.1
  votedAt : r.1.votedAt = hs.votedAt

theorem Backstage.refl (hs : HotStuff2) (e : Except ConsensusError (List Hs2Event))
    (he : events e = []) : Backstage hs (hs,e) := by
  refine ⟨⟨?_,?_⟩,Raises.refl hs,rfl⟩
  · simp only [he, List.filterMap_nil]
  · simp only [he, List.filterMap_nil]

theorem backstage_update (hs : HotStuff2) {result : Except ConsensusError (List Hs2Event)}
    (hsilent : Silent (hs,result)) (phase : Hs2Phase) (roundTimer : AdaptiveTimer)
    (voteAccum : Option VoteAccumulator) (tcAccum : TcAccumulator)
    (seenVotes : Table (UInt64 × UInt8 × Address) (H256 × Vote × BlsPubKey))
    (validatorPubkeys : Table Address BlsPubKey) :
    Backstage hs ({ hs with
      phase := phase, roundTimer := roundTimer, voteAccum := voteAccum, tcAccum := tcAccum
      seenVotes := seenVotes, validatorPubkeys := validatorPubkeys }, result) :=
  ⟨⟨hsilent.requests,hsilent.commits⟩,(Raises.refl hs).congr rfl rfl,rfl⟩

theorem silent_nil (hs : HotStuff2) : Silent (hs,.ok []) := ⟨rfl,rfl⟩

theorem Backstage.trans {r : HotStuff2 × Except ConsensusError (List Hs2Event)}
    (h : Backstage hs' r) (hhigh : hs'.highestQc = hs.highestQc) (hprev : hs'.prevQc = hs.prevQc)
    (hvoted : hs'.votedAt = hs.votedAt) : Backstage hs r := by
  obtain ⟨hsilent,hraises,hkept⟩ := h
  refine ⟨hsilent,?_,hkept.trans hvoted⟩
  unfold Raises at hraises ⊢
  rw [hhigh, hprev] at hraises
  exact hraises

theorem backstage_onQuorum : Backstage hs (hs.onQuorum P qc now) := by
  have hraises := raises_adoptQc { hs with roundTimer := hs.roundTimer.onQuorumReached now } qc
  unfold onQuorum
  dsimp only
  split
  · exact ⟨⟨rfl,rfl⟩,hraises.congr rfl rfl,votedAt_adoptQc⟩
  · exact ⟨⟨rfl,rfl⟩,hraises.congr rfl rfl,votedAt_adoptQc⟩

theorem backstage_tallyVote (vote : Vote) (pubkey : BlsPubKey) :
    Backstage hs (hs.tallyVote P vote pubkey now) := by
  unfold tallyVote
  cases hs.voteAccum with
  | none => exact Backstage.refl hs _ rfl
  | some accum =>
    dsimp only
    split
    · exact backstage_onQuorum.trans rfl rfl rfl
    · exact backstage_update hs (silent_nil hs) _ _ _ _ _ _

theorem backstage_onVote (vote : Vote) (pubkey : BlsPubKey) :
    Backstage hs (hs.onVote P vote pubkey now) := by
  unfold onVote
  split
  · exact Backstage.refl hs _ rfl
  cases hs.validatorPubkeys.lookup vote.voter with
  | none => exact Backstage.refl hs _ rfl
  | some registered =>
    dsimp only
    split
    · exact Backstage.refl hs _ rfl
    split
    · exact Backstage.refl hs _ rfl
    split
    · split
      · exact Backstage.refl hs _ rfl
      · exact backstage_tallyVote vote pubkey
    · exact (backstage_tallyVote vote pubkey).trans rfl rfl rfl

theorem backstage_onTimeoutShare (share : TimeoutShare) (pubkey : BlsPubKey) :
    Backstage hs (hs.onTimeoutShare P share pubkey) := by
  unfold onTimeoutShare
  dsimp only
  split
  · exact backstage_update hs (silent_nil hs) _ _ _ _ _ _
  · split
    · exact backstage_update hs ⟨rfl,rfl⟩ _ _ _ _ _ _
    · split
      · exact backstage_update hs ⟨rfl,rfl⟩ _ _ _ _ _ _
      · exact backstage_update hs (silent_nil hs) _ _ _ _ _ _

theorem backstage_checkTimer (currentRound : UInt64) :
    Backstage hs (step P hs (.checkTimer currentRound now)) := by
  rw [step]
  unfold checkTimer
  split
  · exact backstage_update hs ⟨rfl,rfl⟩ _ _ _ _ _ _
  · exact Backstage.refl hs _ rfl

theorem backstage_registerValidatorPubkey (addr : Address) (pk : BlsPubKey) :
    Backstage hs (step P hs (.registerValidatorPubkey addr pk)) := by
  rw [step]
  unfold registerValidatorPubkey
  split
  · split
    · exact Backstage.refl hs _ rfl
    · exact backstage_update hs (silent_nil hs) _ _ _ _ _ _
  · exact backstage_update hs (silent_nil hs) _ _ _ _ _ _

theorem step_cases (P : Platform) (hs : HotStuff2) (call : Call) :
    (∃ block justify now, call = .proposal block justify now) ∨
      (∃ committedRound, call = .pruneVotedBelow committedRound) ∨
        (∀ block justify now, call ≠ .proposal block justify now) ∧ Backstage hs (step P hs call) := by
  cases call with
  | proposal block justify now => exact Or.inl ⟨block,justify,now,rfl⟩
  | vote vote pubkey now => exact Or.inr (Or.inr ⟨by simp,backstage_onVote vote pubkey⟩)
  | timeoutShare share pubkey => exact Or.inr (Or.inr ⟨by simp,backstage_onTimeoutShare share pubkey⟩)
  | checkTimer currentRound now => exact Or.inr (Or.inr ⟨by simp,backstage_checkTimer currentRound⟩)
  | pruneVotedBelow committedRound => exact Or.inr (Or.inl ⟨committedRound,rfl⟩)
  | registerValidatorPubkey addr pk =>
    exact Or.inr (Or.inr ⟨by simp,backstage_registerValidatorPubkey addr pk⟩)

/-- No call lowers the highest certificate. -/
theorem raises_step (call : Call) : Raises hs (step P hs call).1 := by
  rcases step_cases P hs call with ⟨block,justify,now,rfl⟩ | ⟨committedRound,rfl⟩ | ⟨-,h⟩
  · exact raises_onProposal
  · exact (Raises.refl hs).congr rfl rfl
  · exact h.raises

end ZbxChain.HotStuff2
