import ZbxChain.Consensus.Vote
import ZbxChain.Foundation.Machine

/-! # Safety rules: when a validator may sign a vote

`vote` runs its four checks in the order of the source. What the checks let through
is the predicate `SafetyState.Admits`, and what a granted vote leaves behind is
`SafetyState.record`; every later argument about votes goes through these two.
-/
namespace ZbxChain

structure SafetyState where
  highestVoteRound : UInt64
  lockedRound : UInt64
  lockedQc : Option QuorumCertificate
  epoch : UInt64
  votedPhases : Finset (UInt64 × UInt8)
  deriving DecidableEq

/-- A path with a file name, as `PathBuf` splits it. -/
structure PathBuf where
  parent : String
  fileStem : String
  extension : Option String
  deriving DecidableEq

def PathBuf.withExtension (p : PathBuf) (ext : String) : PathBuf := { p with extension := some ext }

structure SafetyRules where
  state : SafetyState
  privKey : BlsPrivKey
  pubKey : BlsPubKey
  address : Address
  persistPath : Option PathBuf
  deriving DecidableEq

namespace SafetyState

def default : SafetyState := ⟨0,0,none,0,∅⟩

/-- What the four checks of `vote` let through. -/
def Admits (s : SafetyState) (data : VoteData) (parentQc : QuorumCertificate) : Prop :=
  s.highestVoteRound ≤ data.blockNumber ∧ (data.blockNumber,data.phase) ∉ s.votedPhases ∧
    s.lockedRound ≤ parentQc.blockNumber ∧ (data.epoch = s.epoch ∨ s.epoch = 0)

instance (s : SafetyState) (data : VoteData) (parentQc : QuorumCertificate) :
    Decidable (s.Admits data parentQc) := inferInstanceAs (Decidable (_ ∧ _ ∧ _ ∧ _))

def record (s : SafetyState) (data : VoteData) : SafetyState :=
  { s with
    highestVoteRound := data.blockNumber
    votedPhases := insert (data.blockNumber,data.phase) s.votedPhases }

@[simp] theorem record_highestVoteRound (s : SafetyState) (data : VoteData) :
    (s.record data).highestVoteRound = data.blockNumber := rfl
@[simp] theorem record_lockedRound (s : SafetyState) (data : VoteData) :
    (s.record data).lockedRound = s.lockedRound := rfl
@[simp] theorem record_lockedQc (s : SafetyState) (data : VoteData) :
    (s.record data).lockedQc = s.lockedQc := rfl
@[simp] theorem record_epoch (s : SafetyState) (data : VoteData) :
    (s.record data).epoch = s.epoch := rfl
@[simp] theorem record_votedPhases (s : SafetyState) (data : VoteData) :
    (s.record data).votedPhases = insert (data.blockNumber,data.phase) s.votedPhases := rfl

end SafetyState

namespace SafetyRules

def new (P : Platform) (privKey : BlsPrivKey) (address : Address) : SafetyRules :=
  ⟨.default,privKey,P.toPubkey privKey,address,none⟩

/-- The signed vote that a validator issues for `data`. -/
def ballot (P : Platform) (rules : SafetyRules) (data : VoteData) : Vote :=
  ⟨data,rules.address,P.sign rules.privKey (data.signingHash P)⟩

def vote (P : Platform) (rules : SafetyRules) (data : VoteData) (parentQc : QuorumCertificate) :
    SafetyRules × Except ConsensusError Vote :=
  if data.blockNumber < rules.state.highestVoteRound then
    (rules, .error (.staleRound data.blockNumber rules.state.highestVoteRound))
  else if (data.blockNumber,data.phase) ∈ rules.state.votedPhases then
    (rules, .error (.duplicateVote
      s!"already voted for block {data.blockNumber} phase {data.phase}"))
  else if parentQc.blockNumber < rules.state.lockedRound then
    (rules, .error (.safetyViolation
      s!"parent QC round {parentQc.blockNumber} < locked round {rules.state.lockedRound}"))
  else if data.epoch ≠ rules.state.epoch ∧ rules.state.epoch ≠ 0 then
    (rules, .error (.safetyViolation
      s!"epoch mismatch: expected {rules.state.epoch}, got {data.epoch}"))
  else ({ rules with state := rules.state.record data }, .ok (rules.ballot P data))

def updateLockedQc (rules : SafetyRules) (qc : QuorumCertificate) : SafetyRules :=
  if rules.state.lockedRound < qc.blockNumber then
    { rules with state := { rules.state with lockedRound := qc.blockNumber, lockedQc := some qc } }
  else rules

/-- The lock survives the change of epoch, the record of voted phases does not. -/
def advanceEpoch (rules : SafetyRules) (newEpoch : UInt64) : SafetyRules :=
  if rules.state.epoch < newEpoch then
    { rules with state := { rules.state with epoch := newEpoch, votedPhases := ∅ } }
  else rules

variable {P : Platform} {rules : SafetyRules} {data : VoteData} {parentQc : QuorumCertificate}

/-- An admitted vote is recorded and saved. -/
theorem vote_of_admits (h : rules.state.Admits data parentQc) :
    rules.vote P data parentQc =
      ({ rules with state := rules.state.record data }, .ok (rules.ballot P data)) := by
  obtain ⟨hround,hphase,hlock,hepoch⟩ := h
  have hepoch' : ¬ (data.epoch ≠ rules.state.epoch ∧ rules.state.epoch ≠ 0) := by
    rintro ⟨hne,hz⟩
    exact hepoch.elim hne hz
  unfold vote
  rw [if_neg (UInt64.not_lt.mpr hround), if_neg hphase, if_neg (UInt64.not_lt.mpr hlock),
    if_neg hepoch']

/-- Any other vote changes nothing. -/
theorem vote_of_not_admits (h : ¬ rules.state.Admits data parentQc) :
    ∃ e, rules.vote P data parentQc = (rules, .error e) := by
  unfold vote
  by_cases hround : data.blockNumber < rules.state.highestVoteRound
  · exact ⟨_,if_pos hround⟩
  by_cases hphase : (data.blockNumber,data.phase) ∈ rules.state.votedPhases
  · exact ⟨_,by rw [if_neg hround, if_pos hphase]⟩
  by_cases hlock : parentQc.blockNumber < rules.state.lockedRound
  · exact ⟨_,by rw [if_neg hround, if_neg hphase, if_pos hlock]⟩
  by_cases hepoch : data.epoch ≠ rules.state.epoch ∧ rules.state.epoch ≠ 0
  · exact ⟨_,by rw [if_neg hround, if_neg hphase, if_neg hlock, if_pos hepoch]⟩
  · refine absurd ⟨UInt64.not_lt.mp hround,hphase,UInt64.not_lt.mp hlock,?_⟩ h
    by_cases he : data.epoch = rules.state.epoch
    · exact Or.inl he
    · exact Or.inr (not_not.mp (fun hz => hepoch ⟨he,hz⟩))

theorem vote_ok {v : Vote} (h : (rules.vote P data parentQc).2 = .ok v) :
    rules.state.Admits data parentQc ∧ v = rules.ballot P data ∧
      (rules.vote P data parentQc).1 = { rules with state := rules.state.record data } := by
  by_cases ha : rules.state.Admits data parentQc
  · rw [vote_of_admits ha] at h ⊢
    exact ⟨ha,(Except.ok.inj h).symm,rfl⟩
  · obtain ⟨e,he⟩ := vote_of_not_admits (P := P) ha
    rw [he] at h
    cases h

theorem vote_error {e : ConsensusError} (h : (rules.vote P data parentQc).2 = .error e) :
    ¬ rules.state.Admits data parentQc ∧ (rules.vote P data parentQc).1 = rules := by
  by_cases ha : rules.state.Admits data parentQc
  · rw [vote_of_admits ha] at h
    cases h
  · obtain ⟨e',he'⟩ := vote_of_not_admits (P := P) ha
    exact ⟨ha,by rw [he']⟩

inductive Call where
  | vote (data : VoteData) (parentQc : QuorumCertificate)
  | updateLockedQc (qc : QuorumCertificate)
  | advanceEpoch (newEpoch : UInt64)
  deriving DecidableEq

def step (P : Platform) (rules : SafetyRules) : Call → SafetyRules × Option (Except ConsensusError Vote)
  | .vote data parentQc => ((rules.vote P data parentQc).1, some (rules.vote P data parentQc).2)
  | .updateLockedQc qc => (rules.updateLockedQc qc, none)
  | .advanceEpoch newEpoch => (rules.advanceEpoch newEpoch, none)

end SafetyRules

end ZbxChain
