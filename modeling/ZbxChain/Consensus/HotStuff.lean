import ZbxChain.Types.Block
import ZbxChain.Consensus.SafetyRules

/-! # The three-phase HotStuff state machine, its block store and its pacemaker

A full store makes room by dropping the block that came first. Durations are nanoseconds; when a
round began is left out: only `is_timed_out` reads it, and the driver keeps its own deadline.

The methods of `HotStuffConsensus` take the state and return it with their result. `on_vote` is
cut in two: `acceptVote` runs up to and including `add_vote`, and `onVote` hands a certificate
formed there to `onQc`.
-/
namespace ZbxChain

structure BlockStore where
  blocks : Table H256 Block
  insertionOrder : List H256
  capacity : ℕ

namespace BlockStore

def new (capacity : ℕ) : BlockStore := ⟨∅,[],capacity⟩

def get (store : BlockStore) (hash : H256) : Option Block := store.blocks.lookup hash

/-- The eviction in `add`. -/
def makeRoom (store : BlockStore) : BlockStore :=
  if store.capacity ≤ store.blocks.len then
    match store.insertionOrder with
    | [] => store
    | oldest :: rest => { store with blocks := store.blocks.erase oldest, insertionOrder := rest }
  else store

def add (P : Platform) (store : BlockStore) (block : Block) : BlockStore :=
  if (store.blocks.lookup (block.hash P)).isSome then store
  else
    let store' := store.makeRoom
    { store' with
      insertionOrder := store'.insertionOrder ++ [block.hash P]
      blocks := store'.blocks.insert (block.hash P) block }

variable {P : Platform} {store : BlockStore} {block b : Block} {h : H256}

theorem get_makeRoom (hget : store.makeRoom.get h = some b) : store.get h = some b := by
  unfold makeRoom at hget
  split at hget
  · cases horder : store.insertionOrder with
    | nil =>
      rw [horder] at hget
      exact hget
    | cons oldest rest =>
      rw [horder] at hget
      by_cases hold : h = oldest
      · subst hold
        simp [get, AList.lookup_erase] at hget
      · simpa [get, AList.lookup_erase_ne hold] using hget
  · exact hget

theorem get_add (hget : (store.add P block).get h = some b) :
    h = block.hash P ∧ b = block ∨ store.get h = some b := by
  unfold add at hget
  split at hget
  · exact Or.inr hget
  · rcases AList.lookup_insert_some hget with ⟨hh,hb⟩ | ⟨_,hold⟩
    · exact Or.inl ⟨hh,hb⟩
    · exact Or.inr (get_makeRoom hold)

end BlockStore

structure PacemakerConfig where
  baseTimeout : ℕ
  backoffNum : UInt64
  backoffDen : UInt64
  maxTimeout : ℕ
  deriving DecidableEq

def PacemakerConfig.default : PacemakerConfig := ⟨2 * 10 ^ 9,3,2,30 * 10 ^ 9⟩

structure RoundState where
  round : UInt64
  epoch : UInt64
  timeout : ℕ
  consecutiveTimeouts : UInt32
  deriving DecidableEq

def RoundState.new (round epoch : UInt64) (timeout : ℕ) : RoundState := ⟨round,epoch,timeout,0⟩

structure Pacemaker where
  config : PacemakerConfig
  current : RoundState
  deriving DecidableEq

namespace Pacemaker

def new (config : PacemakerConfig) : Pacemaker := ⟨config,.new 1 1 config.baseTimeout⟩

def currentRound (pm : Pacemaker) : UInt64 := pm.current.round
def currentEpoch (pm : Pacemaker) : UInt64 := pm.current.epoch

def advanceRound (pm : Pacemaker) (newRound epoch : UInt64) : Pacemaker :=
  if newRound ≤ pm.current.round then pm
  else { pm with current := .new newRound epoch pm.config.baseTimeout }

/-- `ms * num / den`, so many times; `none` once a product leaves 64 bits. -/
def backoff (num den : UInt64) : ℕ → UInt64 → Option UInt64
  | 0, ms => some ms
  | count + 1, ms =>
    if ms.toNat * num.toNat < 2 ^ 64 then backoff num den count (ms * num / den) else none

def onTimeout (pm : Pacemaker) : Pacemaker × UInt64 :=
  let consecutive := pm.current.consecutiveTimeouts + 1
  let baseMs := UInt64.ofNat (pm.config.baseTimeout / 10 ^ 6)
  let den := if pm.config.backoffDen = 0 then 1 else pm.config.backoffDen
  let newTimeout := match backoff pm.config.backoffNum den consecutive.toNat baseMs with
    | some ms => min (ms.toNat * 10 ^ 6) pm.config.maxTimeout
    | none => pm.config.maxTimeout
  ({ pm with current := ⟨pm.current.round + 1,pm.current.epoch,newTimeout,consecutive⟩ },
    pm.current.round)

variable (pm : Pacemaker) (newRound epoch : UInt64)

@[simp] theorem currentRound_onTimeout : pm.onTimeout.1.currentRound = pm.currentRound + 1 := rfl
@[simp] theorem currentEpoch_onTimeout : pm.onTimeout.1.currentEpoch = pm.currentEpoch := rfl

theorem advanceRound_of_lt (h : pm.currentRound < newRound) :
    (pm.advanceRound newRound epoch).currentRound = newRound := by
  have hnot : ¬ newRound ≤ pm.current.round := UInt64.not_le.mpr h
  unfold advanceRound
  rw [if_neg hnot]
  rfl

theorem currentRound_advanceRound : (pm.advanceRound newRound epoch).currentRound = newRound ∨
    (pm.advanceRound newRound epoch).currentRound = pm.currentRound := by
  unfold advanceRound
  split
  · exact Or.inr rfl
  · exact Or.inl rfl

end Pacemaker

inductive Phase where
  | prepare
  | preCommit
  | commit
  deriving DecidableEq

def Phase.toUInt8 : Phase → UInt8
  | .prepare => 0
  | .preCommit => 1
  | .commit => 2

inductive ConsensusEvent where
  | committed (block : Block) (qc : QuorumCertificate)
  | voteCast (vote : Vote)
  | proposalRequired (round : UInt64) (parentHash : H256)
  | timeout (round : UInt64)
  deriving DecidableEq

/-- A validator set as `new` builds it: not empty, with the quorum of its size. -/
structure ValidatorSet where
  validators : List Address
  quorum : ℕ
  epochSeed : H256
  nonempty : validators ≠ []
  quorum_eq : quorum = 2 * validators.length / 3 + 1

namespace ValidatorSet

def new (validators : List Address) (nonempty : validators ≠ []) : ValidatorSet :=
  ⟨validators,2 * validators.length / 3 + 1,.zero,nonempty,rfl⟩

def setEpochSeed (vs : ValidatorSet) (seed : H256) : ValidatorSet := { vs with epochSeed := seed }

def contains (vs : ValidatorSet) (addr : Address) : Bool := decide (addr ∈ vs.validators)

def memberAt (vs : ValidatorSet) (i : ℕ) : Address :=
  vs.validators.get ⟨i % vs.validators.length,Nat.mod_lt _ (List.length_pos_of_ne_nil vs.nonempty)⟩

def proposerForRound (P : Platform) (vs : ValidatorSet) (round : UInt64) : Address :=
  if vs.epochSeed = .zero then vs.memberAt round.toNat
  else
    let h := P.keccak256 (vs.epochSeed.asBytes ++ beBytes64 round)
    vs.memberAt (h.toNat / 2 ^ 192)

theorem memberAt_mem (vs : ValidatorSet) (i : ℕ) : vs.memberAt i ∈ vs.validators :=
  List.get_mem _ _

theorem proposerForRound_mem (P : Platform) (vs : ValidatorSet) (round : UInt64) :
    vs.proposerForRound P round ∈ vs.validators := by
  unfold proposerForRound
  split
  · exact vs.memberAt_mem _
  · exact vs.memberAt_mem _

end ValidatorSet

structure HotStuffConsensus where
  myAddress : Address
  validatorSet : ValidatorSet
  safetyRules : SafetyRules
  pacemaker : Pacemaker
  blockStore : BlockStore
  voteAccumulators : Table (UInt64 × UInt8) VoteAccumulator
  committedHeight : UInt64
  highestQc : Option QuorumCertificate
  seenVotes : Table (UInt64 × UInt8 × Address) (H256 × Vote × BlsPubKey)
  validatorPubkeys : Table Address BlsPubKey
  droppedUnregistered : UInt64
  droppedPubkeyMismatch : UInt64
  droppedInvalidSig : UInt64
  droppedNonValidator : UInt64

namespace HotStuffConsensus

def new (myAddress : Address) (safetyRules : SafetyRules) (validatorSet : ValidatorSet) :
    HotStuffConsensus where
  myAddress := myAddress
  validatorSet := validatorSet
  safetyRules := safetyRules
  pacemaker := .new .default
  blockStore := .new 1024
  voteAccumulators := ∅
  committedHeight := 0
  highestQc := none
  seenVotes := ∅
  validatorPubkeys := ∅
  droppedUnregistered := 0
  droppedPubkeyMismatch := 0
  droppedInvalidSig := 0
  droppedNonValidator := 0

def updateValidatorSet (cs : HotStuffConsensus) (addrs : { l : List Address // l ≠ [] }) :
    HotStuffConsensus :=
  { cs with
    validatorSet := (ValidatorSet.new addrs.1 addrs.2).setEpochSeed cs.validatorSet.epochSeed }

def rotateEpochSeed (cs : HotStuffConsensus) (seed : H256) : HotStuffConsensus :=
  { cs with validatorSet := cs.validatorSet.setEpochSeed seed }

def registerValidatorPubkey (cs : HotStuffConsensus) (addr : Address) (pk : BlsPubKey) :
    HotStuffConsensus :=
  match cs.validatorPubkeys.lookup addr with
  | some existing =>
    if existing ≠ pk then cs
    else { cs with validatorPubkeys := cs.validatorPubkeys.insert addr pk }
  | none => { cs with validatorPubkeys := cs.validatorPubkeys.insert addr pk }

def pruneSeenVotesBelow (cs : HotStuffConsensus) (committedRound : UInt64) : HotStuffConsensus :=
  { cs with seenVotes := cs.seenVotes.retain (fun k _ => decide (committedRound ≤ k.1)) }

def currentRound (cs : HotStuffConsensus) : UInt64 := cs.pacemaker.currentRound

variable (P : Platform)

def onProposal (cs : HotStuffConsensus) (block : Block) (parentQc : QuorumCertificate) :
    HotStuffConsensus × Except ConsensusError (List ConsensusEvent) :=
  if ¬ parentQc.verify P then (cs, .error (.invalidQC block.number))
  else
    let round := block.number
    let proposer := cs.validatorSet.proposerForRound P round
    if block.coinbase ≠ proposer then (cs, .error (.invalidProposer round))
    else if ¬ cs.validatorSet.contains proposer then (cs, .error (.invalidProposer round))
    else
      let cs := { cs with blockStore := cs.blockStore.add P block }
      let voteData : VoteData :=
        ⟨block.hash P,round,Phase.prepare.toUInt8,block.header.epoch⟩
      let (rules,result) := cs.safetyRules.vote P voteData parentQc
      let cs := { cs with safetyRules := rules }
      match result with
      | .error e => (cs, .error e)
      | .ok vote => (cs, .ok [.voteCast vote])

def accumulator (cs : HotStuffConsensus) (data : VoteData) : VoteAccumulator :=
  (cs.voteAccumulators.lookup (data.blockNumber,data.phase)).getD
    (.new data cs.validatorSet.quorum)

def accumulate (cs : HotStuffConsensus) (vote : Vote) (voterPubkey : BlsPubKey) :
    HotStuffConsensus × Except ConsensusError (Option QuorumCertificate) :=
  let (acc,result) := (cs.accumulator vote.data).addVote P vote voterPubkey
  ({ cs with
      voteAccumulators :=
        cs.voteAccumulators.insert (vote.data.blockNumber,vote.data.phase) acc }, result)

def acceptVote (cs : HotStuffConsensus) (vote : Vote) (voterPubkey : BlsPubKey) :
    HotStuffConsensus × Except ConsensusError (Option QuorumCertificate) :=
  if ¬ cs.validatorSet.contains vote.voter then
    ({ cs with droppedNonValidator := saturatingAdd64 cs.droppedNonValidator 1 }, .ok none)
  else match cs.validatorPubkeys.lookup vote.voter with
  | none =>
    ({ cs with droppedUnregistered := saturatingAdd64 cs.droppedUnregistered 1 }, .ok none)
  | some registered =>
    if registered ≠ voterPubkey then
      ({ cs with droppedPubkeyMismatch := saturatingAdd64 cs.droppedPubkeyMismatch 1 }, .ok none)
    else if ¬ P.verifySingle vote.signature voterPubkey (vote.data.signingHash P) then
      ({ cs with droppedInvalidSig := saturatingAdd64 cs.droppedInvalidSig 1 }, .ok none)
    else
      let ek := (vote.data.blockNumber,vote.data.phase,vote.voter)
      match cs.seenVotes.lookup ek with
      | some (prevHash,prev,_) =>
        if prevHash ≠ vote.data.blockHash then
          (cs, .error (.remoteEquivocation prev.voter prev.data.blockNumber prev.data.phase
            prev.data.blockHash vote.data.blockHash))
        else cs.accumulate P vote voterPubkey
      | none =>
        { cs with
          seenVotes := cs.seenVotes.insert ek (vote.data.blockHash,vote,voterPubkey)
        }.accumulate P vote voterPubkey

/-- The vote for the next phase that a certificate calls for; a refusal is dropped. -/
def voteNextPhase (cs : HotStuffConsensus) (qc : QuorumCertificate) (phase : Phase) :
    HotStuffConsensus × Except ConsensusError (List ConsensusEvent) :=
  let voteData : VoteData :=
    ⟨qc.blockHash,qc.blockNumber,phase.toUInt8,cs.pacemaker.currentEpoch⟩
  let (rules,result) := cs.safetyRules.vote P voteData qc
  let cs := { cs with safetyRules := rules }
  match result with
  | .ok v => (cs, .ok [.voteCast v])
  | .error _ => (cs, .ok [])

def decideBlock (cs : HotStuffConsensus) (qc : QuorumCertificate) :
    HotStuffConsensus × Except ConsensusError (List ConsensusEvent) :=
  match cs.blockStore.get qc.blockHash with
  | none => (cs, .ok [])
  | some block =>
    if cs.committedHeight < block.number then
      ({ cs with
          committedHeight := block.number
          pacemaker := cs.pacemaker.advanceRound (block.number + 1) qc.voteData.epoch },
        .ok [.committed block qc])
    else (cs, .ok [])

def onQc (cs : HotStuffConsensus) (qc : QuorumCertificate) :
    HotStuffConsensus × Except ConsensusError (List ConsensusEvent) :=
  match qc.phase with
  | 0 =>
    { cs with
      safetyRules := cs.safetyRules.updateLockedQc qc
      highestQc := some qc }.voteNextPhase P qc .preCommit
  | 1 => cs.voteNextPhase P qc .commit
  | 2 => cs.decideBlock qc
  | _ =>
    (cs, .error (.invalidMessage
      s!"unknown QC phase {qc.voteData.phase} for round {qc.blockNumber}"))

def onVote (cs : HotStuffConsensus) (vote : Vote) (voterPubkey : BlsPubKey) :
    HotStuffConsensus × Except ConsensusError (List ConsensusEvent) :=
  match cs.acceptVote P vote voterPubkey with
  | (cs, .error e) => (cs, .error e)
  | (cs, .ok none) => (cs, .ok [])
  | (cs, .ok (some qc)) => cs.onQc P qc

def onTimeout (cs : HotStuffConsensus) : HotStuffConsensus × ConsensusEvent :=
  let (pacemaker,timedOut) := cs.pacemaker.onTimeout
  ({ cs with pacemaker := pacemaker }, .timeout timedOut)

inductive Call where
  | proposal (block : Block) (parentQc : QuorumCertificate)
  | vote (vote : Vote) (voterPubkey : BlsPubKey)
  | timeout
  | updateValidatorSet (addrs : { l : List Address // l ≠ [] })
  | rotateEpochSeed (seed : H256)
  | registerValidatorPubkey (addr : Address) (pk : BlsPubKey)
  | pruneSeenVotesBelow (committedRound : UInt64)

def Call.delivered : Call → Option Vote
  | .vote v _ => some v
  | _ => none

def Call.proposed : Call → Option (Block × QuorumCertificate)
  | .proposal b q => some (b,q)
  | _ => none

def step (cs : HotStuffConsensus) :
    Call → HotStuffConsensus × Except ConsensusError (List ConsensusEvent)
  | .proposal block parentQc => cs.onProposal P block parentQc
  | .vote vote voterPubkey => cs.onVote P vote voterPubkey
  | .timeout => (cs.onTimeout.1, .ok [cs.onTimeout.2])
  | .updateValidatorSet addrs => (cs.updateValidatorSet addrs, .ok [])
  | .rotateEpochSeed seed => (cs.rotateEpochSeed seed, .ok [])
  | .registerValidatorPubkey addr pk => (cs.registerValidatorPubkey addr pk, .ok [])
  | .pruneSeenVotesBelow committedRound => (cs.pruneSeenVotesBelow committedRound, .ok [])

def prepareData (block : Block) : VoteData :=
  ⟨block.hash P,block.number,Phase.prepare.toUInt8,block.header.epoch⟩

/-- A proposal passes the checks of `onProposal` and of the safety rules. -/
def Proposable (cs : HotStuffConsensus) (block : Block) (parentQc : QuorumCertificate) : Prop :=
  parentQc.verify P = true ∧ block.coinbase = cs.validatorSet.proposerForRound P block.number ∧
    cs.safetyRules.state.Admits (prepareData P block) parentQc

instance (cs : HotStuffConsensus) (block : Block) (parentQc : QuorumCertificate) :
    Decidable (cs.Proposable P block parentQc) := inferInstanceAs (Decidable (_ ∧ _ ∧ _))

variable {P} {cs : HotStuffConsensus} {block : Block} {parentQc : QuorumCertificate}

theorem onProposal_of_proposable (h : cs.Proposable P block parentQc) :
    cs.onProposal P block parentQc =
      ({ cs with
          blockStore := cs.blockStore.add P block
          safetyRules := { cs.safetyRules with
            state := cs.safetyRules.state.record (prepareData P block) } },
        .ok [.voteCast (cs.safetyRules.ballot P (prepareData P block))]) := by
  obtain ⟨hqc,hproposer,hadmits⟩ := h
  have hmember : cs.validatorSet.contains (cs.validatorSet.proposerForRound P block.number) = true :=
    decide_eq_true (cs.validatorSet.proposerForRound_mem P block.number)
  unfold onProposal
  rw [if_neg (not_not.mpr hqc)]
  simp only [ne_eq, hproposer, not_true_eq_false, ↓reduceIte, hmember]
  rw [show (⟨block.hash P,block.number,Phase.prepare.toUInt8,block.header.epoch⟩ : VoteData) =
    prepareData P block from rfl, SafetyRules.vote_of_admits hadmits]

/-- Any other proposal is an error that stores the block at most. -/
theorem onProposal_of_not_proposable (h : ¬ cs.Proposable P block parentQc) :
    (∃ e, (cs.onProposal P block parentQc).2 = .error e) ∧
      ((cs.onProposal P block parentQc).1 = cs ∨
        (cs.onProposal P block parentQc).1 =
          { cs with blockStore := cs.blockStore.add P block }) := by
  unfold onProposal
  by_cases hqc : parentQc.verify P = true
  · rw [if_neg (not_not.mpr hqc)]
    simp only []
    by_cases hproposer : block.coinbase = cs.validatorSet.proposerForRound P block.number
    · have hmember : cs.validatorSet.contains
          (cs.validatorSet.proposerForRound P block.number) = true :=
        decide_eq_true (cs.validatorSet.proposerForRound_mem P block.number)
      have hadmits : ¬ cs.safetyRules.state.Admits (prepareData P block) parentQc :=
        fun hadmits => h ⟨hqc,hproposer,hadmits⟩
      obtain ⟨e,he⟩ := SafetyRules.vote_of_not_admits (P := P) hadmits
      simp only [ne_eq, hproposer, not_true_eq_false, ↓reduceIte, hmember]
      rw [show (⟨block.hash P,block.number,Phase.prepare.toUInt8,block.header.epoch⟩ : VoteData) =
        prepareData P block from rfl, he]
      exact ⟨⟨e,rfl⟩,Or.inr rfl⟩
    · rw [if_pos hproposer]
      exact ⟨⟨_,rfl⟩,Or.inl rfl⟩
  · rw [if_pos hqc]
    exact ⟨⟨_,rfl⟩,Or.inl rfl⟩

theorem registerValidatorPubkey_eq (cs : HotStuffConsensus) (addr : Address) (pk : BlsPubKey) :
    ∃ keys, (keys = cs.validatorPubkeys ∨ keys = cs.validatorPubkeys.insert addr pk) ∧
      cs.registerValidatorPubkey addr pk = { cs with validatorPubkeys := keys } := by
  unfold registerValidatorPubkey
  split
  · split
    · exact ⟨_,Or.inl rfl,rfl⟩
    · exact ⟨_,Or.inr rfl,rfl⟩
  · exact ⟨_,Or.inr rfl,rfl⟩

/-- A validator of the evaluated examples: its secret key is its address. -/
def demoRules (addr : Address) : SafetyRules := .new .integers (addr.setWidth 256) addr

def demoVote (addr : Address) (data : VoteData) : Call :=
  .vote ((demoRules addr).ballot .integers data) (demoRules addr).pubKey

def demoRegister (addr : Address) : Call :=
  .registerValidatorPubkey addr (demoRules addr).pubKey

def demoCertificate (addr : Address) (data : VoteData) : QuorumCertificate :=
  ⟨data,(Platform.integers.aggregateSignatures
    [((demoRules addr).ballot .integers data).signature]).getD 0,[addr],[(demoRules addr).pubKey]⟩

/-- A machine with the key of every member registered, as the driver starts it. -/
def boot (rules : SafetyRules) (vs : ValidatorSet) (keys : Address → BlsPubKey) :
    HotStuffConsensus :=
  vs.validators.foldl (fun cs a => cs.registerValidatorPubkey a (keys a))
    (.new rules.address rules vs)

def demoBlock (parentHash : H256) (number : UInt64) (coinbase : Address) : Block :=
  ⟨⟨parentHash,0,coinbase,0,0,0,0,0,number,0,0,0,[],0,0,0,[],0,none⟩,⟨[],[]⟩⟩

end HotStuffConsensus

end ZbxChain
