import ZbxChain.Consensus.Vote
import ZbxChain.Types.Block

/-! # The two-phase machine with view change

Durations and instants are nanoseconds, and a call that reads the clock is given the
time. The methods of `HotStuff2` take the state and return it with their result.
-/
namespace ZbxChain

inductive Hs2Phase where
  | waitingProposal (round : UInt64)
  | voted (round : UInt64) (blockHash : H256)
  | viewChange (round : UInt64)
  | committed (height : UInt64) (blockHash : H256)
  deriving DecidableEq

structure TimeoutShare where
  round : UInt64
  highestQcRound : UInt64
  highestQcHash : Option H256
  validator : Address
  signature : BlsSignature
  deriving DecidableEq

namespace TimeoutShare

def signingBytes (s : TimeoutShare) : List UInt8 :=
  beBytes64 s.round ++ beBytes64 s.highestQcRound ++ (s.highestQcHash.getD .zero).asBytes ++
    s.validator.asBytes

def signingHash (P : Platform) (s : TimeoutShare) : H256 := P.keccak256 s.signingBytes

end TimeoutShare

structure TimeoutCertificate where
  round : UInt64
  highestQcRound : UInt64
  aggSignature : BlsSignature
  signerHashes : List H256
  signerPubkeys : List BlsPubKey
  signers : List Address
  signerCount : ℕ
  signerSignatures : List BlsSignature
  deriving DecidableEq

def TimeoutCertificate.verify (P : Platform) (tc : TimeoutCertificate) (quorum : ℕ) : Bool :=
  if tc.signerCount < quorum then false
  else if tc.signerHashes.length ≠ tc.signerPubkeys.length
      ∨ tc.signerHashes.length ≠ tc.signerSignatures.length
      ∨ tc.signerHashes.length ≠ tc.signerCount then false
  else if ¬ tc.signers.Nodup then false
  else ((tc.signerSignatures.zip tc.signerPubkeys).zip tc.signerHashes).all
    (fun x => P.verifySingle x.1.1 x.1.2 x.2)

def deltaMin : ℕ := 500 * 10 ^ 6
def deltaMax : ℕ := 30 * 10 ^ 9
def deltaInit : ℕ := 5 * 10 ^ 9

structure AdaptiveTimer where
  currentDelta : ℕ
  startTime : Option ℕ
  consecutiveTimeouts : UInt64
  deriving DecidableEq

namespace AdaptiveTimer

def new : AdaptiveTimer := ⟨deltaInit,none,0⟩

def start (t : AdaptiveTimer) (now : ℕ) : AdaptiveTimer := { t with startTime := some now }

def isExpired (t : AdaptiveTimer) (now : ℕ) : Bool :=
  t.startTime.any (fun start => decide (t.currentDelta ≤ now - start))

def onQuorumReached (t : AdaptiveTimer) (now : ℕ) : AdaptiveTimer :=
  let delta := match t.startTime with
    | some start => min (max (max (t.currentDelta * 3 / 4) ((now - start) * 2)) deltaMin) deltaMax
    | none => t.currentDelta
  ⟨delta,none,0⟩

def onTimeout (t : AdaptiveTimer) : AdaptiveTimer :=
  ⟨min (t.currentDelta * 3 / 2) deltaMax,none,t.consecutiveTimeouts + 1⟩

end AdaptiveTimer

structure TcAccumulator where
  shares : Table Address (TimeoutShare × BlsPubKey)
  quorum : ℕ
  deriving DecidableEq

namespace TcAccumulator

def new (quorum : ℕ) : TcAccumulator := ⟨∅,quorum⟩

def buildTc (P : Platform) (acc : TcAccumulator) : Option TimeoutCertificate :=
  let entries := P.iterOrder acc.shares.entries
  let shares := entries.map (fun e => e.2.1)
  match P.aggregateSignatures (shares.map (·.signature)) with
  | none => none
  | some agg => some
    { round := (shares.head?.map (·.round)).getD 0
      highestQcRound := (shares.map (·.highestQcRound)).foldl max 0
      aggSignature := agg
      signerHashes := shares.map (·.signingHash P)
      signerPubkeys := entries.map (fun e => e.2.2)
      signers := entries.map (fun e => e.1)
      signerCount := acc.shares.len
      signerSignatures := shares.map (·.signature) }

def addShare (P : Platform) (acc : TcAccumulator) (share : TimeoutShare) (pubkey : BlsPubKey) :
    TcAccumulator × Option TimeoutCertificate :=
  if (acc.shares.lookup share.validator).isSome then (acc, none)
  else if ¬ P.verifySingle share.signature pubkey (share.signingHash P) then (acc, none)
  else
    let acc := { acc with shares := acc.shares.insert share.validator (share,pubkey) }
    if acc.quorum ≤ acc.shares.len then (acc, acc.buildTc P) else (acc, none)

end TcAccumulator

inductive Hs2Event where
  | committed (block : Block) (qc : QuorumCertificate)
  | voteRequest (data : VoteData)
  | proposalRequired (round : UInt64) (parentHash : H256) (justify : QuorumCertificate)
  | timeoutBroadcast (share : TimeoutShare)
  | newLeaderPropose (round : UInt64) (tc : TimeoutCertificate)
  deriving DecidableEq

structure HotStuff2 where
  phase : Hs2Phase
  highestQc : QuorumCertificate
  prevQc : Option QuorumCertificate
  roundTimer : AdaptiveTimer
  voteAccum : Option VoteAccumulator
  tcAccum : TcAccumulator
  validator : Address
  validatorSet : List Address
  quorum : ℕ
  currentEpoch : UInt64
  votedAt : Table UInt64 H256
  seenVotes : Table (UInt64 × UInt8 × Address) (H256 × Vote × BlsPubKey)
  validatorPubkeys : Table Address BlsPubKey

namespace HotStuff2

/-- `new`; the source stops on an empty validator set. -/
def new (genesisQc : QuorumCertificate) (validator : Address)
    (validators : { l : List Address // l ≠ [] }) : HotStuff2 where
  phase := .waitingProposal 1
  highestQc := genesisQc
  prevQc := none
  roundTimer := .new
  voteAccum := none
  tcAccum := .new (2 * validators.1.length / 3 + 1)
  validator := validator
  validatorSet := validators.1
  quorum := 2 * validators.1.length / 3 + 1
  currentEpoch := 0
  votedAt := ∅
  seenVotes := ∅
  validatorPubkeys := ∅

def registerValidatorPubkey (hs : HotStuff2) (addr : Address) (pk : BlsPubKey) : HotStuff2 :=
  match hs.validatorPubkeys.lookup addr with
  | some existing =>
    if existing ≠ pk then hs
    else { hs with validatorPubkeys := hs.validatorPubkeys.insert addr pk }
  | none => { hs with validatorPubkeys := hs.validatorPubkeys.insert addr pk }

variable (P : Platform)

/-- The two-consecutive-QC rule of `on_proposal`. -/
def commitRule (hs : HotStuff2) (block : Block) (justify : QuorumCertificate) : List Hs2Event :=
  match hs.prevQc with
  | some pqc => if justify.blockNumber = pqc.blockNumber + 1 then [.committed block justify] else []
  | none => []

def adoptQc (hs : HotStuff2) (qc : QuorumCertificate) : HotStuff2 :=
  if hs.highestQc.blockNumber < qc.blockNumber then
    { hs with prevQc := some hs.highestQc, highestQc := qc }
  else hs

def onProposal (hs : HotStuff2) (block : Block) (justify : QuorumCertificate) (now : ℕ) :
    HotStuff2 × Except ConsensusError (List Hs2Event) :=
  let round := justify.blockNumber + 1
  if justify.blockNumber < hs.highestQc.blockNumber then
    (hs, .error (.staleProposal round hs.highestQc.blockNumber))
  else
    let events := hs.commitRule block justify
    let hs := hs.adoptQc justify
    let blockHash := block.header.hash P
    match hs.votedAt.lookup round with
    | some prevHash =>
      if prevHash ≠ blockHash then (hs, .error (.equivocation round prevHash blockHash))
      else (hs, .ok events)
    | none =>
      let voteData : VoteData := ⟨blockHash,round,0,hs.currentEpoch⟩
      ({ hs with
          voteAccum := some (.new voteData hs.quorum)
          votedAt := hs.votedAt.insert round blockHash
          phase := .voted round blockHash
          roundTimer := hs.roundTimer.start now },
        .ok (events ++ [.voteRequest voteData]))

def isLeader (hs : HotStuff2) (round : UInt64) : Bool :=
  if h : hs.validatorSet = [] then false
  else
    let hash := P.keccak256 (hs.highestQc.blockHash.asBytes ++ beBytes64 round)
    let idx := hash.toNat / 2 ^ 192 % hs.validatorSet.length
    hs.validatorSet.get ⟨idx,Nat.mod_lt _ (List.length_pos_of_ne_nil h)⟩ == hs.validator

/-- What `on_vote` does once the accumulator yields a certificate. -/
def onQuorum (hs : HotStuff2) (qc : QuorumCertificate) (now : ℕ) :
    HotStuff2 × Except ConsensusError (List Hs2Event) :=
  let hs := { hs with roundTimer := hs.roundTimer.onQuorumReached now }
  let hs := hs.adoptQc qc
  let nextRound := qc.blockNumber + 1
  let hs := { hs with
    phase := .waitingProposal nextRound, voteAccum := none, tcAccum := .new hs.quorum }
  if hs.isLeader P nextRound then (hs, .ok [.proposalRequired nextRound qc.blockHash qc])
  else (hs, .ok [])

def tallyVote (hs : HotStuff2) (vote : Vote) (pubkey : BlsPubKey) (now : ℕ) :
    HotStuff2 × Except ConsensusError (List Hs2Event) :=
  match hs.voteAccum with
  | none => (hs, .ok [])
  | some accum =>
    let (accum,result) := accum.addVote P vote pubkey
    let hs := { hs with voteAccum := some accum }
    match result with
    | .ok (some qc) => hs.onQuorum P qc now
    | _ => (hs, .ok [])

def onVote (hs : HotStuff2) (vote : Vote) (pubkey : BlsPubKey) (now : ℕ) :
    HotStuff2 × Except ConsensusError (List Hs2Event) :=
  if vote.voter ∉ hs.validatorSet then (hs, .ok [])
  else match hs.validatorPubkeys.lookup vote.voter with
  | none => (hs, .ok [])
  | some registered =>
    if registered ≠ pubkey then (hs, .ok [])
    else if ¬ P.verifySingle vote.signature pubkey (vote.data.signingHash P) then (hs, .ok [])
    else
      let key := (vote.data.blockNumber,vote.data.phase,vote.voter)
      match hs.seenVotes.lookup key with
      | some (prevHash,prev,_) =>
        if prevHash ≠ vote.data.blockHash then
          (hs, .error (.remoteEquivocation prev.voter prev.data.blockNumber prev.data.phase
            prev.data.blockHash vote.data.blockHash))
        else hs.tallyVote P vote pubkey now
      | none =>
        { hs with
          seenVotes := hs.seenVotes.insert key (vote.data.blockHash,vote,pubkey)
        }.tallyVote P vote pubkey now

def onTimeoutShare (hs : HotStuff2) (share : TimeoutShare) (pubkey : BlsPubKey) :
    HotStuff2 × Except ConsensusError (List Hs2Event) :=
  let (tcAccum,formed) := hs.tcAccum.addShare P share pubkey
  let hs := { hs with tcAccum := tcAccum }
  match formed with
  | none => (hs, .ok [])
  | some tc =>
    if ¬ tc.verify P hs.quorum then (hs, .error .invalidTimeoutCertificate)
    else
      let nextRound := tc.round + 1
      let hs := { hs with phase := .waitingProposal nextRound, voteAccum := none }
      if hs.isLeader P nextRound then (hs, .ok [.newLeaderPropose nextRound tc]) else (hs, .ok [])

def pruneVotedBelow (hs : HotStuff2) (committedRound : UInt64) : HotStuff2 :=
  { hs with
    votedAt := hs.votedAt.retain (fun round _ => decide (committedRound ≤ round))
    seenVotes := hs.seenVotes.retain (fun k _ => decide (committedRound ≤ k.1)) }

/-- A timer that ran out broadcasts a share, whose signature is filled in later. -/
def checkTimer (hs : HotStuff2) (currentRound : UInt64) (now : ℕ) : HotStuff2 × Option Hs2Event :=
  if hs.roundTimer.isExpired now then
    ({ hs with roundTimer := hs.roundTimer.onTimeout, phase := .viewChange currentRound },
      some (.timeoutBroadcast
        ⟨currentRound,hs.highestQc.blockNumber,some hs.highestQc.blockHash,hs.validator,0⟩))
  else (hs, none)

def currentRound (hs : HotStuff2) : UInt64 :=
  match hs.phase with
  | .waitingProposal round => round
  | .voted round _ => round
  | .viewChange round => round
  | .committed _ _ => hs.highestQc.blockNumber + 1

inductive Call where
  | proposal (block : Block) (justify : QuorumCertificate) (now : ℕ)
  | vote (vote : Vote) (pubkey : BlsPubKey) (now : ℕ)
  | timeoutShare (share : TimeoutShare) (pubkey : BlsPubKey)
  | checkTimer (currentRound : UInt64) (now : ℕ)
  | pruneVotedBelow (committedRound : UInt64)
  | registerValidatorPubkey (addr : Address) (pk : BlsPubKey)

def step (hs : HotStuff2) : Call → HotStuff2 × Except ConsensusError (List Hs2Event)
  | .proposal block justify now => hs.onProposal P block justify now
  | .vote vote pubkey now => hs.onVote P vote pubkey now
  | .timeoutShare share pubkey => hs.onTimeoutShare P share pubkey
  | .checkTimer currentRound now =>
    ((hs.checkTimer currentRound now).1, .ok (hs.checkTimer currentRound now).2.toList)
  | .pruneVotedBelow committedRound => (hs.pruneVotedBelow committedRound, .ok [])
  | .registerValidatorPubkey addr pk => (hs.registerValidatorPubkey addr pk, .ok [])

end HotStuff2

def genesisQc : QuorumCertificate := ⟨⟨.zero,0,0,0⟩,0,[],[]⟩

end ZbxChain
