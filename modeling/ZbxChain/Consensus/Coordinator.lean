import ZbxChain.Consensus.HotStuff

/-! # The pacemaker coordinator: timeout shares, timeout certificates and the adaptive delta

Instants are nanoseconds and a call that reads the clock is given the time. The methods
take the state and return it with what they answer.
-/
namespace ZbxChain

/-- `start_round`, which does not ask for a later round. -/
def Pacemaker.startRound (pm : Pacemaker) (round epoch : UInt64) : Pacemaker :=
  { pm with current := .new round epoch pm.config.baseTimeout }

namespace Coordinator

structure TimeoutShareData where
  round : UInt64
  epoch : UInt64
  highQcRound : UInt64
  deriving DecidableEq

namespace TimeoutShareData

def signingBytes (d : TimeoutShareData) : List UInt8 :=
  beBytes64 d.round ++ beBytes64 d.epoch ++ beBytes64 d.highQcRound

def signingHash (P : Platform) (d : TimeoutShareData) : H256 := P.keccak256 d.signingBytes

end TimeoutShareData

structure TimeoutShare where
  data : TimeoutShareData
  validator : Address
  blsPubkey : BlsPubKey
  signature : BlsSignature
  deriving DecidableEq

structure TimeoutCertificate where
  round : UInt64
  epoch : UInt64
  highQcRound : UInt64
  aggSignature : BlsSignature
  signers : List Address
  deriving DecidableEq

def TimeoutCertificate.nextRound (tc : TimeoutCertificate) : UInt64 := tc.round + 1

structure TcAccumulator where
  round : UInt64
  epoch : UInt64
  quorum : ℕ
  shares : Table Address TimeoutShare
  deriving DecidableEq

namespace TcAccumulator

def new (round epoch : UInt64) (quorum : ℕ) : TcAccumulator := ⟨round,epoch,quorum,∅⟩

/-- The certificate over all shares held; a failed aggregation leaves a zero signature. -/
def certificate (P : Platform) (acc : TcAccumulator) : TimeoutCertificate :=
  let entries := P.iterOrder acc.shares.entries
  { round := acc.round
    epoch := acc.epoch
    highQcRound := (entries.map (fun e => e.2.data.highQcRound)).foldl max 0
    aggSignature := (P.aggregateSignatures (entries.map (fun e => e.2.signature))).getD 0
    signers := entries.map (fun e => e.1) }

def insert (P : Platform) (acc : TcAccumulator) (share : TimeoutShare) :
    TcAccumulator × Option TimeoutCertificate :=
  if share.data.round ≠ acc.round ∨ share.data.epoch ≠ acc.epoch then (acc,none)
  else if (acc.shares.lookup share.validator).isSome then (acc,none)
  else if ¬ P.verifySingle share.signature share.blsPubkey (share.data.signingHash P) then (acc,none)
  else
    let acc := { acc with shares := acc.shares.insert share.validator share }
    if acc.shares.len < acc.quorum then (acc,none) else (acc,some (acc.certificate P))

end TcAccumulator

inductive CoordinatorEvent where
  | broadcastTimeout (share : TimeoutShare)
  | newTc (tc : TimeoutCertificate)
  | newRound (round : UInt64)
  | noop
  deriving DecidableEq

/-- The coordinator. `startedAt` is the instant at which the round of `inner` began. -/
structure PacemakerCoordinator where
  inner : Pacemaker
  startedAt : ℕ
  currentRound : UInt64
  epoch : UInt64
  selfAddr : Address
  blsKey : BlsPrivKey
  blsPubkey : BlsPubKey
  quorum : ℕ
  highQcRound : UInt64
  tcAccumulators : Table UInt64 TcAccumulator
  deltaMs : UInt64
  deltaMinMs : UInt64
  deltaMaxMs : UInt64

namespace PacemakerCoordinator

/-- `new`; for no validator at all the subtraction wraps. -/
def new (P : Platform) (selfAddr : Address) (blsKey : BlsPrivKey) (n round epoch : UInt64)
    (config : PacemakerConfig) (now : ℕ) : PacemakerCoordinator :=
  let f := (n - 1) / 3
  { inner := .new config
    startedAt := now
    currentRound := round
    epoch := epoch
    selfAddr := selfAddr
    blsKey := blsKey
    blsPubkey := P.toPubkey blsKey
    quorum := (2 * f + 1).toNat
    highQcRound := 0
    tcAccumulators := ∅
    deltaMs := 2000
    deltaMinMs := 500
    deltaMaxMs := 30000 }

def isTimedOut (c : PacemakerCoordinator) (now : ℕ) : Bool :=
  decide (c.inner.current.timeout ≤ now - c.startedAt)

def buildTimeoutShare (P : Platform) (c : PacemakerCoordinator) : TimeoutShare :=
  let data : TimeoutShareData := ⟨c.currentRound,c.epoch,c.highQcRound⟩
  ⟨data,c.selfAddr,c.blsPubkey,P.sign c.blsKey (data.signingHash P)⟩

def tick (P : Platform) (c : PacemakerCoordinator) (now : ℕ) : CoordinatorEvent :=
  if c.isTimedOut now then .broadcastTimeout (c.buildTimeoutShare P) else .noop

def advanceToRound (c : PacemakerCoordinator) (round : UInt64) (now : ℕ) : PacemakerCoordinator :=
  if c.currentRound < round then
    { c with
      currentRound := round
      inner := c.inner.startRound round c.epoch
      startedAt := now }
  else c

def adaptDelta (c : PacemakerCoordinator) (success : Bool) : PacemakerCoordinator :=
  if success then { c with deltaMs := max (c.deltaMs * 7 / 8) c.deltaMinMs }
  else { c with deltaMs := min (UInt64.ofNat (min (c.deltaMs.toNat * 3) (2 ^ 64 - 1)) / 2) c.deltaMaxMs }

def onQc (c : PacemakerCoordinator) (qc : QuorumCertificate) (now : ℕ) :
    PacemakerCoordinator × CoordinatorEvent :=
  let qcRound := qc.blockNumber
  if c.currentRound ≤ qcRound then
    let c := { c with highQcRound := max c.highQcRound qcRound }
    let next := qcRound + 1
    ((c.advanceToRound next now).adaptDelta true,.newRound next)
  else (c,.noop)

def accumulator (c : PacemakerCoordinator) (round : UInt64) : TcAccumulator :=
  (c.tcAccumulators.lookup round).getD (.new round c.epoch c.quorum)

def onTimeoutShare (P : Platform) (c : PacemakerCoordinator) (share : TimeoutShare) (now : ℕ) :
    PacemakerCoordinator × Except ConsensusError CoordinatorEvent :=
  if share.data.epoch ≠ c.epoch then (c,.error (.invalidEpoch c.epoch share.data.epoch))
  else
    let round := share.data.round
    let (acc,formed) := (c.accumulator round).insert P share
    let c := { c with tcAccumulators := c.tcAccumulators.insert round acc }
    match formed with
    | some tc =>
      let c := { c with tcAccumulators := c.tcAccumulators.retain (fun r _ => decide (round ≤ r)) }
      ((c.adaptDelta false).advanceToRound tc.nextRound now,.ok (.newTc tc))
    | none => (c,.ok .noop)

end PacemakerCoordinator
end Coordinator
end ZbxChain
