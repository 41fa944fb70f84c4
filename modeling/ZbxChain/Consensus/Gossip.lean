import ZbxChain.Foundation.Machine
import ZbxChain.Consensus.Vote
import ZbxChain.Types.Block

/-! # The gossip engine: who is forwarded what, and what counts as seen

Seen messages are remembered by a key of 41 bytes: the kind of the message, its round, and
the sender of a vote or of a timeout share.
-/
namespace ZbxChain

namespace Pacemaker

structure TimeoutShareData where
  round : UInt64
  epoch : UInt64
  highQcRound : UInt64
  deriving DecidableEq

structure TimeoutShare where
  data : TimeoutShareData
  validator : Address
  blsPubkey : BlsPubKey
  signature : BlsSignature
  deriving DecidableEq

structure TimeoutCertificate where
  round : UInt64
  epoch : UInt64
  highQcRound : UInt64
  aggSignature : BlsSignature
  signers : List Address
  deriving DecidableEq

end Pacemaker

/-- The priorities are numbered from the lowest on. -/
inductive GossipPriority where
  | timeoutShare
  | vote
  | tc
  | qc
  | proposal
  deriving DecidableEq

def GossipPriority.toByte : GossipPriority → UInt8
  | .timeoutShare => 0
  | .vote => 1
  | .tc => 2
  | .qc => 3
  | .proposal => 4

inductive GossipMessage where
  | proposal (block : Block) (round epoch : UInt64) (proposer : Address)
  | vote (v : Vote)
  | qc (q : QuorumCertificate)
  | tc (t : Pacemaker.TimeoutCertificate)
  | timeoutShare (ts : Pacemaker.TimeoutShare)
  deriving DecidableEq

namespace GossipMessage

def priority : GossipMessage → GossipPriority
  | .proposal .. => .proposal
  | .qc _ => .qc
  | .tc _ => .tc
  | .vote _ => .vote
  | .timeoutShare _ => .timeoutShare

def round : GossipMessage → UInt64
  | .proposal _ round _ _ => round
  | .vote v => v.data.blockNumber
  | .qc q => q.blockNumber
  | .tc t => t.round
  | .timeoutShare ts => ts.data.round

/-- Whose address goes into the key. -/
def keySender : GossipMessage → Option Address
  | .vote v => some v.voter
  | .timeoutShare ts => some ts.validator
  | .proposal .. => none
  | .qc _ => none
  | .tc _ => none

/-- `dedup_key`: kind, round, twelve zeros and the sender, or twenty more zeros. -/
def dedupKey (msg : GossipMessage) : List UInt8 :=
  msg.priority.toByte :: (beBytes64 msg.round ++ List.replicate 12 0 ++
    match msg.keySender with
    | some a => a.asBytes
    | none => List.replicate 20 0)

end GossipMessage

def MIN_FANOUT : ℕ := 4
def SEEN_CAPACITY : ℕ := 8192
def EXPIRY_ROUNDS : UInt64 := 10
def RATE_LIMIT_PER_SEC : ℕ := 200

structure Envelope where
  message : GossipMessage
  recipients : List Address

structure PeerLimiter where
  count : ℕ
  windowStartSecs : UInt64

namespace PeerLimiter

def new : PeerLimiter := ⟨0,0⟩

def checkAndRecord (l : PeerLimiter) (nowSecs : UInt64) : PeerLimiter × Bool :=
  let l := if nowSecs ≠ l.windowStartSecs then ⟨0,nowSecs⟩ else l
  if RATE_LIMIT_PER_SEC ≤ l.count then (l,false) else ({ l with count := l.count + 1 },true)

end PeerLimiter

/-- `max(4, ceil(sqrt n))` and at most `n - 1`. The source takes the root of a 64-bit float,
which is exact up to the ceiling for all `n` below `2 ^ 52`. -/
def squareRootFanOut (n : ℕ) : ℕ :=
  let root := if n.sqrt * n.sqrt = n then n.sqrt else n.sqrt + 1
  min (max root MIN_FANOUT) (n - 1)

structure GossipEngine where
  selfAddr : Address
  validators : List Address
  fanOut : ℕ
  seen : List (List UInt8)
  seenSet : Finset (List UInt8)
  rateLimiters : Table Address PeerLimiter
  currentRound : UInt64

namespace GossipEngine

def new (selfAddr : Address) (validators : List Address) : GossipEngine where
  selfAddr := selfAddr
  validators := validators
  fanOut := squareRootFanOut validators.length
  seen := []
  seenSet := ∅
  rateLimiters := ∅
  currentRound := 0

def setRound (g : GossipEngine) (round : UInt64) : GossipEngine := { g with currentRound := round }

def insertSeen (g : GossipEngine) (key : List UInt8) : GossipEngine :=
  let g :=
    if SEEN_CAPACITY ≤ g.seen.length then
      match g.seen with
      | [] => g
      | old :: seen => { g with seen := seen, seenSet := g.seenSet.erase old }
    else g
  { g with seen := g.seen ++ [key], seenSet := insert key g.seenSet }

def lcgNext (lcg : UInt64) : UInt64 := lcg * 6364136223846793005 + 1442695040888963407

/-- The Fisher-Yates shuffle, from the index `i` down to 1. -/
def shuffle : ℕ → UInt64 → Array ℕ → Array ℕ
  | 0, _, indices => indices
  | i + 1, lcg, indices =>
    let lcg := lcgNext lcg
    shuffle i lcg (indices.swapIfInBounds (i + 1) (lcg.toNat % (i + 2)))

def candidates (g : GossipEngine) (exclude : Address) : List Address :=
  g.validators.filter (fun a => a ≠ g.selfAddr ∧ a ≠ exclude)

/-- `select_peers`; the shuffled indices all lie within the candidates. -/
def selectPeers (g : GossipEngine) (exclude : Address) : List Address :=
  let candidates := g.candidates exclude
  let indices := shuffle (candidates.length - 1) (lcgNext g.currentRound)
    (Array.range candidates.length)
  (indices.toList.take g.fanOut).map (fun i => candidates.getD i g.selfAddr)

/-- The limiter of a sender, which is set up when it first sends. -/
def limiter (g : GossipEngine) (sender : Address) : PeerLimiter :=
  (g.rateLimiters.lookup sender).getD PeerLimiter.new

/-- What an inbound message is refused with. -/
inductive GossipError where
  | rateLimitExceeded
  deriving DecidableEq

/-- `msg_round + EXPIRY_ROUNDS < current_round`. -/
def expired (g : GossipEngine) (msg : GossipMessage) : Bool :=
  msg.round + EXPIRY_ROUNDS < g.currentRound

def onInbound (g : GossipEngine) (sender : Address) (msg : GossipMessage) (nowSecs : UInt64) :
    GossipEngine × Except GossipError (Option Envelope) :=
  let (limiter,allowed) := (g.limiter sender).checkAndRecord nowSecs
  let g := { g with rateLimiters := g.rateLimiters.insert sender limiter }
  if ¬ allowed then (g,.error .rateLimitExceeded)
  else if g.expired msg then (g,.ok none)
  else if msg.dedupKey ∈ g.seenSet then (g,.ok none)
  else
    let g := g.insertSeen msg.dedupKey
    let recipients := g.selectPeers sender
    if recipients.isEmpty then (g,.ok none) else (g,.ok (some ⟨msg,recipients⟩))

def broadcast (g : GossipEngine) (msg : GossipMessage) : GossipEngine × Envelope :=
  let g := g.insertSeen msg.dedupKey
  (g,⟨msg,g.selectPeers g.selfAddr⟩)

def updateValidators (g : GossipEngine) (validators : List Address) : GossipEngine :=
  { g with
    fanOut := squareRootFanOut validators.length
    validators := validators
    rateLimiters := g.rateLimiters.retain (fun a _ => decide (a ∈ validators)) }

end GossipEngine

end ZbxChain
