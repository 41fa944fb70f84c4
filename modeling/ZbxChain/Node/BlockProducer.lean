import ZbxChain.Consensus.VoteIntake

/-! # The block producer and the consensus driver of a node

A candidate block is built from the pool and an executed one is written. Executing a block is
left to the caller: a commit is given the outcome of the execution, and does everything else
itself.

`runRound` is one tick of the driver: it proposes if the pacemaker's round is this node's, feeds
its own votes back, waits for those of others, and commits. What it is given from outside in
that time is a `Tick`. Blocks of peers reach the same storage past the driver.
-/
namespace ZbxChain

section Producer
/-- `BaseFeeCalculator::next_base_fee`; `none` is an overflow. The source stops where it
divides by a gas target of 0. -/
def nextBaseFee (parentBaseFee parentGasUsed parentGasLimit : UInt64) : Option UInt64 :=
  let gasTarget := parentGasLimit / 2
  let feeDelta (gasDelta : UInt64) : ℕ :=
    min (parentBaseFee.toNat * gasDelta.toNat) (2 ^ 128 - 1) / gasTarget.toNat / 8
  let next :=
    if parentGasUsed = gasTarget then some parentBaseFee
    else if gasTarget < parentGasUsed then
      let delta := UInt64.ofNat (max (feeDelta (parentGasUsed - gasTarget)) 1)
      if parentBaseFee.toNat + delta.toNat < 2 ^ 64 then some (parentBaseFee + delta) else none
    else
      some (saturatingSub64 parentBaseFee (UInt64.ofNat (feeDelta (gasTarget - parentGasUsed))))
  next.map (max · 7)

/-- The blocks on disk by number, with the height of the highest one. -/
structure ZbxDb where
  blocks : Table UInt64 Block
  latestHeight : Option UInt64
  keyed : ∀ n b, blocks.lookup n = some b → b.number = n

namespace ZbxDb

def empty : ZbxDb := ⟨∅,none,fun _ _ h => nomatch h⟩

def getBlockByNumber (db : ZbxDb) (number : UInt64) : Option Block := db.blocks.lookup number

/-- `get_latest_block_number().unwrap_or(0)`. -/
def head (db : ZbxDb) : UInt64 := db.latestHeight.getD 0

def putBlock (db : ZbxDb) (block : Block) : ZbxDb where
  blocks := db.blocks.insert block.number block
  latestHeight := if db.latestHeight.all (fun h => decide (h < block.number)) then some block.number
    else db.latestHeight
  keyed := by
    intro n b hlook
    rcases AList.lookup_insert_some hlook with ⟨rfl,rfl⟩ | ⟨-,hold⟩
    · rfl
    · exact db.keyed n b hold

theorem head_putBlock {db : ZbxDb} {block : Block} (h : db.head < block.number) :
    (db.putBlock block).head = block.number := by
  have hall : db.latestHeight.all (fun h => decide (h < block.number)) = true := by
    unfold head at h
    cases hlatest : db.latestHeight with
    | none => rfl
    | some height =>
      rw [hlatest] at h
      exact decide_eq_true h
  simp only [head, putBlock, hall, ↓reduceIte, Option.getD_some]

theorem head_le_putBlock {db : ZbxDb} {block : Block} : db.head ≤ (db.putBlock block).head := by
  by_cases h : db.head < block.number
  · rw [head_putBlock h]
    exact UInt64.le_of_lt h
  · cases hlatest : db.latestHeight with
    | none =>
      rw [head, hlatest]
      exact UInt64.zero_le
    | some height =>
      have hkeep : (db.putBlock block).latestHeight = some height := by
        rw [head, hlatest, Option.getD_some] at h
        simp [putBlock, hlatest, h]
      rw [head, hlatest, head, hkeep]
      exact UInt64.le_refl _

end ZbxDb

structure ProducerConfig where
  coinbase : Address
  gasLimit : UInt64
  produceEmptyBlocks : Bool

/-- `build_candidate` with the transactions that the pool selects, in the order that
sorting leaves them in, and the time if the clock gives one. -/
def buildCandidate (P : Platform) (storage : ZbxDb) (cfg : ProducerConfig)
    (txs : List SignedTransaction) (clock : Option UInt64) : Except String (Option Block) :=
  let parentNumber := storage.head
  match storage.getBlockByNumber parentNumber with
  | none => .error s!"no block at height {parentNumber}"
  | some parent =>
    if txs.isEmpty ∧ ¬ cfg.produceEmptyBlocks then .ok none
    else
      let now := clock.getD (parent.header.timestamp + 1)
      let header : BlockHeader :=
        { parentHash := parent.hash P
          uncleHash := 0
          coinbase := cfg.coinbase
          stateRoot := 0
          transactionsRoot := 0
          receiptsRoot := 0
          logsBloom := 0
          difficulty := 0
          number := parent.header.number + 1
          gasLimit := cfg.gasLimit
          gasUsed := 0
          timestamp := max now (parent.header.timestamp + 1)
          extraData := [122,98,120]
          mixHash := 0
          nonce := 0
          baseFeePerGas := (nextBaseFee parent.header.baseFeePerGas parent.header.gasUsed
            parent.header.gasLimit).getD (max parent.header.baseFeePerGas 1)
          committeeSignature := []
          epoch := parent.header.epoch
          epochSeed := none }
      .ok (some ⟨header,⟨txs,[]⟩⟩)

structure ExecOutput where
  gasUsed : UInt64
  newStateRoot : H256
  transactionsRoot : H256
  receiptsRoot : H256
  logsBloom : BitVec 2048

/-- How the execution of a block goes, with the errors of the writes before and after the
one of the block. -/
inductive Execution where
  | failed (message : String)
  | executed (exec : ExecOutput) (persistError lateError : Option String)

def ExecOutput.patch (exec : ExecOutput) (block : Block) : Block :=
  { block with
    header := { block.header with
      gasUsed := exec.gasUsed
      stateRoot := exec.newStateRoot
      transactionsRoot := exec.transactionsRoot
      receiptsRoot := exec.receiptsRoot
      logsBloom := exec.logsBloom } }

def executeAndCommit (storage : ZbxDb) (block : Block) :
    Execution → ZbxDb × Except String Block
  | .failed message => (storage, .error message)
  | .executed exec persistError lateError =>
    let parentNumber := saturatingSub64 block.number 1
    let headNow := storage.head
    if headNow ≠ parentNumber then
      (storage, .error
        s!"reorg detected: expected head {parentNumber}, got {headNow} — dropping candidate")
    else match persistError with
    | some message => (storage, .error message)
    | none =>
      let block := exec.patch block
      let storage := storage.putBlock block
      match lateError with
      | some message => (storage, .error message)
      | none => (storage, .ok block)

variable {P : Platform} {storage : ZbxDb} {cfg : ProducerConfig} {txs : List SignedTransaction}
  {clock : Option UInt64} {block : Block}

theorem buildCandidate_spec (h : buildCandidate P storage cfg txs clock = .ok (some block)) :
    block.number = storage.head + 1 ∧ block.coinbase = cfg.coinbase := by
  unfold buildCandidate at h
  dsimp only at h
  cases hparent : storage.getBlockByNumber storage.head with
  | none =>
    rw [hparent] at h
    cases h
  | some parent =>
    have hnumber : parent.header.number = storage.head := storage.keyed _ _ hparent
    simp only [hparent] at h
    split at h
    · cases h
    · cases h
      simp only [Block.number, Block.coinbase, hnumber, and_self]

/-- A commit fails and changes nothing, or it extends the head. -/
theorem executeAndCommit_cases (storage : ZbxDb) (block : Block) (execution : Execution) :
    (executeAndCommit storage block execution).1 = storage ∧
        (∃ message, (executeAndCommit storage block execution).2 = .error message) ∨
      storage.head = saturatingSub64 block.number 1 ∧
        ∃ exec : ExecOutput, (executeAndCommit storage block execution).1 =
          storage.putBlock (exec.patch block) := by
  cases execution with
  | failed message => exact Or.inl ⟨rfl,message,rfl⟩
  | executed exec persistError lateError =>
    unfold executeAndCommit
    by_cases hhead : storage.head = saturatingSub64 block.number 1
    · dsimp only
      rw [if_neg (not_not.mpr hhead)]
      cases persistError with
      | some message => exact Or.inl ⟨rfl,message,rfl⟩
      | none =>
        refine Or.inr ⟨hhead,exec,?_⟩
        cases lateError with
        | some message => rfl
        | none => rfl
    · dsimp only
      rw [if_pos hhead]
      exact Or.inl ⟨rfl,_,rfl⟩

end Producer

structure ValidatorKey where
  address : Address
  blsPriv : BlsPrivKey

/-- `ConsensusConfig` as the node fills it in: blocks pay the node's own address. -/
structure ConsensusConfig where
  myKey : ValidatorKey
  validators : List (Address × BlsPubKey)
  producerCfg : ProducerConfig
  epochLength : UInt64
  genesisEpochSeed : Option H256
  nonempty : validators ≠ []
  ownCoinbase : producerCfg.coinbase = myKey.address
  epochLength_ne : epochLength ≠ 0

structure InboundVote where
  vote : Vote
  pubkey : BlsPubKey

structure ConsensusDriver where
  cfg : ConsensusConfig
  consensus : HotStuffConsensus
  storage : ZbxDb
  pendingBlocks : Table H256 Block

/-- The error texts of `run_round`, by where they come from. -/
inductive RoundError where
  | buildCandidate (message : String)
  | selfEquivocation (round : UInt64)
  | onProposal (e : ConsensusError)
  | commit (message : String)
  deriving DecidableEq

/-- What a tick meets: the pool's transactions, the clock, the votes that come in before the
deadline or before the channel closes, the execution of a block that is committed, and the
active set that the staking registry elects, if there is one. -/
structure Tick where
  txs : List SignedTransaction
  clock : Option UInt64
  inbound : List InboundVote
  channelClosed : Bool
  execution : Execution
  elected : Option { l : List (Address × BlsPubKey) // l ≠ [] }

def validateEpochSeed (height : UInt64) (headerSeed : Option H256) (localSeed : H256)
    (epochLength : UInt64) : Except String Unit :=
  let isEpochStart := decide (0 < height ∧ height % epochLength = 0)
  match headerSeed, isEpochStart with
  | some hdrSeed, true =>
    if hdrSeed ≠ localSeed then
      .error (s!"consensus-invalid block at height {height}: header.epoch_seed = " ++
        s!"{hdrSeed.debug} disagrees with locally-rotated seed = {localSeed.debug}. " ++
        "Light-client verification would split — rejecting.")
    else .ok ()
  | some hdrSeed, false =>
    .error (s!"consensus-invalid block at height {height}: header.epoch_seed = " ++
      s!"{hdrSeed.debug} set on a non-boundary block (epoch_length = {epochLength}). " ++
      "Pass-19 invariant violated — rejecting.")
  | none, true =>
    if localSeed ≠ .zero then
      .error (s!"consensus-invalid block at height {height}: epoch-start block missing " ++
        s!"header.epoch_seed while local rotated seed = {localSeed.debug} is non-zero. " ++
        "Light clients would reject — rejecting at full node.")
    else .ok ()
  | none, false => .ok ()

namespace HotStuffConsensus

/-- `process_events`: the events are taken in turn, a vote that was cast is fed back under the
own key, and a committed block ends the loop. Other events take one unit of fuel each. -/
def processEvents (P : Platform) (pubkey : BlsPubKey) :
    ℕ → HotStuffConsensus → List ConsensusEvent → HotStuffConsensus × Option Block
  | _, cs, [] => (cs, none)
  | _, cs, .committed block _ :: _ => (cs, some block)
  | 0, cs, _ :: _ => (cs, none)
  | fuel + 1, cs, .voteCast vote :: rest =>
    match cs.onVote P vote pubkey with
    | (cs, .ok moreEvents) => processEvents P pubkey fuel cs (rest ++ moreEvents)
    | (cs, .error _) => processEvents P pubkey fuel cs rest
  | fuel + 1, cs, .timeout _ :: rest => processEvents P pubkey fuel cs rest
  | fuel + 1, cs, .proposalRequired _ _ :: rest => processEvents P pubkey fuel cs rest

def eventFuel : ℕ := 3

def waitForCommit (P : Platform) (pubkey : BlsPubKey) (channelClosed : Bool) :
    HotStuffConsensus → List InboundVote → HotStuffConsensus × Option Block
  | cs, [] => if channelClosed then (cs, none) else (cs.onTimeout.1, none)
  | cs, msg :: rest =>
    match cs.onVote P msg.vote msg.pubkey with
    | (cs, .error _) => waitForCommit P pubkey channelClosed cs rest
    | (cs, .ok events) =>
      match cs.processEvents P pubkey eventFuel events with
      | (cs, some block) => (cs, some block)
      | (cs, none) => waitForCommit P pubkey channelClosed cs rest

/-- The votes of a round: our own first, then those of others if more than ours are needed. -/
def collectVotes (P : Platform) (pubkey : BlsPubKey) (channelClosed : Bool)
    (inbound : List InboundVote) (cs : HotStuffConsensus) (events : List ConsensusEvent) :
    HotStuffConsensus × Option Block :=
  let (cs,committed) := cs.processEvents P pubkey eventFuel events
  if committed.isNone ∧ 1 < cs.validatorSet.quorum then
    cs.waitForCommit P pubkey channelClosed inbound
  else (cs,committed)

def parentQcFor (cs : HotStuffConsensus) (block : Block) : QuorumCertificate :=
  let synthetic : QuorumCertificate :=
    ⟨⟨block.header.parentHash,saturatingSub64 block.number 1,Phase.commit.toUInt8,
      block.header.epoch⟩,0,[],[]⟩
  match cs.highestQc with
  | some qc => if qc.blockNumber + 1 = block.number then qc else synthetic
  | none => synthetic

def registerAll (cs : HotStuffConsensus) (validators : List (Address × BlsPubKey)) :
    HotStuffConsensus :=
  validators.foldl (fun cs v => cs.registerValidatorPubkey v.1 v.2) cs

def patchEpochSeed (cs : HotStuffConsensus) (epochLength : UInt64) (block : Block) : Block :=
  if 0 < block.number ∧ block.number % epochLength = 0 ∧ cs.validatorSet.epochSeed ≠ .zero then
    { block with header := { block.header with epochSeed := some cs.validatorSet.epochSeed } }
  else block

/-- The seed of the next epoch, once its last block is committed. -/
def rotateAfter (P : Platform) (cs : HotStuffConsensus) (epochLength : UInt64) (height : UInt64)
    (committed : Block) : HotStuffConsensus :=
  if (height + 1) % epochLength = 0 then
    cs.rotateEpochSeed (P.keccak256 ((committed.hash P).asBytes ++
      beBytes64 ((height + 1) / epochLength) ++ cs.validatorSet.epochSeed.asBytes))
  else cs

/-- The validator set that the staking registry elects at the first block of an epoch. -/
def refreshValidators (cs : HotStuffConsensus) (epochLength : UInt64) (height : UInt64) :
    Option { l : List (Address × BlsPubKey) // l ≠ [] } → HotStuffConsensus
  | none => cs
  | some elected =>
    if height % epochLength = 0 then
      (cs.registerAll elected.1).updateValidatorSet
        ⟨elected.1.map Prod.fst,fun h => elected.2 (List.map_eq_nil_iff.mp h)⟩
    else cs

end HotStuffConsensus

namespace ConsensusDriver

def new (P : Platform) (cfg : ConsensusConfig) (storage : ZbxDb) : ConsensusDriver :=
  let validatorSet := ValidatorSet.new (cfg.validators.map Prod.fst)
    (fun h => cfg.nonempty (List.map_eq_nil_iff.mp h))
  let safety := SafetyRules.new P cfg.myKey.blsPriv cfg.myKey.address
  let consensus := HotStuffConsensus.new cfg.myKey.address safety validatorSet
  let consensus := match cfg.genesisEpochSeed with
    | some seed => if seed ≠ H256.zero then consensus.rotateEpochSeed seed else consensus
    | none => consensus
  ⟨cfg,consensus.registerAll cfg.validators,storage,∅⟩

variable (P : Platform)

def doCommit (d : ConsensusDriver) (block : Block) (execution : Execution)
    (elected : Option { l : List (Address × BlsPubKey) // l ≠ [] }) :
    ConsensusDriver × Except String Unit :=
  let height := block.number
  match validateEpochSeed height block.header.epochSeed d.consensus.validatorSet.epochSeed
      d.cfg.epochLength with
  | .error message => (d, .error message)
  | .ok () =>
    let d := { d with
      pendingBlocks := (d.pendingBlocks.erase (block.hash P)).retain
        (fun _ b => decide (height ≤ b.number))
      consensus := d.consensus.pruneSeenVotesBelow height }
    match executeAndCommit d.storage block execution with
    | (storage, .error message) => ({ d with storage := storage }, .error message)
    | (storage, .ok committed) =>
      let consensus := d.consensus.rotateAfter P d.cfg.epochLength height committed
      ({ d with
          storage := storage
          consensus := consensus.refreshValidators d.cfg.epochLength height elected }, .ok ())

/-- The candidate that `run_round` proposes. -/
def candidate (d : ConsensusDriver) (t : Tick) : Except String (Option Block) :=
  match buildCandidate P d.storage d.cfg.producerCfg t.txs t.clock with
  | .error message => .error message
  | .ok block => .ok (block.map (d.consensus.patchEpochSeed d.cfg.epochLength))

/-- `run_round` from the accepted proposal on. -/
def awaitCommit (d : ConsensusDriver) (events : List ConsensusEvent) (t : Tick) :
    ConsensusDriver × Except RoundError Unit :=
  let (cs,committed) := d.consensus.collectVotes P (P.toPubkey d.cfg.myKey.blsPriv)
    t.channelClosed t.inbound events
  let d := { d with consensus := cs }
  match committed with
  | none => (d, .ok ())
  | some block =>
    let (d,result) := d.doCommit P block t.execution t.elected
    (d, result.mapError .commit)

def runRound (d : ConsensusDriver) (t : Tick) : ConsensusDriver × Except RoundError Unit :=
  let round := d.consensus.currentRound
  let proposer := d.consensus.validatorSet.proposerForRound P round
  if proposer ≠ d.cfg.myKey.address then (d, .ok ())
  else match d.candidate P t with
  | .error message => (d, .error (.buildCandidate message))
  | .ok none => (d, .ok ())
  | .ok (some block) =>
    let d := { d with pendingBlocks := d.pendingBlocks.insert (block.hash P) block }
    let parentQc := d.consensus.parentQcFor block
    match d.consensus.onProposal P block parentQc with
    | (cs, .error (.equivocation r _ _)) => ({ d with consensus := cs }, .error (.selfEquivocation r))
    | (cs, .error e) => ({ d with consensus := cs }, .error (.onProposal e))
    | (cs, .ok events) => { d with consensus := cs }.awaitCommit P events t

/-- A block from a peer, written past the driver if it is the next one. -/
def importBlock (d : ConsensusDriver) (block : Block) (execution : Execution) : ConsensusDriver :=
  if block.number = d.storage.head + 1 then
    { d with storage := (executeAndCommit d.storage block execution).1 }
  else d

inductive Call where
  | tick (t : Tick)
  | importBlock (block : Block) (execution : Execution)

def step (d : ConsensusDriver) : Call → ConsensusDriver × Except RoundError Unit
  | .tick t => d.runRound P t
  | .importBlock block execution => (d.importBlock block execution, .ok ())

end ConsensusDriver

end ZbxChain
