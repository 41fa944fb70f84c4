import ZbxChain.Execution.Executor
import ZbxChain.Node.BlockProducer

/-! # `execute_and_commit_inner`: a block is executed and its outcome stored

The accounts a block names are read into a view, the block is executed on the view, and what
it leaves is written account by account. A storage operation can fail; the writes before it
stay. What a commit writes is a list, and the database after it is the list applied.
-/
namespace ZbxChain

/-- The columns of the database that a commit reads or writes. Those of the staking ledger
belong to the state of the dispatcher, and those of the governance hold no account. -/
structure ChainDb where
  chain : ZbxDb
  accounts : Accounts
  codes : Table H256 (List UInt8)
  words : Storage
  /-- The gas of the stored receipts, by transaction. -/
  receiptGas : Table H256 UInt64
  trieNodes : NodeMap

inductive DbWrite where
  | account (addr : Address) (state : AccountState)
  | trieNodes (nodes : NodeMap)
  | block (block : Block)
  | stakingDelta
  | proposals
  | governance

namespace ChainDb

def getAccount (db : ChainDb) (addr : Address) : AccountState := (db.accounts.lookup addr).getD .fresh

def getCode (db : ChainDb) (codeHash : H256) : List UInt8 := (db.codes.lookup codeHash).getD []

def getStorage (db : ChainDb) (addr : Address) (slot : H256) : H256 := readSlot db.words addr slot

def codeAt (db : ChainDb) (addr : Address) : List UInt8 :=
  if (db.getAccount addr).isContract then db.getCode (db.getAccount addr).codeHash else []

/-- `ZbxDbTrieAdapter::new`. -/
def adapter (db : ChainDb) : ZbxDbTrieAdapter := ⟨db.trieNodes,[]⟩

def apply (db : ChainDb) : DbWrite → ChainDb
  | .account addr state => { db with accounts := db.accounts.insert addr state }
  | .trieNodes nodes => { db with trieNodes := nodes }
  | .block block => { db with chain := db.chain.putBlock block }
  | .stakingDelta | .proposals | .governance => db

def applyAll (db : ChainDb) (writes : List DbWrite) : ChainDb := writes.foldl apply db

end ChainDb

/-- The errors of the storage layer in one commit, where there are any. The governance hook
fails, or tells whether it has changed the registries. -/
structure Faults where
  getAccount : Address → Option String
  getCode : H256 → Option String
  trieRead : Option String
  putAccount : Address → Option String
  trieCommit : Option String
  putBlock : Option String
  stakingDelta : Option String
  governance : Except String Bool
  escrow : Option String

structure Faults.Silent (faults : Faults) : Prop where
  getAccount : ∀ addr, faults.getAccount addr = none
  getCode : ∀ codeHash, faults.getCode codeHash = none
  trieRead : faults.trieRead = none
  putAccount : ∀ addr, faults.putAccount addr = none
  trieCommit : faults.trieCommit = none
  putBlock : faults.putBlock = none
  stakingDelta : faults.stakingDelta = none
  governance : ∃ changed, faults.governance = .ok changed
  escrow : faults.escrow = none

/-- No write fails that the commit answers for; reads may, and an error of the escrow is dropped. -/
structure Faults.SpareWrites (faults : Faults) : Prop where
  putAccount : ∀ addr, faults.putAccount addr = none
  trieCommit : faults.trieCommit = none
  putBlock : faults.putBlock = none
  stakingDelta : faults.stakingDelta = none
  governance : ∃ changed, faults.governance = .ok changed

theorem Faults.Silent.spareWrites {faults : Faults} (h : faults.Silent) : faults.SpareWrites :=
  ⟨h.putAccount,h.trieCommit,h.putBlock,h.stakingDelta,h.governance⟩

def Faults.none : Faults :=
  ⟨fun _ => .none,fun _ => .none,.none,fun _ => .none,.none,.none,.none,.ok false,.none⟩

theorem Faults.silent_none : Faults.none.Silent :=
  ⟨fun _ => rfl,fun _ => rfl,rfl,fun _ => rfl,rfl,rfl,rfl,⟨false,rfl⟩,rfl⟩

/-- Storage operations one after the other, each with its error or else its writes, up to
the first that fails. -/
def attempt : List (Option String × List DbWrite) → List DbWrite × Option String
  | [] => ([],none)
  | (some e,_) :: _ => ([],some e)
  | (none,writes) :: rest => (writes ++ (attempt rest).1,(attempt rest).2)

section Seeding

/-- The closure `seed`, for an address that it has not seen. -/
def seed (db : ChainDb) (faults : Faults) (view : ExecView) (addr : Address) : Except String ExecView :=
  match faults.getAccount addr with
  | some e => .error ("get_account " ++ hexEncode addr.asBytes ++ ": " ++ e)
  | none =>
    let acct := db.getAccount addr
    if acct.isContract then
      match faults.getCode acct.codeHash with
      | some e => .error ("get_code: " ++ e)
      | none => .ok ((view.seedCode acct.codeHash (db.getCode acct.codeHash)).seedAccount addr acct)
    else .ok (view.seedAccount addr acct)

def seedAll (db : ChainDb) (faults : Faults) : List Address → AddressSet → ExecView →
    Except String ExecView
  | [], _, view => .ok view
  | addr :: rest, seen, view =>
    if addr ∈ seen then seedAll db faults rest seen view
    else match seed db faults view addr with
      | .error e => .error e
      | .ok view => seedAll db faults rest (seen.insert addr) view

def Block.referenced (block : Block) : List Address :=
  block.body.transactions.flatMap (fun tx => tx.sender :: tx.tx.recipient.toList) ++
    [block.header.coinbase]

end Seeding

/-- The visible set of `state_root_with_db`. -/
def StateView.visible (P : Platform) (view : StateView) : Accounts :=
  let kept : (Σ _ : Address, AccountState) → Bool := fun e => decide (e.1 ∉ view.toDelete)
  ((∅ : Accounts).insertAll ((P.iterOrder view.base.entries).filter kept)).insertAll
    ((P.iterOrder view.accounts.entries).filter kept)

/-- What execution leaves: the view, the database of the tries, and what it returns. -/
structure Executed (V : Type) where
  view : ExecView
  adapter : ZbxDbTrieAdapter
  result : Except ExecutionError (ExecOutput × Option V)

structure StakingNode (V K : Type) extends StakingPrecompile V K where
  deltaIsEmpty : V → Bool
  distributeBlockReward : V → UInt64 → Address → ℕ → V

section Rewards

def rewardInterval : ℕ := 100

def rewardWindow (height : UInt64) : List UInt64 :=
  let windowStart := height.toNat - (rewardInterval - 1)
  (List.range' windowStart (height.toNat + 1 - windowStart)).map UInt64.ofNat

/-- The priority fee of a stored transaction; without a receipt its gas limit counts. -/
def storedFee (db : ChainDb) (baseFee : UInt64) (tx : SignedTransaction) : ℕ :=
  let tipPerGas := saturatingSub64 (tx.effectiveGasPrice baseFee) baseFee
  let gasUsed := (db.receiptGas.lookup tx.hash).getD tx.tx.gasLimit
  min (tipPerGas.toNat * gasUsed.toNat) maxU128

def accumulatedFees (db : ChainDb) (height : UInt64) : ℕ :=
  (rewardWindow height).foldl (fun fees h =>
    match db.chain.getBlockByNumber h with
    | none => fees
    | some b => b.body.transactions.foldl
        (fun fees tx => saturatingAdd128 fees (storedFee db b.header.baseFeePerGas tx)) fees) 0

def intervalEscrowMint (height : UInt64) (accumulatedFees : ℕ) : ℕ :=
  if height.toNat % rewardInterval ≠ 0 then 0
  else saturatingAdd128 ((rewardWindow height).map blockRewardAt).sum accumulatedFees

def mintedEscrow (db : ChainDb) (mint : ℕ) : AccountState :=
  let escrow := db.getAccount stakingPrecompileAddr
  escrow.setBalanceU128 (saturatingAdd128 escrow.balanceU128 mint)

/-- `apply_interval_rewards`; its errors are logged and dropped. -/
def applyIntervalRewards {V K : Type} (S : StakingNode V K) (db : ChainDb) (faults : Faults)
    (block : Block) (vs : V) : List DbWrite × V :=
  let height := block.header.number
  let fees := accumulatedFees db height
  let mint := intervalEscrowMint height fees
  let distributed := S.distributeBlockReward vs height block.header.coinbase fees
  if 0 < mint then
    match faults.escrow with
    | some _ => ([],vs)
    | none => ([.account stakingPrecompileAddr (mintedEscrow db mint)],distributed)
  else ([],distributed)

end Rewards

section Commit
variable {V K : Type} (P : Platform) (M : Machines) (S : StakingNode V K) (C : Commitments)

/-- `execute_inner` over a persistent trie database. -/
def executeInner (trieRead : Option String) (block : Block) (view : ExecView) (db : ZbxDbTrieAdapter)
    (vs : Option V) : Executed V :=
  match (runBlock P M S.toStakingPrecompile C block vs).run.run ExecView.answer view with
  | (.error e,view) => ⟨view,db,.error e⟩
  | (.ok progress,view) =>
    match trieRead with
    | some e => ⟨view,db,.error (.state ("trie state_root: database error: " ++ e))⟩
    | none =>
      match computeStateRootWithDb P (view.state.visible P) view.state.storage db with
      | (db,.error fault) => ⟨view,db,.error (.state ("trie state_root: " ++ fault.display))⟩
      | (db,.ok root) => ⟨view,db,.ok
          ({ gasUsed := progress.cumulativeGas
             newStateRoot := root
             transactionsRoot := C.txRoot block.body.transactions
             receiptsRoot := C.receiptsRoot progress.receipts
             logsBloom := C.blockBloom progress.receipts },progress.validators)⟩

/-- What was written while executing: the nodes of a buffer that was full, and the proposals
of the dispatcher. -/
def Executed.early (db : ChainDb) (executed : Executed V) : List DbWrite :=
  (if executed.adapter.trieNodes = db.trieNodes then [] else [.trieNodes executed.adapter.trieNodes]) ++
    (if executed.view.proposalsStored then [.proposals] else [])

/-- A block that goes on to be stored. -/
structure Ready (V : Type) where
  early : List DbWrite
  view : ExecView
  adapter : ZbxDbTrieAdapter
  output : ExecOutput
  validators : Option V

/-- All that comes before the first write of the commit itself: seeding, execution, and the
check of the head. A refusal tells what was written on the way. -/
def prepare (db : ChainDb) (faults : Faults) (vs : Option V) (block : Block) :
    Except (List DbWrite × String) (Ready V) :=
  let parentNumber := saturatingSub64 block.header.number 1
  match seedAll db faults block.referenced [] .new with
  | .error e => .error ([],e)
  | .ok view =>
    let executed := executeInner P M S C faults.trieRead block view db.adapter vs
    match executed.result with
    | .error e => .error (executed.early db,"execute: " ++ e.display)
    | .ok (output,validators) =>
      let headNow := db.chain.head
      if headNow ≠ parentNumber then .error (executed.early db,
        s!"reorg detected: expected head {parentNumber}, got {headNow} — dropping candidate")
      else .ok ⟨executed.early db,executed.view,executed.adapter,output,validators⟩

def persistSteps (faults : Faults) (block : Block) (ready : Ready V) :
    List (Option String × List DbWrite) :=
  (P.iterOrder ready.view.state.accounts.entries).map (fun e =>
    ((faults.putAccount e.1).map (fun err => "put_account " ++ hexEncode e.1.asBytes ++ ": " ++ err),
      [.account e.1 e.2])) ++
  [(faults.trieCommit.map (fun err => "trie node commit: " ++ err),
    if ready.adapter.pending.isEmpty then [] else [.trieNodes ready.adapter.commit.trieNodes]),
   (faults.putBlock.map (fun err => "put_block: " ++ err),[.block (ready.output.patch block)])] ++
  if ready.validators.all S.deltaIsEmpty then []
  else [(faults.stakingDelta.map (fun err => "apply_staking_delta: " ++ err),[.stakingDelta])]

def governanceStep (faults : Faults) : Option String × List DbWrite :=
  match faults.governance with
  | .error e => (some e,[])
  | .ok changed => (none,if changed then [.governance] else [])

/-- What a commit leaves: its writes, the live validator set, and what it returns. -/
structure Outcome (V : Type) where
  writes : List DbWrite
  validators : Option V
  result : Except String Block

def rewardStep (db : ChainDb) (faults : Faults) (block : Block) (vs validators : Option V) :
    List DbWrite × Option V :=
  match vs,validators with
  | some _,some live =>
    if block.header.number.toNat % rewardInterval = 0 then
      let (writes,live) := applyIntervalRewards S db faults block live
      (writes,some live)
    else ([],some live)
  | _,_ => ([],validators)

def persist (db : ChainDb) (faults : Faults) (vs : Option V) (block : Block) (ready : Ready V) :
    Outcome V :=
  match attempt (persistSteps P S faults block ready) with
  | (writes,some e) => ⟨ready.early ++ writes,vs,.error e⟩
  | (writes,none) =>
    match attempt [governanceStep faults] with
    | (_,some e) => ⟨ready.early ++ writes,ready.validators,.error e⟩
    | (swept,none) =>
      let block := ready.output.patch block
      let writes := ready.early ++ writes ++ swept
      let (rewards,validators) := rewardStep S (db.applyAll writes) faults block vs
        ready.validators
      ⟨writes ++ rewards,validators,.ok block⟩

def executeAndCommitInner (db : ChainDb) (faults : Faults) (vs : Option V) (block : Block) : Outcome V :=
  match prepare P M S C db faults vs block with
  | .error (early,e) => ⟨early,vs,.error e⟩
  | .ok ready => persist P S db faults vs block ready

def ChainDb.executeAndCommit (db : ChainDb) (faults : Faults) (block : Block) : Outcome V :=
  executeAndCommitInner P M S C db faults none block

def ChainDb.executeAndCommitWithValidatorSet (db : ChainDb) (faults : Faults) (vs : V) (block : Block) :
    Outcome V := executeAndCommitInner P M S C db faults (some vs) block

end Commit

end ZbxChain
