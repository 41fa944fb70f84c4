import ZbxChain.Execution.ZvmHost
import ZbxChain.State.Persistence

/-! # `zbx_execution::executor`: transactions one after the other

The interpreters are parameters. The EVM runs over a mock host of its own, so a run of it
is a function of its context and code; the ZVM runs over the production host, so a run of
it is a program of host calls. The staking dispatcher is a program on the view with a state
of its own: the validator set, the ledger on disk and the pending delta.
-/
namespace ZbxChain
open StateProgram

section Inputs

def SignedTransaction.effectiveGasPrice (tx : SignedTransaction) (baseFee : UInt64) : UInt64 :=
  baseFee + min tx.tx.maxPriorityFeePerGas (saturatingSub64 tx.tx.maxFeePerGas baseFee)

def Transaction.intrinsicGas (tx : Transaction) : UInt64 :=
  let base := if tx.recipient.isNone then 53000 else 21000
  let dataCost := (tx.data.map (fun b => if b = 0 then 4 else 16)).sum
  let alCost := tx.accessList.length * 2400 +
    (tx.accessList.map (fun e => e.2.length * 1900)).sum
  UInt64.ofNat (base + dataCost + alCost)

def initialBlockReward : ℕ := 2 * 10 ^ 18

def halvingInterval : ℕ := 63072000

def blockRewardAt (height : UInt64) : ℕ :=
  let halvings := height.toNat / halvingInterval
  if 64 ≤ halvings then 0 else initialBlockReward >>> halvings

/-- `is_precompile`: the addresses 1 to 15. -/
def isPrecompile (addr : Address) : Bool := decide (1 ≤ addr.toNat ∧ addr.toNat ≤ 15)

def stakingPrecompileAddr : Address := 0x0888

def isStakingDestination (recipient : Option Address) : Bool :=
  decide (recipient = some stakingPrecompileAddr)

def zvmDeployDiscriminator : UInt8 := 0x5A

end Inputs

inductive ExecutionError where
  | invalidNonce (expected got : UInt64)
  | insufficientBalance (balance cost : ℕ)
  | intrinsicGasTooLow (required provided : UInt64)
  | state (message : String)
  | validation (message : String)
  deriving DecidableEq

def ExecutionError.display : ExecutionError → String
  | .invalidNonce expected got => s!"invalid nonce: expected {expected}, got {got}"
  | .insufficientBalance balance cost => s!"insufficient balance: have {balance} wei, need {cost} wei"
  | .intrinsicGasTooLow required provided =>
    s!"intrinsic gas too low: required {required}, provided {provided}"
  | .state message => "state error: " ++ message
  | .validation message => "block validation failed: " ++ message

inductive ExitStatus where
  | succeeded
  | reverted
  | failed
  deriving DecidableEq

inductive ZvmStatus where
  | success
  | revert
  | outOfGas
  | invalidOpcode (op : UInt8)
  | stackOverflow
  | zvmError (message : String)
  deriving DecidableEq

def ZvmStatus.exit : ZvmStatus → ExitStatus
  | success => .succeeded
  | revert => .reverted
  | _ => .failed

structure ZvmContext where
  bytecode : List UInt8
  calldata : List UInt8
  caller : Address
  contract : Address
  value : ℕ
  gasLimit : UInt64
  blockNumber : UInt64
  blockTimestamp : UInt64
  baseFee : ℕ
  blobBaseFee : ℕ
  chainId : UInt64
  isStatic : Bool
  aaSender : Option Address
  zbxPriceUsd : ℕ
  origin : Address

structure EvmContext where
  caller : Address
  callee : Address
  value : U256
  calldata : List UInt8
  gasLimit : UInt64
  isStatic : Bool
  blockNumber : UInt64
  timestamp : UInt64
  coinbase : Address
  baseFee : UInt64
  gasPrice : UInt64
  txOrigin : Address
  chainId : UInt64
  randaoMix : H256

structure EvmLog where
  address : Address
  topics : List H256
  data : List UInt8

/-- The interpreters and the precompiles; `call_precompile` gives the gas it used, `none`
where it fails. -/
structure Machines where
  callPrecompile : Address → List UInt8 → UInt64 → Option UInt64
  runEvm : EvmContext → List UInt8 → ExitStatus × UInt64 × List EvmLog
  runZvm : ZvmContext → Program ZvmCall.Reply (ZvmStatus × UInt64)

/-- `decode_staking_call` and the dispatcher of the calls, with a state `V` of its own; it
gives the gas, `none` for a call that is refused. -/
structure StakingPrecompile (V K : Type) where
  decode : List UInt8 → Option K
  isFileAppeal : K → Bool
  dispatch : K → Address → ℕ → UInt64 → V → StateProgram (V × Option UInt64)

abbrev TxProgram (α : Type) := ExceptT ExecutionError (Program StateAccess.Reply) α

structure TxResult where
  gasUsed : UInt64
  effectivePrice : UInt64
  success : Bool
  logs : List Log
  contractAddress : Option Address
  deriving DecidableEq

structure Charge where
  effectivePrice : UInt64
  maxCost : ℕ
  value : ℕ
  intrinsic : UInt64

section Phases
variable (P : Platform) (M : Machines)

/-- The value that execution moves: the low 128 bits. -/
def Transaction.valueU128 (tx : Transaction) : ℕ := tx.value.toNat % 2 ^ 128

/-- The checks of the sender, its debit by the highest cost, and its next nonce. -/
def debitSender (tx : SignedTransaction) (header : BlockHeader) : TxProgram Charge := do
  let effectivePrice := tx.effectiveGasPrice header.baseFeePerGas
  let gasLimit := tx.tx.gasLimit
  let sender ← getAccount tx.sender
  if tx.tx.nonce ≠ sender.nonce then throw (.invalidNonce sender.nonce tx.tx.nonce)
  let maxCost := tx.tx.maxFeePerGas.toNat * gasLimit.toNat
  let value := tx.tx.valueU128
  let totalCost := saturatingAdd128 maxCost value
  let balance := sender.balanceU128
  if balance < totalCost then throw (.insufficientBalance balance totalCost)
  let intrinsic := tx.tx.intrinsicGas
  if gasLimit < intrinsic then throw (.intrinsicGasTooLow intrinsic gasLimit)
  let sender := sender.setBalanceU128 (balance - (maxCost + value) % 2 ^ 128)
  match sender.incrementNonce with
  | none => throw (.state "arithmetic overflow")
  | some sender =>
    setAccount tx.sender sender
    pure ⟨effectivePrice,maxCost,value,intrinsic⟩

structure Target where
  contractAddress : Option Address
  callee : Address
  codeToRun : List UInt8
  isPureValueTransfer : Bool
  vm : VmKind

def createAddress (tx : SignedTransaction) : Address :=
  (P.keccak256 (tx.sender.asBytes ++ beBytes64 tx.tx.nonce)).setWidth 160

def resolveTarget (tx : SignedTransaction) : StateProgram Target :=
  match tx.tx.recipient with
  | none => do
    let newAddr := createAddress P tx
    let isZvm := decide (tx.tx.data.head? = some zvmDeployDiscriminator)
    let vm := if isZvm then .zvm else .evm
    let code := if isZvm then tx.tx.data.tail else tx.tx.data
    if code ≠ [] then
      let codeHash := P.keccak256 code
      seedCode codeHash code
      let newAcct ← getAccount newAddr
      setAccount newAddr { newAcct with
        codeHash := codeHash
        vm := if vm = .zvm then .zvm else newAcct.vm }
    pure ⟨some newAddr,newAddr,code,false,vm⟩
  | some dest => do
    let toAcct ← getAccount dest
    if toAcct.isContract then
      let code ← getCode dest
      pure ⟨none,dest,code,false,toAcct.vm⟩
    else pure ⟨none,dest,[],true,.evm⟩

/-- `data` is the call data of a call, and the code of a creation. -/
def Transaction.calldata (tx : Transaction) : List UInt8 :=
  if tx.recipient.isSome then tx.data else []

def zvmContext (tx : SignedTransaction) (header : BlockHeader) (intrinsic : UInt64) (t : Target) :
    ZvmContext :=
  { bytecode := t.codeToRun
    calldata := tx.tx.calldata
    caller := tx.sender
    contract := t.callee
    value := tx.tx.valueU128
    gasLimit := saturatingSub64 tx.tx.gasLimit intrinsic
    blockNumber := header.number
    blockTimestamp := header.timestamp
    baseFee := header.baseFeePerGas.toNat
    blobBaseFee := 1
    chainId := tx.tx.chainId
    isStatic := false
    aaSender := none
    zbxPriceUsd := 0
    origin := tx.sender }

def evmContext (tx : SignedTransaction) (header : BlockHeader) (intrinsic : UInt64) (t : Target) :
    EvmContext :=
  { caller := tx.sender
    callee := t.callee
    value := tx.tx.value
    calldata := tx.tx.calldata
    gasLimit := saturatingSub64 tx.tx.gasLimit intrinsic
    isStatic := false
    blockNumber := header.number
    timestamp := header.timestamp
    coinbase := header.coinbase
    baseFee := header.baseFeePerGas
    gasPrice := tx.effectiveGasPrice header.baseFeePerGas
    txOrigin := tx.sender
    chainId := tx.tx.chainId
    randaoMix := header.mixHash }

/-- The accounts that destroyed themselves and were created by the same transaction. -/
def deleteCreated (created : AddressSet) : List (Address × Address) → StateProgram Unit
  | [] => pure ()
  | (contract,_) :: rest => do
    if contract ∈ created then selfdestruct contract
    deleteCreated created rest

def runZvm (tx : SignedTransaction) (header : BlockHeader) (intrinsic : UInt64) (t : Target) :
    StateProgram (ExitStatus × UInt64 × List Log) := do
  let preLogLen ← logCount
  let host := ProductionZvmHost.new (.fromHeader header)
  let host := { host with createdThisTx := t.contractAddress.toList }
  let (result,host) ←
    (M.runZvm (zvmContext tx header intrinsic t)).interpret (ProductionZvmHost.answer P) host
  if result.1 = .success then deleteCreated host.createdThisTx host.pendingDestructs
  let drained ← drainLogs preLogLen
  pure (result.1.exit,result.2,drained)

def EvmLog.toLog (header : BlockHeader) (el : EvmLog) : Log :=
  { address := el.address
    topics := el.topics
    data := el.data
    blockNumber := header.number
    logIndex := 0
    transactionHash := 0
    transactionIndex := 0 }

def runCode (tx : SignedTransaction) (header : BlockHeader) (intrinsic : UInt64) (t : Target) :
    StateProgram (ExitStatus × UInt64 × List Log) :=
  if tx.tx.recipient.isSome ∧ isPrecompile t.callee then
    let forwarded := saturatingSub64 tx.tx.gasLimit intrinsic
    match M.callPrecompile t.callee tx.tx.data forwarded with
    | some used => pure (.succeeded,used,[])
    | none => pure (.failed,forwarded,[])
  else if t.isPureValueTransfer ∨ t.codeToRun = [] then pure (.succeeded,0,[])
  else if t.vm = .zvm then runZvm P M tx header intrinsic t
  else
    let (status,used,logs) := M.runEvm (evmContext tx header intrinsic t) t.codeToRun
    pure (status,used,logs.map (EvmLog.toLog header))

/-- More on an account's balance. -/
def credit (addr : Address) (wei : ℕ) : StateProgram Unit := do
  let acct ← getAccount addr
  setAccount addr (acct.setBalanceU128 (saturatingAdd128 acct.balanceU128 wei))

/-- The gas a transaction is charged for, and what of the highest cost is given back. -/
def Charge.gasUsed (c : Charge) (tx : SignedTransaction) (dispatchGas : UInt64) : UInt64 :=
  min (saturatingAdd64 c.intrinsic dispatchGas) tx.tx.gasLimit

def Charge.gasRefund (c : Charge) (gasUsed : UInt64) : ℕ :=
  c.maxCost - gasUsed.toNat * c.effectivePrice.toNat

/-- The value goes to the recipient or the new contract, or back to the sender. -/
def settleValue (tx : SignedTransaction) (value : ℕ) (t : Target) (success : Bool) :
    StateProgram Unit :=
  if success then
    match tx.tx.recipient,t.contractAddress with
    | some dest,_ => credit dest value
    | none,some newAddr => do
      let deleted ← isDeleted newAddr
      if deleted then pure ()
      else
        let newAcct ← getAccount newAddr
        let newAcct := if 0 < value then
          newAcct.setBalanceU128 (saturatingAdd128 newAcct.balanceU128 value) else newAcct
        setAccount newAddr { newAcct with vm := if t.vm = .zvm then .zvm else newAcct.vm }
    | none,none => pure ()
  else credit tx.sender value

def executeTx (tx : SignedTransaction) (header : BlockHeader) : TxProgram TxResult := do
  let charge ← debitSender tx header
  let target ← resolveTarget P tx
  let (exitStatus,evmGasUsed,logs) ← runCode P M tx header charge.intrinsic target
  let gasUsed := charge.gasUsed tx evmGasUsed
  let success := decide (exitStatus = .succeeded)
  credit tx.sender (charge.gasRefund gasUsed)
  settleValue tx charge.value target success
  pure ⟨gasUsed,charge.effectivePrice,success,logs,target.contractAddress⟩

end Phases

section Blocks
variable {V K : Type} (P : Platform) (M : Machines) (S : StakingPrecompile V K)

/-- `execute_staking_tx` without a slashing pipeline. -/
def executeStakingTx (tx : SignedTransaction) (header : BlockHeader) (vs : V) :
    TxProgram (V × TxResult) := do
  let charge ← debitSender tx header
  let (vs,dispatched) ← (match S.decode tx.tx.data with
    | none => pure (vs,none)
    | some call =>
      if S.isFileAppeal call then pure (vs,none)
      else S.dispatch call tx.sender charge.value header.number vs : StateProgram (V × Option UInt64))
  let gasUsed := charge.gasUsed tx (dispatched.getD 0)
  credit tx.sender (charge.gasRefund gasUsed)
  if dispatched.isSome then
    if 0 < charge.value then credit stakingPrecompileAddr charge.value
  else credit tx.sender charge.value
  pure (vs,⟨gasUsed,charge.effectivePrice,dispatched.isSome,[],none⟩)

def executeAny (tx : SignedTransaction) (header : BlockHeader) (vs : Option V) :
    TxProgram (Option V × TxResult) :=
  match vs with
  | some state =>
    if isStakingDestination tx.tx.recipient then do
      let (state,result) ← executeStakingTx S tx header state
      pure (some state,result)
    else do
      let result ← executeTx P M tx header
      pure (some state,result)
  | none => do
    let result ← executeTx P M tx header
    pure (none,result)

structure TransactionReceipt where
  success : Bool
  cumulativeGasUsed : UInt64
  logsBloom : BitVec 2048
  logs : List Log
  transactionHash : H256
  transactionIndex : UInt32
  blockHash : H256
  blockNumber : UInt64
  sender : Address
  recipient : Option Address
  contractAddress : Option Address
  gasUsed : UInt64
  effectiveGasPrice : UInt64
  deriving DecidableEq

structure Commitments where
  receiptBloom : List Log → BitVec 2048
  blockBloom : List TransactionReceipt → BitVec 2048
  txRoot : List SignedTransaction → H256
  receiptsRoot : List TransactionReceipt → H256

variable (C : Commitments)

def validatorFee (header : BlockHeader) (result : TxResult) : ℕ :=
  (saturatingSub64 result.effectivePrice header.baseFeePerGas).toNat * result.gasUsed.toNat

def receiptOf (block : Block) (idx : ℕ) (tx : SignedTransaction) (cumulativeGas : UInt64)
    (result : TxResult) : TransactionReceipt :=
  { success := result.success
    cumulativeGasUsed := cumulativeGas
    logsBloom := C.receiptBloom result.logs
    logs := result.logs
    transactionHash := tx.hash
    transactionIndex := UInt32.ofNat idx
    blockHash := block.hash P
    blockNumber := block.number
    sender := tx.sender
    recipient := tx.tx.recipient
    contractAddress := result.contractAddress
    gasUsed := result.gasUsed
    effectiveGasPrice := result.effectivePrice }

structure Progress (V : Type) where
  validators : Option V
  cumulativeGas : UInt64
  receipts : List TransactionReceipt

/-- One turn of the loop: the transaction, then the fee of the coinbase. -/
def executeOne (block : Block) (progress : Progress V) (tx : SignedTransaction) :
    TxProgram (Progress V) := do
  let (validators,result) ← executeAny P M S tx block.header progress.validators
  let cumulativeGas := progress.cumulativeGas + result.gasUsed
  credit block.header.coinbase (validatorFee block.header result)
  let receipt := receiptOf P C block progress.receipts.length tx cumulativeGas result
  pure ⟨validators,cumulativeGas,progress.receipts ++ [receipt]⟩

def executeAll (block : Block) : Progress V → List SignedTransaction → TxProgram (Progress V)
  | progress, [] => pure progress
  | progress, tx :: rest => do
    let progress ← executeOne P M S C block progress tx
    executeAll block progress rest

/-- The whole block on the view: the transactions, then the block reward. -/
def runBlock (block : Block) (vs : Option V) : TxProgram (Progress V) := do
  if BLOCK_GAS_LIMIT < block.header.gasLimit then
    throw (.validation s!"gas_limit {block.header.gasLimit} > protocol max {BLOCK_GAS_LIMIT}")
  let progress ← executeAll P M S C block ⟨vs,0,[]⟩ block.body.transactions
  let reward := blockRewardAt block.number
  if 0 < reward then credit block.header.coinbase reward
  pure progress

end Blocks

end ZbxChain
