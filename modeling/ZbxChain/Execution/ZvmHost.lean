import ZbxChain.Execution.ExecView
import ZbxChain.Types.Block

/-! # `zbx_state::host_zvm`: what a ZVM program reaches of the chain state

The interpreter sees the state through its host only, so a run of it is a program of host
calls. The production host answers each of them by calls on the view.
-/
namespace ZbxChain
open StateProgram

structure ZvmBlockEnv where
  coinbase : Address
  blockGasLimit : UInt64
  prevrandao : H256
  gasPrice : ℕ
  blobHashes : List H256
  deriving DecidableEq

def ZvmBlockEnv.fromHeader (header : BlockHeader) : ZvmBlockEnv :=
  { coinbase := header.coinbase
    blockGasLimit := header.gasLimit
    prevrandao := header.mixHash
    gasPrice := header.baseFeePerGas.toNat
    blobHashes := [] }

/-- The methods of `ZvmHost`; amounts are `u128` values. -/
inductive ZvmCall where
  | balance (addr : Address)
  | storageLoad (addr : Address) (key : H256)
  | storageStore (addr : Address) (key value : H256)
  | code (addr : Address)
  | codeHash (addr : Address)
  | codeSize (addr : Address)
  | blockHash (block : UInt64)
  | transfer (source dest : Address) (amount : ℕ)
  | nonce (addr : Address)
  | incNonce (addr : Address)
  | setCode (addr : Address) (code : List UInt8)
  | isEmpty (addr : Address)
  | resolvePayId (payId : List UInt8)
  | resolvePayIdBytes (name : List UInt8)
  | reversePayId (addr : Address)
  | zusdBalance (addr : Address)
  | zbxPriceUsd
  | blobBaseFee
  | hasPayId (addr : Address)
  | burnZbx (addr : Address) (amount : ℕ)
  | emitZvmLog (key value : List UInt8)
  | transientLoad (addr : Address) (key : H256)
  | transientStore (addr : Address) (key value : H256)
  | coinbase
  | blockGasLimit
  | prevrandao
  | gasPrice
  | blobHash (i : UInt64)
  | isCallAllowed (target : Address)
  | markCreatedThisTx (addr : Address)
  | wasCreatedThisTx (addr : Address)
  | selfdestruct (contract beneficiary : Address)
  | emitLog (addr : Address) (topics : List H256) (data : List UInt8)

namespace ZvmCall

/-- A `Result<(), ZvmError>` is a `Bool`: the only error is `InsufficientBalance`. -/
@[reducible] def Reply : ZvmCall → Type
  | balance _ => ℕ
  | storageLoad _ _ => H256
  | storageStore _ _ _ => Unit
  | code _ => List UInt8
  | codeHash _ => H256
  | codeSize _ => ℕ
  | blockHash _ => H256
  | transfer _ _ _ => Bool
  | nonce _ => UInt64
  | incNonce _ => UInt64
  | setCode _ _ => Unit
  | isEmpty _ => Bool
  | resolvePayId _ => Option Address
  | resolvePayIdBytes _ => Option Address
  | reversePayId _ => Option (List UInt8)
  | zusdBalance _ => ℕ
  | zbxPriceUsd => ℕ
  | blobBaseFee => ℕ
  | hasPayId _ => Bool
  | burnZbx _ _ => Bool
  | emitZvmLog _ _ => Unit
  | transientLoad _ _ => H256
  | transientStore _ _ _ => Unit
  | coinbase => Address
  | blockGasLimit => UInt64
  | prevrandao => H256
  | gasPrice => ℕ
  | blobHash _ => H256
  | isCallAllowed _ => Bool
  | markCreatedThisTx _ => Unit
  | wasCreatedThisTx _ => Bool
  | selfdestruct _ _ => Unit
  | emitLog _ _ _ => Unit

end ZvmCall

section PayId

def payidRegistrarAddr : Address := 0xC0

/-- `keccak256("payid/" || name)`. -/
def payidForwardSlot (P : Platform) (name : List UInt8) : H256 :=
  P.keccak256 ([112,97,121,105,100,47] ++ name)

/-- `keccak256("payid_rev/" || addr)`. -/
def payidReverseSlot (P : Platform) (addr : Address) : H256 :=
  P.keccak256 ([112,97,121,105,100,95,114,101,118,47] ++ addr.asBytes)

/-- Three to 32 bytes of `[a-z0-9._-]`. -/
def validatePayidName (name : List UInt8) : Bool :=
  decide (3 ≤ name.length ∧ name.length ≤ 32) &&
    name.all (fun c => decide (97 ≤ c ∧ c ≤ 122 ∨ 48 ≤ c ∧ c ≤ 57 ∨ c = 46 ∨ c = 95 ∨ c = 45))

def toAsciiLowercase (bytes : List UInt8) : List UInt8 :=
  bytes.map (fun b => if 65 ≤ b ∧ b ≤ 90 then b + 32 else b)

/-- The bytes before any number of `@zbx`, all in reverse. -/
def dropSuffixes : List UInt8 → List UInt8
  | 120 :: 98 :: 122 :: 64 :: rest => dropSuffixes rest
  | bytes => bytes

/-- `trim_end_matches("@zbx")`. -/
def trimEndMatches (bytes : List UInt8) : List UInt8 := (dropSuffixes bytes.reverse).reverse

end PayId

structure ProductionZvmHost where
  env : ZvmBlockEnv
  transient : Table (Address × H256) H256
  callerVm : VmKind
  createdThisTx : AddressSet
  pendingDestructs : List (Address × Address)

namespace ProductionZvmHost

def new (env : ZvmBlockEnv) : ProductionZvmHost := ⟨env,∅,.zvm,[],[]⟩

def balance (addr : Address) : StateProgram ℕ := do
  let acct ← getAccount addr
  pure acct.balanceU128

def transfer (source dest : Address) (amount : ℕ) : StateProgram Bool := do
  let fromAcct ← getAccount source
  let fromBal := fromAcct.balanceU128
  if fromBal < amount then pure false
  else
    setAccount source (fromAcct.setBalanceU128 (fromBal - amount))
    let toAcct ← getAccount dest
    setAccount dest (toAcct.setBalanceU128 (saturatingAdd128 toAcct.balanceU128 amount))
    pure true

def isEmpty (addr : Address) : StateProgram Bool := do
  let bal ← balance addr
  if bal ≠ 0 then pure false
  else
    let code ← getCode addr
    if code.length ≠ 0 then pure false
    else
      let acct ← getAccount addr
      pure (decide (acct.nonce = 0))

def incNonce (addr : Address) : StateProgram UInt64 := do
  let acct ← getAccount addr
  let acct := { acct with nonce := saturatingAdd64 acct.nonce 1 }
  setAccount addr acct
  pure acct.nonce

def setCode (P : Platform) (addr : Address) (code : List UInt8) : StateProgram Unit := do
  let codeHash := P.keccak256 code
  seedCode codeHash code
  let acct ← getAccount addr
  setAccount addr { acct with codeHash := codeHash, vm := .zvm }

def resolvePayIdBytes (P : Platform) (name : List UInt8) : StateProgram (Option Address) :=
  if !validatePayidName name then pure none
  else do
    let word ← getStorage payidRegistrarAddr (payidForwardSlot P name)
    pure (if word = 0 then none else some (word.setWidth 160))

def reversePayId (P : Platform) (addr : Address) : StateProgram (Option (List UInt8)) := do
  let word ← getStorage payidRegistrarAddr (payidReverseSlot P addr)
  pure (if word = 0 then none else some (word.asBytes.takeWhile (· ≠ 0)))

def burnZbx (addr : Address) (amount : ℕ) : StateProgram Bool := do
  let acct ← getAccount addr
  let bal := acct.balanceU128
  if bal < amount then pure false
  else
    setAccount addr (acct.setBalanceU128 (bal - amount))
    pure true

def isCallAllowed (callerVm : VmKind) (target : Address) : StateProgram Bool := do
  let acct ← getAccount target
  pure (if !acct.isContract then true else decide (acct.vm = callerVm))

def sweep (contract beneficiary : Address) : StateProgram Unit := do
  let bal ← balance contract
  if 0 < bal then
    let _ ← transfer contract beneficiary bal
    pure ()
  else pure ()

def hostLog (addr : Address) (topics : List H256) (data : List UInt8) : Log :=
  { address := addr
    topics := topics
    data := data
    blockNumber := 0
    logIndex := 0
    transactionHash := 0
    transactionIndex := 0 }

def reading {α : Type} (host : ProductionZvmHost) (p : StateProgram α) :
    StateProgram (α × ProductionZvmHost) := do
  let reply ← p
  pure (reply,host)

def answer (P : Platform) : (c : ZvmCall) → ProductionZvmHost →
    StateProgram (c.Reply × ProductionZvmHost)
  | .balance addr, host => host.reading (balance addr)
  | .storageLoad addr key, host => host.reading (getStorage addr key)
  | .storageStore addr key value, host => host.reading (setStorage addr key value)
  | .code addr, host => host.reading (getCode addr)
  | .codeHash addr, host => host.reading (do
    let acct ← getAccount addr
    pure acct.codeHash)
  | .codeSize addr, host => host.reading (do
    let code ← getCode addr
    pure code.length)
  | .blockHash _, host => host.reading (pure 0)
  | .transfer source dest amount, host => host.reading (transfer source dest amount)
  | .nonce addr, host => host.reading (do
    let acct ← getAccount addr
    pure acct.nonce)
  | .incNonce addr, host => host.reading (incNonce addr)
  | .setCode addr code, host => host.reading (setCode P addr code)
  | .isEmpty addr, host => host.reading (isEmpty addr)
  | .resolvePayId payId, host =>
    host.reading (resolvePayIdBytes P (trimEndMatches (toAsciiLowercase payId)))
  | .resolvePayIdBytes name, host => host.reading (resolvePayIdBytes P name)
  | .reversePayId addr, host => host.reading (reversePayId P addr)
  | .zusdBalance _, host => host.reading (pure 0)
  | .zbxPriceUsd, host => host.reading (pure 0)
  | .blobBaseFee, host => host.reading (pure 1)
  | .hasPayId _, host => host.reading (pure false)
  | .burnZbx addr amount, host => host.reading (burnZbx addr amount)
  | .emitZvmLog _ _, host => host.reading (pure ())
  | .transientLoad addr key, host => host.reading (pure ((host.transient.lookup (addr,key)).getD 0))
  | .transientStore addr key value, host =>
    pure ((),{ host with transient := host.transient.insert (addr,key) value })
  | .coinbase, host => host.reading (pure host.env.coinbase)
  | .blockGasLimit, host => host.reading (pure host.env.blockGasLimit)
  | .prevrandao, host => host.reading (pure host.env.prevrandao)
  | .gasPrice, host => host.reading (pure host.env.gasPrice)
  | .blobHash i, host => host.reading (pure (host.env.blobHashes[i.toNat]?.getD 0))
  | .isCallAllowed target, host => host.reading (isCallAllowed host.callerVm target)
  | .markCreatedThisTx addr, host =>
    pure ((),{ host with createdThisTx := host.createdThisTx.insert addr })
  | .wasCreatedThisTx addr, host => host.reading (pure (decide (addr ∈ host.createdThisTx)))
  | .selfdestruct contract beneficiary, host => do
    sweep contract beneficiary
    pure ((),{ host with
      pendingDestructs := host.pendingDestructs ++ [(contract,beneficiary)] })
  | .emitLog addr topics data, host => host.reading (emitLog (hostLog addr topics data))

end ProductionZvmHost

end ZbxChain
