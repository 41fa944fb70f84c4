import ZbxChain.Evm.Word
import ZbxChain.Zvm.Frame

/-! # `zbx_evm`: the opcodes and their gas, the host, and the state of a frame

Offsets and sizes are `usize` values of 64 bits. A panic ends the process, so it is told apart
from the errors that end a frame.
-/
namespace ZbxChain.Evm

/-- `PUSH n`, `DUP n` and `SWAP n` are `PUSH1` to `PUSH32` and so on, counted from zero. -/
inductive Opcode where
  | STOP | ADD | MUL | SUB | DIV | SDIV | MOD | SMOD | ADDMOD | MULMOD | EXP | SIGNEXTEND
  | LT | GT | SLT | SGT | EQ | ISZERO | AND | OR | XOR | NOT | BYTE | SHL | SHR | SAR
  | SHA3
  | ADDRESS | BALANCE | ORIGIN | CALLER | CALLVALUE | CALLDATALOAD | CALLDATASIZE | CALLDATACOPY
  | CODESIZE | CODECOPY | GASPRICE | EXTCODESIZE | EXTCODECOPY | RETURNDATASIZE
  | RETURNDATACOPY | EXTCODEHASH
  | BLOCKHASH | COINBASE | TIMESTAMP | NUMBER | PREVRANDAO | GASLIMIT | CHAINID | SELFBALANCE
  | BASEFEE
  | POP | MLOAD | MSTORE | MSTORE8 | SLOAD | SSTORE | JUMP | JUMPI | PC | MSIZE | GAS | JUMPDEST
  | PUSH0
  | PUSH (n : Fin 32) | DUP (n : Fin 16) | SWAP (n : Fin 16) | LOG (n : Fin 5)
  | CREATE | CALL | CALLCODE | RETURN | DELEGATECALL | CREATE2 | STATICCALL | REVERT | INVALID
  | SELFDESTRUCT
  deriving DecidableEq

namespace Opcode

/-- The bytes of the opcodes without a number of their own. -/
def bytes : List (ℕ × Opcode) :=
  [(0x00,STOP),(0x01,ADD),(0x02,MUL),(0x03,SUB),(0x04,DIV),(0x05,SDIV),(0x06,MOD),(0x07,SMOD),
   (0x08,ADDMOD),(0x09,MULMOD),(0x0A,EXP),(0x0B,SIGNEXTEND),
   (0x10,LT),(0x11,GT),(0x12,SLT),(0x13,SGT),(0x14,EQ),(0x15,ISZERO),(0x16,AND),(0x17,OR),
   (0x18,XOR),(0x19,NOT),(0x1A,BYTE),(0x1B,SHL),(0x1C,SHR),(0x1D,SAR),
   (0x20,SHA3),
   (0x30,ADDRESS),(0x31,BALANCE),(0x32,ORIGIN),(0x33,CALLER),(0x34,CALLVALUE),
   (0x35,CALLDATALOAD),(0x36,CALLDATASIZE),(0x37,CALLDATACOPY),(0x38,CODESIZE),(0x39,CODECOPY),
   (0x3A,GASPRICE),(0x3B,EXTCODESIZE),(0x3C,EXTCODECOPY),(0x3D,RETURNDATASIZE),
   (0x3E,RETURNDATACOPY),(0x3F,EXTCODEHASH),
   (0x40,BLOCKHASH),(0x41,COINBASE),(0x42,TIMESTAMP),(0x43,NUMBER),(0x44,PREVRANDAO),
   (0x45,GASLIMIT),(0x46,CHAINID),(0x47,SELFBALANCE),(0x48,BASEFEE),
   (0x50,POP),(0x51,MLOAD),(0x52,MSTORE),(0x53,MSTORE8),(0x54,SLOAD),(0x55,SSTORE),(0x56,JUMP),
   (0x57,JUMPI),(0x58,PC),(0x59,MSIZE),(0x5A,GAS),(0x5B,JUMPDEST),(0x5F,PUSH0),
   (0xF0,CREATE),(0xF1,CALL),(0xF2,CALLCODE),(0xF3,RETURN),(0xF4,DELEGATECALL),(0xF5,CREATE2),
   (0xFA,STATICCALL),(0xFD,REVERT),(0xFE,INVALID),(0xFF,SELFDESTRUCT)]

local instance : NeZero 32 := ⟨by decide⟩
local instance : NeZero 16 := ⟨by decide⟩
local instance : NeZero 5 := ⟨by decide⟩

def fromU8 (byte : UInt8) : Option Opcode :=
  let b := byte.toNat
  if 0x60 ≤ b ∧ b ≤ 0x7F then some (PUSH (Fin.ofNat 32 (b - 0x60)))
  else if 0x80 ≤ b ∧ b ≤ 0x8F then some (DUP (Fin.ofNat 16 (b - 0x80)))
  else if 0x90 ≤ b ∧ b ≤ 0x9F then some (SWAP (Fin.ofNat 16 (b - 0x90)))
  else if 0xA0 ≤ b ∧ b ≤ 0xA4 then some (LOG (Fin.ofNat 5 (b - 0xA0)))
  else bytes.lookup b

def staticGas : Opcode → UInt64
  | STOP | RETURN | REVERT => 0
  | SHA3 | LOG _ => 0
  | ADD | SUB | NOT | LT | GT | SLT | SGT | EQ | ISZERO | AND | OR | XOR | BYTE | SHL | SHR | SAR
  | CALLDATALOAD | CALLDATASIZE | CODESIZE | RETURNDATASIZE | ADDRESS | CALLER | CALLVALUE
  | GASPRICE | COINBASE | TIMESTAMP | NUMBER | PREVRANDAO | GASLIMIT | CHAINID | BASEFEE
  | MLOAD | MSTORE | MSTORE8 | POP | PC | MSIZE | GAS | PUSH0 => 3
  | MUL | DIV | SDIV | MOD | SMOD | SIGNEXTEND => 5
  | ADDMOD | MULMOD | JUMP => 8
  | EXP => 0
  | JUMPI | BLOCKHASH => 10
  | JUMPDEST => 1
  | BALANCE | SELFBALANCE => 100
  | ORIGIN | EXTCODESIZE | EXTCODEHASH => 100
  | SLOAD => 100
  | SSTORE => 0
  | EXTCODECOPY => 100
  | CODECOPY | CALLDATACOPY | RETURNDATACOPY => 3
  | CREATE | CREATE2 => 32000
  | CALL | CALLCODE | DELEGATECALL | STATICCALL => 100
  | SELFDESTRUCT | INVALID => 0
  | PUSH _ | DUP _ | SWAP _ => 3

end Opcode

section Gas

def gasSha3 : UInt64 := 30
def gasSha3Word : UInt64 := 6
def gasCopyWord : UInt64 := 3
def gasLogBase : UInt64 := 375
def gasLogData : UInt64 := 8
def gasLogTopic : UInt64 := 375
def gasSloadWarm : UInt64 := 100
def gasSloadCold : UInt64 := 2100
def gasSstoreSet : UInt64 := 20000
def gasSstoreReset : UInt64 := 2900
def gasSstoreDirty : UInt64 := 200
def gasColdAccountAccess : UInt64 := 2500
def gasCallValueTransfer : UInt64 := 9000
def gasNewAccount : UInt64 := 25000
def gasCallStipend : UInt64 := 2300
def gasInitcodeWord : UInt64 := 2
def gasCodeDepositPerByte : UInt64 := 200
def gasSelfdestruct : UInt64 := 5000

def callDepthLimit : ℕ := 1024

def maxInitcodeSize : ℕ := 49152

def maxContractCodeSize : ℕ := 24576

/-- The words of a size; the sum wraps. -/
def wordsOf (size : UInt64) : UInt64 := (size + 31) / 32

/-- The costs are taken in `u128`, where two 64-bit word counts cannot overflow. -/
def memoryExpansionCost (oldWords newWords : ℕ) : UInt64 :=
  let cost (n : ℕ) := 3 * n + n * n / 512
  UInt64.ofNat (min (cost newWords - cost oldWords) (2 ^ 64 - 1))

def copyCost (size : UInt64) : UInt64 := gasCopyWord * wordsOf size

def sha3Cost (size : UInt64) : UInt64 := gasSha3 + gasSha3Word * wordsOf size

def logCost (size : UInt64) (topics : ℕ) : UInt64 := gasLogBase + gasLogData * size + gasLogTopic * UInt64.ofNat topics

/-- `forward_gas_eip150`. -/
def forwardGas (gasRemaining requested : UInt64) : UInt64 :=
  min requested (saturatingSub64 gasRemaining (gasRemaining / 64))

end Gas

inductive EvmError where
  | outOfGas
  | stackUnderflow
  | stackOverflow
  | invalidOpcode (byte : UInt8)
  | invalidJump (dest : UInt64)
  | memoryOutOfBounds (offset size : UInt64)
  | staticStateChange
  | insufficientBalance
  | nonceOverflow
  | initcodeOversize (len : UInt64)
  deriving DecidableEq

abbrev SnapshotId := ℕ

/-- The calls that the interpreter makes on its `Host`. -/
inductive EvmCall where
  | balance (addr : Address)
  | nonce (addr : Address)
  | code (addr : Address)
  | codeHash (addr : Address)
  | storageLoad (addr : Address) (key : Word)
  | storageStore (addr : Address) (key value : Word)
  | setCode (addr : Address) (code : List UInt8)
  | incNonce (addr : Address)
  | transfer (source dest : Address) (value : Word)
  | isEmpty (addr : Address)
  | destruct (addr beneficiary : Address)
  | markCreatedThisTx (addr : Address)
  | snapshot
  | revertTo (id : SnapshotId)
  | commit (id : SnapshotId)
  | blockHash (blockNumber : UInt64)
  | resolvePayIdBytes (name : List UInt8)
  | reversePayId (addr : Address)

@[reducible] def EvmCall.Reply : EvmCall → Type
  | balance _ => Word
  | nonce _ => UInt64
  | code _ => List UInt8
  | codeHash _ => Word
  | storageLoad _ _ => Word
  | storageStore _ _ _ | setCode _ _ | destruct _ _ | markCreatedThisTx _ => Unit
  | incNonce _ => Except EvmError UInt64
  | transfer _ _ _ => Except EvmError Unit
  | isEmpty _ => Bool
  | snapshot => SnapshotId
  | revertTo _ | commit _ => Unit
  | blockHash _ => Word
  | resolvePayIdBytes _ => Option Address
  | reversePayId _ => Option (List UInt8)

/-- A host with states `σ`. -/
abbrev Host (σ : Type) := Program.Handler EvmCall.Reply σ

inductive EvmFault where
  | error (e : EvmError)
  | panicked
  deriving DecidableEq

section Stack

def maxStack : ℕ := 1024

/-- The top of the stack comes first. -/
structure Stack where
  data : List Word
  bounded : data.length ≤ maxStack

namespace Stack

def new : Stack := ⟨[],Nat.zero_le _⟩

def push (s : Stack) (val : Word) : Except EvmError Stack :=
  if h : s.data.length < maxStack then .ok ⟨val :: s.data,h⟩ else .error .stackOverflow

def pop : Stack → Except EvmError (Word × Stack)
  | ⟨[],_⟩ => .error .stackUnderflow
  | ⟨val :: rest,h⟩ => .ok (val,⟨rest,(Nat.le_succ _).trans h⟩)

def peek (s : Stack) (depth : ℕ) : Except EvmError Word :=
  match s.data[depth]? with
  | none => .error .stackUnderflow
  | some val => .ok val

/-- The top and the word `depth` below it change places. -/
def swap (s : Stack) (depth : ℕ) : Except EvmError Stack :=
  match s.data[0]?,s.data[depth]? with
  | some top,some val => .ok ⟨(s.data.set 0 val).set depth top,by simpa using s.bounded⟩
  | _,_ => .error .stackUnderflow

/-- The word number `depth` from the top, which is number 1, is pushed. -/
def dup (s : Stack) (depth : ℕ) : Except EvmError Stack := do
  let val ← s.peek (depth - 1)
  s.push val

end Stack

end Stack

section Memory
open Zvm (slice overwrite maxVecLen)

/-- `MAX_MEMORY`: 32 MiB. -/
def maxMemory : ℕ := 32 * 1024 * 1024

structure Memory where
  data : List UInt8

namespace Memory

def new : Memory := ⟨[]⟩

def ensure (m : Memory) (offset size : UInt64) : Except EvmError (UInt64 × Memory) :=
  if size = 0 then .ok (0,m)
  else
    let stop := offset.toNat + size.toNat
    if 2 ^ 64 ≤ stop ∨ maxMemory < stop then .error (.memoryOutOfBounds offset size)
    else
      let oldWords := (m.data.length + 31) / 32
      let newWords := (stop + 31) / 32
      if oldWords < newWords then
        .ok (memoryExpansionCost oldWords newWords,
          ⟨m.data ++ List.replicate (newWords * 32 - m.data.length) 0⟩)
      else .ok (0,m)

/-- A vector that is filled up with zeros; none is longer than `isize::MAX`. -/
def resized (out : List UInt8) (size : UInt64) : Option (List UInt8) :=
  if maxVecLen < size.toNat then none else some (out ++ List.replicate (size.toNat - out.length) 0)

def read (m : Memory) (offset size : UInt64) : Option (List UInt8) :=
  if m.data.length ≤ offset.toNat then resized [] size
  else do
    let out ← slice m.data offset (min (offset + size) (UInt64.ofNat m.data.length))
    resized out size

def write (m : Memory) (offset : UInt64) (data : List UInt8) : Option Memory :=
  if data = [] then some m
  else
    let stop := min (offset.toNat + data.length) (2 ^ 64 - 1)
    if maxMemory < stop then none
    else
      let grown := m.data ++ List.replicate (stop - m.data.length) 0
      if offset.toNat + data.length ≤ grown.length then some ⟨overwrite grown offset.toNat data⟩
      else none

end Memory

end Memory

inductive ExitStatus where
  | succeeded
  | reverted
  | failed (e : EvmError)
  deriving DecidableEq

structure EVMContext where
  caller : Address
  callee : Address
  value : Word
  calldata : List UInt8
  gasLimit : UInt64
  isStatic : Bool
  blockNumber : UInt64
  timestamp : UInt64
  coinbase : Address
  baseFee : UInt64
  gasPrice : UInt64
  txOrigin : Address
  chainId : UInt64
  randaoMix : Word

/-- `CHAIN_ID`. -/
def mainnetChainId : UInt64 := 8989

def EVMContext.effectiveChainId (ctx : EVMContext) : UInt64 :=
  if ctx.chainId = 0 then mainnetChainId else ctx.chainId

def maxReturnData : ℕ := 1024 * 1024

structure EvmLog where
  address : Address
  topics : List Word
  data : List UInt8
  deriving DecidableEq

structure CallFrame where
  snapshot : SnapshotId
  gasAtEntry : UInt64
  createdAddress : Option Address

/-- A frame; its jump destinations are read off the code. -/
structure EVMInterpreter where
  ctx : EVMContext
  code : List UInt8
  pc : ℕ
  stack : Stack
  memory : Memory
  gasRemaining : UInt64
  returnData : List UInt8
  frames : List CallFrame
  warmAddresses : AddressSet
  warmStorage : List (Address × Word)
  logs : List EvmLog

namespace EVMInterpreter

/-- The addresses that are warm from the start: the caller, the callee, the coinbase and nine
precompiles. -/
def preWarmed (ctx : EVMContext) : AddressSet :=
  [ctx.caller,ctx.callee,ctx.coinbase] ++ (List.range 9).map (fun i => BitVec.ofNat 160 (i + 1))

def new (ctx : EVMContext) (code : List UInt8) : EVMInterpreter :=
  { ctx := ctx
    code := code
    pc := 0
    stack := .new
    memory := .new
    gasRemaining := ctx.gasLimit
    returnData := []
    frames := []
    warmAddresses := preWarmed ctx
    warmStorage := []
    logs := [] }

def gasUsed (f : EVMInterpreter) : UInt64 := saturatingSub64 f.ctx.gasLimit f.gasRemaining

def isValidJumpdest (f : EVMInterpreter) (dest : UInt64) : Bool :=
  (Zvm.buildJumpdestBitmap 0 f.code)[dest.toNat]?.getD false

end EVMInterpreter

/-- What a frame does, with calls on the host. -/
abbrev EvmM (α : Type) := Framed EvmCall.Reply EVMInterpreter EvmFault α

namespace EvmM

def host (c : EvmCall) : EvmM c.Reply := Framed.call c

def fail {α : Type} (e : EvmError) : EvmM α := throw (.error e)

/-- A part of the source that panics where it is `none`. -/
def orPanic {α : Type} : Option α → EvmM α
  | none => throw .panicked
  | some a => pure a

def orFail {α : Type} : Except EvmError α → EvmM α
  | .error e => fail e
  | .ok a => pure a

def push (val : Word) : EvmM Unit := do
  let stack ← orFail ((← get).stack.push val)
  modify ({ · with stack := stack })

def pushU64 (v : UInt64) : EvmM Unit := push (u256FromU64 v)

def pushAddress (addr : Address) : EvmM Unit := push (addr.setWidth 256)

def pop : EvmM Word := do
  let (val,stack) ← orFail (← get).stack.pop
  modify ({ · with stack := stack })
  pure val

/-- `pop_u64_capped`. -/
def popU64 : EvmM UInt64 := do
  let word ← pop
  pure (u256ToU64 word)

/-- The low 160 bits. -/
def popAddress : EvmM Address := do
  let word ← pop
  pure (word.setWidth 160)

def consumeGas (amount : UInt64) : EvmM Unit := do
  if (← get).gasRemaining < amount then fail .outOfGas
  else modify (fun f => { f with gasRemaining := f.gasRemaining - amount })

def refundGas (amount : UInt64) : EvmM Unit :=
  modify (fun f => { f with gasRemaining := saturatingAdd64 f.gasRemaining amount })

/-- `memory.ensure`, whose price is paid behind it. -/
def expand (offset size : UInt64) : EvmM Unit := do
  let (expandGas,memory) ← orFail ((← get).memory.ensure offset size)
  modify ({ · with memory := memory })
  consumeGas expandGas

def readMemory (offset size : UInt64) : EvmM (List UInt8) := do
  orPanic ((← get).memory.read offset size)

def writeMemory (offset : UInt64) (data : List UInt8) : EvmM Unit := do
  let memory ← orPanic ((← get).memory.write offset data)
  modify ({ · with memory := memory })

/-- The price of an address that is cold, which is warm from then on. -/
def touchAddress (addr : Address) : EvmM Unit := do
  if addr ∈ (← get).warmAddresses then pure ()
  else
    consumeGas gasColdAccountAccess
    modify (fun f => { f with warmAddresses := f.warmAddresses.insert addr })

/-- The same for a slot of the frame's own account. -/
def touchSlot (key : Word) : EvmM Unit := do
  let slot := ((← get).ctx.callee,key)
  if slot ∈ (← get).warmStorage then pure ()
  else
    consumeGas (saturatingSub64 gasSloadCold gasSloadWarm)
    modify (fun f => { f with warmStorage := f.warmStorage.insert slot })

def setReturnData (data : List UInt8) : EvmM Unit := modify ({ · with returnData := data })

/-- `&data[start..start + n]`. -/
def sliceAt (data : List UInt8) (start n : ℕ) : EvmM (List UInt8) :=
  orPanic (if start + n ≤ data.length then some ((data.drop start).take n) else none)

def staticGuard : EvmM Unit := do
  if (← get).ctx.isStatic then fail .staticStateChange else pure ()

end EvmM

end ZbxChain.Evm
