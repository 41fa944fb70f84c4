import ZbxChain.Execution.Executor

/-! # `zbx_zvm`: the opcodes and their gas, and the state of a frame

Offsets and lengths are `usize` values of 64 bits, and their sums wrap. A panic ends the
process, so it is told apart from the errors that end a frame.
-/
namespace ZbxChain.Zvm

/-- `PUSH n`, `DUP n` and `SWAP n` are `PUSH1` to `PUSH32` and so on, counted from zero. -/
inductive Opcode where
  | STOP | ADD | MUL | SUB | DIV | SDIV | MOD | SMOD | ADDMOD | MULMOD | EXP | SIGNEXTEND
  | LT | GT | SLT | SGT | EQ | ISZERO | AND | OR | XOR | NOT | BYTE | SHL | SHR | SAR
  | KECCAK256
  | ADDRESS | BALANCE | ORIGIN | CALLER | CALLVALUE | CALLDATALOAD | CALLDATASIZE | CALLDATACOPY
  | CODESIZE | CODECOPY | GASPRICE | EXTCODESIZE | EXTCODECOPY | RETURNDATASIZE
  | RETURNDATACOPY | EXTCODEHASH
  | BLOCKHASH | COINBASE | TIMESTAMP | NUMBER | PREVRANDAO | GASLIMIT | CHAINID | SELFBALANCE
  | BASEFEE | BLOBHASH | BLOBBASEFEE
  | POP | MLOAD | MSTORE | MSTORE8 | SLOAD | SSTORE | JUMP | JUMPI | PC | MSIZE | GAS | JUMPDEST
  | TLOAD | TSTORE | MCOPY | PUSH0
  | PUSH (n : Fin 32) | DUP (n : Fin 16) | SWAP (n : Fin 16) | LOG (n : Fin 5)
  | CREATE | CALL | CALLCODE | RETURN | DELEGATECALL | CREATE2 | STATICCALL | REVERT | INVALID
  | SELFDESTRUCT
  | PAYID | ZUSDBAL | ZBXPRICE | ZBXTIME | AASENDER | CHAINVER | BLOBFEE | PAYIDSET | ZBXBURN | ZVMLOG
  deriving DecidableEq

namespace Opcode

def bytes : List (ℕ × Opcode) :=
  [(0x00,STOP),(0x01,ADD),(0x02,MUL),(0x03,SUB),(0x04,DIV),(0x05,SDIV),(0x06,MOD),(0x07,SMOD),
   (0x08,ADDMOD),(0x09,MULMOD),(0x0A,EXP),(0x0B,SIGNEXTEND),
   (0x10,LT),(0x11,GT),(0x12,SLT),(0x13,SGT),(0x14,EQ),(0x15,ISZERO),(0x16,AND),(0x17,OR),
   (0x18,XOR),(0x19,NOT),(0x1A,BYTE),(0x1B,SHL),(0x1C,SHR),(0x1D,SAR),
   (0x20,KECCAK256),
   (0x30,ADDRESS),(0x31,BALANCE),(0x32,ORIGIN),(0x33,CALLER),(0x34,CALLVALUE),
   (0x35,CALLDATALOAD),(0x36,CALLDATASIZE),(0x37,CALLDATACOPY),(0x38,CODESIZE),(0x39,CODECOPY),
   (0x3A,GASPRICE),(0x3B,EXTCODESIZE),(0x3C,EXTCODECOPY),(0x3D,RETURNDATASIZE),
   (0x3E,RETURNDATACOPY),(0x3F,EXTCODEHASH),
   (0x40,BLOCKHASH),(0x41,COINBASE),(0x42,TIMESTAMP),(0x43,NUMBER),(0x44,PREVRANDAO),
   (0x45,GASLIMIT),(0x46,CHAINID),(0x47,SELFBALANCE),(0x48,BASEFEE),(0x49,BLOBHASH),
   (0x4A,BLOBBASEFEE),
   (0x50,POP),(0x51,MLOAD),(0x52,MSTORE),(0x53,MSTORE8),(0x54,SLOAD),(0x55,SSTORE),(0x56,JUMP),
   (0x57,JUMPI),(0x58,PC),(0x59,MSIZE),(0x5A,GAS),(0x5B,JUMPDEST),(0x5C,TLOAD),(0x5D,TSTORE),
   (0x5E,MCOPY),(0x5F,PUSH0),
   (0xF0,CREATE),(0xF1,CALL),(0xF2,CALLCODE),(0xF3,RETURN),(0xF4,DELEGATECALL),(0xF5,CREATE2),
   (0xFA,STATICCALL),(0xFD,REVERT),(0xFE,INVALID),(0xFF,SELFDESTRUCT),
   (0xC0,PAYID),(0xC1,ZUSDBAL),(0xC2,ZBXPRICE),(0xC3,ZBXTIME),(0xC4,AASENDER),(0xC5,CHAINVER),
   (0xC6,BLOBFEE),(0xC7,PAYIDSET),(0xC8,ZBXBURN),(0xC9,ZVMLOG)]

local instance : NeZero 32 := ⟨by decide⟩
local instance : NeZero 16 := ⟨by decide⟩
local instance : NeZero 5 := ⟨by decide⟩

def fromU8 (byte : UInt8) : Option Opcode :=
  let b := byte.toNat
  if 0x60 ≤ b ∧ b ≤ 0x7F then some (PUSH (Fin.ofNat 32 (b - 0x60)))
  else if 0x80 ≤ b ∧ b ≤ 0x8F then some (DUP (Fin.ofNat 16 (b - 0x80)))
  else if 0x90 ≤ b ∧ b ≤ 0x9F then some (SWAP (Fin.ofNat 16 (b - 0x90)))
  else if 0xA0 ≤ b ∧ b ≤ 0xA4 then some (LOG (Fin.ofNat 5 (b - 0xA0)))
  else bytes.lookup b

def isZvmNative : Opcode → Bool
  | PAYID | ZUSDBAL | ZBXPRICE | ZBXTIME | AASENDER | CHAINVER | BLOBFEE | PAYIDSET | ZBXBURN
  | ZVMLOG => true
  | _ => false

def evmGasCost : Opcode → UInt64
  | STOP | RETURN | REVERT => 0
  | ADD | SUB | LT | GT | SLT | SGT | EQ | ISZERO | AND | OR | XOR | NOT | BYTE | SHL | SHR
  | SAR => 3
  | MUL | DIV | SDIV | MOD | SMOD | SIGNEXTEND => 5
  | ADDMOD | MULMOD => 8
  | EXP => 10
  | KECCAK256 => 30
  | ADDRESS | ORIGIN | CALLER | CALLVALUE | CALLDATASIZE | CODESIZE | GASPRICE | COINBASE
  | TIMESTAMP | NUMBER | PREVRANDAO | GASLIMIT | CHAINID | SELFBALANCE | BASEFEE
  | BLOBBASEFEE => 2
  | BALANCE | EXTCODESIZE | EXTCODEHASH => 100
  | BLOCKHASH => 20
  | CALLDATALOAD => 3
  | CALLDATACOPY | CODECOPY | RETURNDATACOPY => 3
  | EXTCODECOPY => 100
  | RETURNDATASIZE => 2
  | POP | PC | MSIZE | GAS => 2
  | MLOAD | MSTORE | MSTORE8 => 3
  | SLOAD => 100
  | SSTORE => 100
  | JUMP => 8
  | JUMPI => 10
  | JUMPDEST => 1
  | PUSH0 => 2
  | TLOAD | TSTORE => 100
  | MCOPY => 3
  | BLOBHASH => 3
  | PUSH _ => 3
  | DUP _ => 3
  | SWAP _ => 3
  | LOG _ => 375
  | CREATE => 32000
  | CREATE2 => 32000
  | CALL | CALLCODE | STATICCALL | DELEGATECALL => 100
  | SELFDESTRUCT => 5000
  | _ => 0

def zvmGasCost : Opcode → UInt64
  | PAYID => 200
  | ZUSDBAL => 100
  | ZBXPRICE => 50
  | ZBXTIME => 2
  | AASENDER => 2
  | CHAINVER => 2
  | BLOBFEE => 50
  | PAYIDSET => 100
  | ZBXBURN => 500
  | ZVMLOG => 600
  | _ => 0

/-- `opcode_gas`. -/
def gas (op : Opcode) : UInt64 := if op.isZvmNative then op.zvmGasCost else op.evmGasCost

end Opcode

section Gas

def coldSloadCost : UInt64 := 2100
def warmSloadCost : UInt64 := 100
def coldAccountCost : UInt64 := 2600
def warmAccountCost : UInt64 := 100
def sstoreColdDelta : UInt64 := 2100

/-- `u64::saturating_mul`. -/
def saturatingMul64 (x y : UInt64) : UInt64 := UInt64.ofNat (min (x.toNat * y.toNat) (2 ^ 64 - 1))

/-- The 32-byte words of a length; the sum wraps. -/
def wordsOf (len : UInt64) : UInt64 := (len + 31) / 32

def expDynamicGas (exponent : U256) : UInt64 :=
  let leadingZeros := (exponent.toBigEndian.takeWhile (· == 0)).length
  saturatingMul64 50 (saturatingSub64 32 (UInt64.ofNat leadingZeros))

def keccak256DynamicGas (len : UInt64) : UInt64 := saturatingMul64 6 (wordsOf len)

def copyDynamicGas (len : UInt64) : UInt64 := saturatingMul64 3 (wordsOf len)

def logDynamicGas (topics : ℕ) (dataLen : UInt64) : UInt64 :=
  saturatingAdd64 (saturatingMul64 375 (UInt64.ofNat topics)) (saturatingMul64 8 dataLen)

/-- The price of a memory of `w` words. -/
def memoryCost (w : UInt64) : UInt64 :=
  saturatingAdd64 (saturatingMul64 3 w) (saturatingMul64 w w / 512)

def memoryGasDelta (oldWords newWords : UInt64) : UInt64 :=
  if newWords ≤ oldWords then 0 else saturatingSub64 (memoryCost newWords) (memoryCost oldWords)

end Gas

inductive ZvmError where
  | stackOverflow
  | stackUnderflow
  | outOfGas
  | invalidJump (dest : UInt64)
  | staticStateChange
  | unexpectedEnd
  | invalidUtf8
  | invalidInput (message : String)
  | insufficientBalance
  deriving DecidableEq

def ZvmError.display : ZvmError → String
  | .stackOverflow => "stack overflow (max 1024 items)"
  | .stackUnderflow => "stack underflow"
  | .outOfGas => "out of gas"
  | .invalidJump dest => s!"invalid jump destination: {dest}"
  | .staticStateChange => "state change in static context"
  | .unexpectedEnd => "unexpected end of bytecode"
  | .invalidUtf8 => "invalid UTF-8 in memory"
  | .invalidInput message => "invalid input: " ++ message
  | .insufficientBalance => "insufficient balance for ZBXBURN"

inductive ZvmFault where
  | error (e : ZvmError)
  | panicked
  deriving DecidableEq

section Stack

def maxStackDepth : ℕ := 1024

/-- The top of the stack comes first. -/
structure ZvmStack where
  inner : List U256
  bounded : inner.length ≤ maxStackDepth

namespace ZvmStack

def new : ZvmStack := ⟨[],Nat.zero_le _⟩

def push (s : ZvmStack) (word : U256) : Except ZvmError ZvmStack :=
  if h : s.inner.length < maxStackDepth then .ok ⟨word :: s.inner,h⟩ else .error .stackOverflow

def pop : ZvmStack → Except ZvmError (U256 × ZvmStack)
  | ⟨[],_⟩ => .error .stackUnderflow
  | ⟨word :: rest,h⟩ => .ok (word,⟨rest,(Nat.le_succ _).trans h⟩)

/-- `dup`, the top being number 0. -/
def dup (s : ZvmStack) (n : ℕ) : Except ZvmError ZvmStack :=
  match s.inner[n]? with
  | none => .error .stackUnderflow
  | some word => s.push word

/-- `swap`, the word below the top being number 0. -/
def swap : ZvmStack → ℕ → Except ZvmError ZvmStack
  | ⟨[],_⟩, _ => .error .stackUnderflow
  | ⟨top :: rest,h⟩, n =>
    match rest[n]? with
    | none => .error .stackUnderflow
    | some word => .ok ⟨word :: rest.set n top,by simpa using h⟩

end ZvmStack

end Stack

section Memory

/-- `&data[start..end]`, which panics where the range is not in the data. -/
def slice (data : List UInt8) (start stop : UInt64) : Option (List UInt8) :=
  if start.toNat ≤ stop.toNat ∧ stop.toNat ≤ data.length then
    some ((data.drop start.toNat).take (stop.toNat - start.toNat))
  else none

/-- `copy_from_slice` into a range that is in the data. -/
def overwrite (data : List UInt8) (start : ℕ) (bytes : List UInt8) : List UInt8 :=
  data.take start ++ bytes ++ data.drop (start + bytes.length)

/-- A vector has at most `isize::MAX` bytes. -/
def maxVecLen : ℕ := 2 ^ 63 - 1

/-- `len` bytes from `off` on, with zeros after the end of the data. -/
def zeroPadded (data : List UInt8) (off len : UInt64) : Option (List UInt8) :=
  if maxVecLen < len.toNat then none
  else
    let bytes := (data.drop off.toNat).take len.toNat
    some (bytes ++ List.replicate (len.toNat - bytes.length) 0)

structure ZvmMemory where
  data : List UInt8
  deriving DecidableEq

namespace ZvmMemory

def new : ZvmMemory := ⟨[]⟩

def size (m : ZvmMemory) : UInt64 := UInt64.ofNat m.data.length

def words (m : ZvmMemory) : UInt64 := wordsOf m.size

/-- `resize`: where the rounded size has wrapped, the vector gets shorter. -/
def resize (m : ZvmMemory) (size : UInt64) : Option ZvmMemory :=
  if m.data.length < size.toNat then
    let newSize := (wordsOf size * 32).toNat
    if maxVecLen < newSize then none
    else some ⟨m.data.take newSize ++ List.replicate (newSize - m.data.length) 0⟩
  else some m

def readSlice (m : ZvmMemory) (offset len : UInt64) : Option (List UInt8 × ZvmMemory) := do
  let m ← m.resize (offset + len)
  let bytes ← slice m.data offset (offset + len)
  pure (bytes,m)

def load (m : ZvmMemory) (offset : UInt64) : Option (U256 × ZvmMemory) := do
  let (bytes,m) ← m.readSlice offset 32
  pure (H256.fromSlice bytes,m)

def writeSlice (m : ZvmMemory) (offset : UInt64) (src : List UInt8) : Option ZvmMemory :=
  if src = [] then some m
  else do
    let stop := offset + UInt64.ofNat src.length
    let m ← m.resize stop
    let _ ← slice m.data offset stop
    pure ⟨overwrite m.data offset.toNat src⟩

def store (m : ZvmMemory) (offset : UInt64) (word : U256) : Option ZvmMemory :=
  m.writeSlice offset word.toBigEndian

def store8 (m : ZvmMemory) (offset : UInt64) (byte : UInt8) : Option ZvmMemory := do
  let m ← m.resize (offset + 1)
  if offset.toNat < m.data.length then pure ⟨m.data.set offset.toNat byte⟩ else none

/-- `copy`, by `copy_within`. -/
def copy (m : ZvmMemory) (dst src len : UInt64) : Option ZvmMemory :=
  if len = 0 then some m
  else do
    let m ← m.resize (saturatingAdd64 (max dst src) len)
    let bytes ← slice m.data src (src + len)
    if dst.toNat + bytes.length ≤ m.data.length then pure ⟨overwrite m.data dst.toNat bytes⟩
    else none

end ZvmMemory

end Memory

structure ZvmLog where
  address : Address
  topics : List H256
  data : List UInt8
  deriving DecidableEq

structure ZvmStructuredLog where
  key : List UInt8
  value : List UInt8
  block : UInt64
  index : UInt32
  deriving DecidableEq

structure ZvmResult where
  status : ZvmStatus
  returnData : List UInt8
  gasRemaining : UInt64
  gasUsed : UInt64
  logs : List ZvmLog
  zvmLogs : List ZvmStructuredLog

/-- A frame; its jump destinations are read off the code. -/
structure ZvmInterpreter where
  ctx : ZvmContext
  stack : ZvmStack
  memory : ZvmMemory
  pc : ℕ
  gas : UInt64
  logs : List ZvmLog
  zvmLogs : List ZvmStructuredLog
  returnData : List UInt8
  logIndex : UInt32
  depth : ℕ
  accessedAddresses : AddressSet
  accessedSlots : List (Address × H256)

namespace ZvmInterpreter

def new (ctx : ZvmContext) : ZvmInterpreter :=
  { ctx := ctx
    stack := .new
    memory := .new
    pc := 0
    gas := ctx.gasLimit
    logs := []
    zvmLogs := []
    returnData := []
    logIndex := 0
    depth := 0
    accessedAddresses := []
    accessedSlots := [] }

def finish (f : ZvmInterpreter) (status : ZvmStatus) : ZvmResult :=
  { status := status
    returnData := f.returnData
    gasRemaining := f.gas
    gasUsed := saturatingSub64 f.ctx.gasLimit f.gas
    logs := f.logs
    zvmLogs := f.zvmLogs }

end ZvmInterpreter

/-- `build_jumpdest_bitmap`, with the number of operand bytes still to be skipped. -/
def buildJumpdestBitmap : ℕ → List UInt8 → List Bool
  | _, [] => []
  | skip + 1, _ :: rest => false :: buildJumpdestBitmap skip rest
  | 0, op :: rest =>
    if op = 0x5B then true :: buildJumpdestBitmap 0 rest
    else if 0x60 ≤ op ∧ op ≤ 0x7F then false :: buildJumpdestBitmap (op.toNat - 0x5F) rest
    else false :: buildJumpdestBitmap 0 rest

abbrev FrameOp (α : Type) := ExceptT ZvmFault (StateM ZvmInterpreter) α

/-- What a frame does, with calls on the host. -/
abbrev FrameM (α : Type) := ExceptT ZvmFault (StateT ZvmInterpreter (Program ZvmCall.Reply)) α

instance : MonadLift FrameOp FrameM := ⟨fun p f => Program.done (p f)⟩

def host (c : ZvmCall) : FrameM c.Reply := fun f => Program.call c (fun r => .done (.ok r,f))

namespace FrameOp

def fail {α : Type} (e : ZvmError) : FrameOp α := throw (.error e)

/-- A part of the source that panics where it is `none`. -/
def orPanic {α : Type} : Option α → FrameOp α
  | none => throw .panicked
  | some a => pure a

def orFail {α : Type} : Except ZvmError α → FrameOp α
  | .error e => fail e
  | .ok a => pure a

def push (word : U256) : FrameOp Unit := do
  let stack ← orFail ((← get).stack.push word)
  modify ({ · with stack := stack })

def pushU64 (value : UInt64) : FrameOp Unit := push (BitVec.ofNat 256 value.toNat)

def pushAddress (addr : Address) : FrameOp Unit := push (addr.setWidth 256)

def pushBool (b : Bool) : FrameOp Unit := pushU64 (if b then 1 else 0)

def pop : FrameOp U256 := do
  let (word,stack) ← orFail (← get).stack.pop
  modify ({ · with stack := stack })
  pure word

/-- The low 64 bits. -/
def popU64 : FrameOp UInt64 := do
  let word ← pop
  pure (UInt64.ofNat word.toNat)

/-- The low 128 bits. -/
def popU128 : FrameOp ℕ := do
  let word ← pop
  pure (word.toNat % 2 ^ 128)

/-- The low 160 bits. -/
def popAddress : FrameOp Address := do
  let word ← pop
  pure (word.setWidth 160)

def chargeGas (amt : UInt64) : FrameOp Unit := do
  let f ← get
  if f.gas < amt then
    set { f with gas := 0 }
    fail .outOfGas
  else set { f with gas := f.gas - amt }

def chargeMemExpansion (newSize : UInt64) : FrameOp Unit := do
  if newSize = 0 then pure ()
  else
    let delta := memoryGasDelta (← get).memory.words (wordsOf newSize)
    if delta = 0 then pure () else chargeGas delta

/-- `accessed_addresses.insert`, and the price of a first touch. -/
def touchAddress (addr : Address) : FrameOp Unit := do
  let f ← get
  set { f with accessedAddresses := f.accessedAddresses.insert addr }
  chargeGas (if addr ∈ f.accessedAddresses then 0
    else saturatingSub64 coldAccountCost warmAccountCost)

/-- `accessed_slots.insert`, and the price of a first touch. -/
def touchSlot (key : H256) (cold : UInt64) : FrameOp Unit := do
  let f ← get
  let slotId := (f.ctx.contract,key)
  set { f with accessedSlots := f.accessedSlots.insert slotId }
  chargeGas (if slotId ∈ f.accessedSlots then 0 else cold)

def readMemory {α : Type} (read : ZvmMemory → Option (α × ZvmMemory)) : FrameOp α := do
  let (a,memory) ← orPanic (read (← get).memory)
  modify ({ · with memory := memory })
  pure a

def writeMemory (write : ZvmMemory → Option ZvmMemory) : FrameOp Unit := do
  let memory ← orPanic (write (← get).memory)
  modify ({ · with memory := memory })

/-- `read_slice(offset, len).to_vec()`. -/
def readSlice (offset len : UInt64) : FrameOp (List UInt8) := readMemory (·.readSlice offset len)

/-- `read_string`: its bytes. -/
def readString (offset len : UInt64) : FrameOp (List UInt8) := do
  let bytes ← readSlice offset len
  if (ByteArray.mk bytes.toArray).validateUTF8 then pure bytes else fail .invalidUtf8

def staticGuard : FrameOp Unit := do
  if (← get).ctx.isStatic then fail .staticStateChange else pure ()

def advance : FrameOp Unit := modify (fun f => { f with pc := f.pc + 1 })

end FrameOp

end ZbxChain.Zvm
