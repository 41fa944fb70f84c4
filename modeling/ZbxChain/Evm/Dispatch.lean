import ZbxChain.Evm.Frame

/-! # `EVMInterpreter::step`: the opcodes that start no frame of their own -/
namespace ZbxChain.Evm
open EvmM

namespace EvmM

def unary (g : Word → Word) : EvmM Unit := do
  let a ← pop
  push (g a)

/-- The first operand is the top of the stack. -/
def binary (g : Word → Word → Word) : EvmM Unit := do
  let a ← pop
  let b ← pop
  push (g a b)

def compare (g : Word → Word → Bool) : EvmM Unit := binary (fun a b => u256FromU64 (if g a b then 1 else 0))

def ternary (g : Word → Word → Word → Word) : EvmM Unit := do
  let a ← pop
  let b ← pop
  let n ← pop
  push (g a b n)

def exp : EvmM Unit := do
  let base ← pop
  let exponent ← pop
  consumeGas (10 + 50 * u256ByteLen exponent)
  push (u256Exp base exponent)

def sha3 (P : Platform) : EvmM Unit := do
  let offset ← popU64
  let size ← popU64
  expand offset size
  consumeGas (sha3Cost size)
  let data ← readMemory offset size
  push (P.keccak256 data)

/-- A word that is read off the frame. -/
def pushOf (g : EVMInterpreter → Word) : EvmM Unit := do
  push (g (← get))

def pushAbout (c : Address → EvmCall) (word : (addr : Address) → (c addr).Reply → Word) : EvmM Unit := do
  let addr ← popAddress
  touchAddress addr
  let reply ← host (c addr)
  push (word addr reply)

def callDataLoad : EvmM Unit := do
  let offset ← popU64
  let bytes := ((← get).ctx.calldata.drop offset.toNat).take 32
  push (Word.ofBytes (bytes ++ List.replicate (32 - bytes.length) 0))

structure CopyArgs where
  dest : UInt64
  src : UInt64
  size : UInt64

def popCopy : EvmM CopyArgs := do
  let dest ← popU64
  let src ← popU64
  let size ← popU64
  pure ⟨dest,src,size⟩

def chargeCopy (args : CopyArgs) : EvmM Unit := do
  expand args.dest args.size
  consumeGas (copyCost args.size)

/-- The operands and the charges of `CALLDATACOPY` and `CODECOPY`. -/
def copyOperands : EvmM CopyArgs := do
  let args ← popCopy
  chargeCopy args
  pure args

/-- The bytes there are are copied, and zeros behind them. -/
def copyBytes (data : List UInt8) (args : CopyArgs) : EvmM Unit := do
  let bytes ← sliceAt data args.src.toNat (min (data.length - args.src.toNat) args.size.toNat)
  writeMemory args.dest (bytes ++ List.replicate (args.size.toNat - bytes.length) 0)

/-- `CALLDATACOPY` and `CODECOPY`. -/
def copyFrom (source : EVMInterpreter → List UInt8) : EvmM Unit := do
  let args ← copyOperands
  if 0 < args.size then copyBytes (source (← get)) args else pure ()

/-- The operands and the charges of `EXTCODECOPY`. -/
def extCodeCopyOperands : EvmM (Address × CopyArgs) := do
  let addr ← popAddress
  let args ← popCopy
  touchAddress addr
  chargeCopy args
  pure (addr,args)

def extCodeCopy : EvmM Unit := do
  let (addr,args) ← extCodeCopyOperands
  if 0 < args.size then do
    let code ← host (.code addr)
    copyBytes code args
  else pure ()

def extCodeHash : EvmM Unit := do
  let addr ← popAddress
  touchAddress addr
  let empty ← host (.isEmpty addr)
  if empty then push 0
  else do
    let hash ← host (.codeHash addr)
    push hash

def returnDataCopy : EvmM Unit := do
  let dest ← popU64
  let off ← popU64
  let size ← popU64
  let data := (← get).returnData
  if 2 ^ 64 ≤ off.toNat + size.toNat ∨ data.length < off.toNat + size.toNat then fail (.memoryOutOfBounds off size)
  else do
    expand dest size
    consumeGas (3 * wordsOf size)
    if 0 < size then do
      let chunk ← sliceAt data off.toNat size.toNat
      writeMemory dest chunk
    else pure ()

/-- The 256 blocks before the current one have a hash. -/
def blockHash : EvmM Unit := do
  let raw ← pop
  let blockNum := u256ToU64 raw
  let current := (← get).ctx.blockNumber
  if blockNum < current ∧ saturatingSub64 current blockNum ≤ 256 then do
    let hash ← host (.blockHash blockNum)
    push hash
  else push 0

def selfBalance : EvmM Unit := do
  let balance ← host (.balance (← get).ctx.callee)
  push balance

def mload : EvmM Unit := do
  let offset ← popU64
  expand offset 32
  let bytes ← readMemory offset 32
  push (Word.ofBytes bytes)

/-- `MSTORE` and `MSTORE8`. -/
def mstore (size : UInt64) (bytes : Word → List UInt8) : EvmM Unit := do
  let offset ← popU64
  let val ← pop
  expand offset size
  writeMemory offset (bytes val)

def sload : EvmM Unit := do
  let key ← pop
  touchSlot key
  let val ← host (.storageLoad (← get).ctx.callee key)
  push val

/-- The original value is read in the same state as the current one. -/
def chargeSstore (callee : Address) (key value current : Word) : EvmM Unit :=
  if current = value then pure ()
  else do
    let original ← host (.storageLoad callee key)
    if original = current then
      consumeGas (if u256IsZero current then gasSstoreSet else gasSstoreReset)
    else consumeGas gasSstoreDirty

def sstore : EvmM Unit := do
  staticGuard
  let key ← pop
  let value ← pop
  let callee := (← get).ctx.callee
  let current ← host (.storageLoad callee key)
  touchSlot key
  chargeSstore callee key value current
  host (.storageStore callee key value)

/-- The operand of a `PUSH` of `n` bytes; past the end of the code it is filled up with zeros. -/
def pushOperand (n : ℕ) : EvmM Unit := do
  let f ← get
  let bytes := (f.code.drop (f.pc + 1)).take n
  push (Word.ofBytes (List.replicate (32 - n) 0 ++ bytes ++ List.replicate (n - bytes.length) 0))
  modify (fun f => { f with pc := f.pc + n })

def dup (n : ℕ) : EvmM Unit := do
  let stack ← orFail ((← get).stack.dup n)
  modify ({ · with stack := stack })

def swap (n : ℕ) : EvmM Unit := do
  let stack ← orFail ((← get).stack.swap n)
  modify ({ · with stack := stack })

def popTopics : ℕ → EvmM (List Word)
  | 0 => pure []
  | n + 1 => do
    let topic ← pop
    let rest ← popTopics n
    pure (topic :: rest)

def log (topicCount : ℕ) : EvmM Unit := do
  staticGuard
  let offset ← popU64
  let size ← popU64
  let topics ← popTopics topicCount
  expand offset size
  consumeGas (logCost size topicCount)
  let data ← readMemory offset size
  modify (fun f => { f with logs := f.logs ++ [⟨f.ctx.callee,topics,data⟩] })

end EvmM

/-- How a round goes on: behind the opcode, at a jump destination, or not at all. -/
inductive Flow where
  | goOn
  | jumped
  | exit (status : ExitStatus)

namespace EvmM

def goOn (p : EvmM Unit) : EvmM Flow := do
  p
  pure .goOn

def jumpTo (dest : UInt64) : EvmM Flow := do
  if (← get).isValidJumpdest dest then do
    modify ({ · with pc := dest.toNat })
    pure .jumped
  else fail (.invalidJump dest)

def jump : EvmM Flow := do
  let dest ← popU64
  jumpTo dest

def jumpi : EvmM Flow := do
  let dest ← popU64
  let cond ← pop
  if u256IsZero cond then pure .goOn else jumpTo dest

/-- `RETURN` and `REVERT`. -/
def returnWith (status : ExitStatus) : EvmM Flow := do
  let offset ← popU64
  let size ← popU64
  if maxReturnData < size.toNat then fail (.memoryOutOfBounds offset size)
  else do
    expand offset size
    let data ← readMemory offset size
    setReturnData data
    pure (.exit status)

def selfdestruct : EvmM Flow := do
  staticGuard
  let beneficiary ← popAddress
  consumeGas gasSelfdestruct
  touchAddress beneficiary
  host (.destruct (← get).ctx.callee beneficiary)
  pure (.exit .succeeded)

end EvmM

/-- The opcodes that neither end nor start a frame and do not jump. -/
def execute (P : Platform) : Opcode → Option (EvmM Unit)
  | .ADD => some (binary u256Add)
  | .MUL => some (binary u256Mul)
  | .SUB => some (binary u256Sub)
  | .DIV => some (binary u256Div)
  | .SDIV => some (binary u256Sdiv)
  | .MOD => some (binary u256Mod)
  | .SMOD => some (binary u256Smod)
  | .ADDMOD => some (ternary u256Addmod)
  | .MULMOD => some (ternary u256Mulmod)
  | .EXP => some exp
  | .SIGNEXTEND => some (binary u256Signextend)
  | .LT => some (compare u256Lt)
  | .GT => some (compare u256Gt)
  | .SLT => some (compare u256Slt)
  | .SGT => some (compare u256Sgt)
  | .EQ => some (compare u256Eq)
  | .ISZERO => some (unary (fun a => u256FromU64 (if u256IsZero a then 1 else 0)))
  | .AND => some (binary u256And)
  | .OR => some (binary u256Or)
  | .XOR => some (binary u256Xor)
  | .NOT => some (unary u256Not)
  | .BYTE => some (binary u256Byte)
  | .SHL => some (binary u256Shl)
  | .SHR => some (binary u256Shr)
  | .SAR => some (binary u256Sar)
  | .SHA3 => some (sha3 P)
  | .ADDRESS => some (pushOf (·.ctx.callee.setWidth 256))
  | .BALANCE => some (pushAbout .balance (fun _ balance => balance))
  | .ORIGIN => some (pushOf (·.ctx.txOrigin.setWidth 256))
  | .CALLER => some (pushOf (·.ctx.caller.setWidth 256))
  | .CALLVALUE => some (pushOf (·.ctx.value))
  | .CALLDATALOAD => some callDataLoad
  | .CALLDATASIZE => some (pushOf (fun f => u256FromU64 (UInt64.ofNat f.ctx.calldata.length)))
  | .CALLDATACOPY => some (copyFrom (·.ctx.calldata))
  | .CODESIZE => some (pushOf (fun f => u256FromU64 (UInt64.ofNat f.code.length)))
  | .CODECOPY => some (copyFrom (·.code))
  | .GASPRICE => some (pushOf (fun f => u256FromU64 f.ctx.gasPrice))
  | .EXTCODESIZE => some (pushAbout .code (fun _ code => u256FromU64 (UInt64.ofNat code.length)))
  | .EXTCODECOPY => some extCodeCopy
  | .EXTCODEHASH => some extCodeHash
  | .RETURNDATASIZE => some (pushOf (fun f => u256FromU64 (UInt64.ofNat f.returnData.length)))
  | .RETURNDATACOPY => some returnDataCopy
  | .BLOCKHASH => some blockHash
  | .COINBASE => some (pushOf (·.ctx.coinbase.setWidth 256))
  | .TIMESTAMP => some (pushOf (fun f => u256FromU64 f.ctx.timestamp))
  | .NUMBER => some (pushOf (fun f => u256FromU64 f.ctx.blockNumber))
  | .PREVRANDAO => some (pushOf (·.ctx.randaoMix))
  | .GASLIMIT => some (pushOf (fun f => u256FromU64 f.ctx.gasLimit))
  | .CHAINID => some (pushOf (fun f => u256FromU64 f.ctx.effectiveChainId))
  | .SELFBALANCE => some selfBalance
  | .BASEFEE => some (pushOf (fun f => u256FromU64 f.ctx.baseFee))
  | .POP => some (do let _ ← pop)
  | .MLOAD => some mload
  | .MSTORE => some (mstore 32 (fun val => val.toBigEndian))
  | .MSTORE8 => some (mstore 1 (fun val => [val.byte 31]))
  | .SLOAD => some sload
  | .SSTORE => some sstore
  | .PC => some (pushOf (fun f => u256FromU64 (UInt64.ofNat f.pc)))
  | .MSIZE => some (pushOf (fun f => u256FromU64 (UInt64.ofNat f.memory.data.length)))
  | .GAS => some (pushOf (fun f => u256FromU64 f.gasRemaining))
  | .JUMPDEST => some (pure ())
  | .PUSH0 => some (push 0)
  | .PUSH n => some (pushOperand (n + 1))
  | .DUP n => some (dup (n + 1))
  | .SWAP n => some (swap (n + 1))
  | .LOG n => some (log n)
  | _ => none

def dispatch (P : Platform) (op : Opcode) : EvmM Flow :=
  match execute P op with
  | some p => goOn p
  | none =>
    match op with
    | .STOP => pure (.exit .succeeded)
    | .JUMP => jump
    | .JUMPI => jumpi
    | .RETURN => returnWith .succeeded
    | .REVERT => returnWith .reverted
    | .SELFDESTRUCT => selfdestruct
    | _ => fail (.invalidOpcode 0xFE)

end ZbxChain.Evm
