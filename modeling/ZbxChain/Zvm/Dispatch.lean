import ZbxChain.Zvm.Frame

/-! # `ZvmInterpreter::dispatch`: the opcodes that start no frame of their own -/
namespace ZbxChain.Zvm
open FrameOp

section Arithmetic

def isNegative (x : U256) : Bool := x.msb

/-- `neg`: two's complement. -/
def negate (x : U256) : U256 := ~~~x + 1

def sdivU256 (a b : U256) : U256 :=
  if b = 0 then 0
  else
    let minNeg : U256 := 1 <<< 255
    let negOne : U256 := BitVec.allOnes 256
    if a = minNeg ∧ b = negOne then minNeg
    else
      let absA := if isNegative a then negate a else a
      let absB := if isNegative b then negate b else b
      let q := absA / absB
      if isNegative a ^^ isNegative b then negate q else q

def smodU256 (a b : U256) : U256 :=
  if b = 0 then 0
  else
    let absA := if isNegative a then negate a else a
    let absB := if isNegative b then negate b else b
    let r := absA % absB
    if r = 0 then 0 else if isNegative a then negate r else r

def signedLt (a b : U256) : Bool :=
  match isNegative a,isNegative b with
  | true,false => true
  | false,true => false
  | _,_ => decide (a < b)

def sarU256 (value shift : U256) : U256 :=
  if 256 ≤ shift.toNat then (if isNegative value then BitVec.allOnes 256 else 0)
  else
    let s := shift.toNat
    let logical := value >>> s
    if !isNegative value then logical
    else if s = 0 then logical
    else logical ||| BitVec.allOnes 256 <<< (256 - s)

def signExtend (b x : U256) : U256 :=
  if 31 ≤ b.toNat then x
  else
    let bytes := x.toBigEndian
    let signByte := 31 - b.toNat
    let sign := decide (128 ≤ (bytes[signByte]?.getD 0).toNat)
    H256.fromSlice (List.replicate signByte (if sign then 0xFF else 0) ++ bytes.drop signByte)

/-- `BYTE`: the byte number `i` of a word, from the most significant one. -/
def byteAt (i x : U256) : U256 :=
  if 32 ≤ i.toNat then 0 else BitVec.ofNat 256 (x.toBigEndian[i.toNat]?.getD 0).toNat

/-- `overflowing_pow`, bit by bit from the highest one. -/
def overflowingPow (base exp : U256) : U256 :=
  (List.range 256).foldr (fun i acc => if exp.getLsbD i then acc * acc * base else acc * acc) 1

end Arithmetic

namespace FrameOp

def unary (g : U256 → U256) : FrameOp Unit := do
  let a ← pop
  push (g a)

/-- The first operand is the top of the stack. -/
def binary (g : U256 → U256 → U256) : FrameOp Unit := do
  let a ← pop
  let b ← pop
  push (g a b)

def compare (g : U256 → U256 → Bool) : FrameOp Unit := binary (fun a b => if g a b then 1 else 0)

def ternary (g : U256 → U256 → U256 → U256) : FrameOp Unit := do
  let a ← pop
  let b ← pop
  let n ← pop
  push (g a b n)

def addMod : FrameOp Unit := ternary (fun a b n =>
  if n = 0 then 0 else BitVec.ofNat 256 ((a.toNat + b.toNat) % n.toNat))

def mulMod : FrameOp Unit := ternary (fun a b n =>
  if n = 0 then 0 else BitVec.ofNat 256 ((a.toNat * b.toNat) % n.toNat))

def exp : FrameOp Unit := do
  let base ← pop
  let exponent ← pop
  chargeGas (expDynamicGas exponent)
  push (overflowingPow base exponent)

def keccak (P : Platform) : FrameOp Unit := do
  let offset ← popU64
  let length ← popU64
  chargeGas (keccak256DynamicGas length)
  chargeMemExpansion (saturatingAdd64 offset length)
  let data ← readSlice offset length
  push (P.keccak256 data)

def callDataLoad : FrameOp Unit := do
  let offset ← pop
  let data := (← get).ctx.calldata
  let bytes := (data.drop offset.toNat).take 32
  push (H256.fromSlice (bytes ++ List.replicate (32 - bytes.length) 0))

/-- `CALLDATACOPY` and `CODECOPY`. -/
def copyFrom (source : ZvmContext → List UInt8) : FrameOp Unit := do
  let destOff ← popU64
  let srcOff ← popU64
  let len ← popU64
  chargeGas (copyDynamicGas len)
  chargeMemExpansion (saturatingAdd64 destOff len)
  let buf ← orPanic (zeroPadded (source (← get).ctx) srcOff len)
  writeMemory (·.writeSlice destOff buf)

def returnDataCopy : FrameOp Unit := do
  let destOff ← popU64
  let srcOff ← popU64
  let len ← popU64
  chargeGas (copyDynamicGas len)
  chargeMemExpansion (saturatingAdd64 destOff len)
  let data := (← get).returnData
  if data.length < (saturatingAdd64 srcOff len).toNat then
    fail (.invalidInput "RETURNDATACOPY out of bounds")
  else
    let buf ← orPanic (slice data srcOff (srcOff + len))
    writeMemory (·.writeSlice destOff buf)

def mcopy : FrameOp Unit := do
  let destOff ← popU64
  let srcOff ← popU64
  let len ← popU64
  chargeGas (copyDynamicGas len)
  chargeMemExpansion (saturatingAdd64 (max destOff srcOff) len)
  writeMemory (·.copy destOff srcOff len)

def mload : FrameOp Unit := do
  let offset ← popU64
  chargeMemExpansion (saturatingAdd64 offset 32)
  let word ← readMemory (·.load offset)
  push word

def mstore : FrameOp Unit := do
  let offset ← popU64
  let word ← pop
  chargeMemExpansion (saturatingAdd64 offset 32)
  writeMemory (·.store offset word)

def mstore8 : FrameOp Unit := do
  let offset ← popU64
  let word ← pop
  chargeMemExpansion (saturatingAdd64 offset 1)
  writeMemory (·.store8 offset (UInt8.ofNat word.toNat))

def msize : FrameOp Unit := do pushU64 ((← get).memory.words * 32)

/-- The operand of a push of `n` bytes, which are skipped. -/
def pushOperand (n : ℕ) : FrameOp Unit := do
  let f ← get
  let start := f.pc + 1
  if f.ctx.bytecode.length < start + n then fail .unexpectedEnd
  else
    push (H256.fromSlice ((f.ctx.bytecode.drop start).take n))
    modify (fun f => { f with pc := f.pc + n })

def dup (n : ℕ) : FrameOp Unit := do
  let stack ← orFail ((← get).stack.dup n)
  modify ({ · with stack := stack })

def swap (n : ℕ) : FrameOp Unit := do
  let stack ← orFail ((← get).stack.swap n)
  modify ({ · with stack := stack })

/-- To a destination of the bitmap. -/
def jumpTo (dest : UInt64) : FrameOp Unit := do
  let f ← get
  if (buildJumpdestBitmap 0 f.ctx.bytecode)[dest.toNat]?.getD false then
    set { f with pc := dest.toNat }
  else fail (.invalidJump dest)

def jump : FrameOp Unit := do
  let dest ← popU64
  jumpTo dest

def jumpi : FrameOp Unit := do
  let dest ← popU64
  let cond ← pop
  if cond = 0 then advance else jumpTo dest

/-- `RETURN` and `REVERT`. -/
def returnWith (status : ZvmStatus) : FrameOp ZvmResult := do
  let offset ← popU64
  let len ← popU64
  chargeMemExpansion (saturatingAdd64 offset len)
  let data ← readSlice offset len
  modify ({ · with returnData := data })
  pure ((← get).finish status)

def pushCtx (g : ZvmContext → U256) : FrameOp Unit := do push (g (← get).ctx)

end FrameOp

namespace FrameM

def pushReply (c : ZvmCall) (word : c.Reply → U256) : FrameM Unit := do
  let reply ← host c
  push (word reply)

def ofU128 (n : ℕ) : U256 := BitVec.ofNat 256 n

def balance : FrameM Unit := do
  let addr ← popAddress
  touchAddress addr
  pushReply (.balance addr) ofU128

def selfBalance : FrameM Unit := do pushReply (.balance (← get).ctx.contract) ofU128

def extCodeSize : FrameM Unit := do
  let addr ← popAddress
  touchAddress addr
  pushReply (.codeSize addr) (fun size => ofU128 (size % 2 ^ 64))

def extCodeHash : FrameM Unit := do
  let addr ← popAddress
  touchAddress addr
  pushReply (.codeHash addr) id

def extCodeCopy : FrameM Unit := do
  let addr ← popAddress
  let destOff ← popU64
  let codeOff ← popU64
  let len ← popU64
  touchAddress addr
  chargeGas (copyDynamicGas len)
  chargeMemExpansion (saturatingAdd64 destOff len)
  let code ← host (.code addr)
  let buf ← orPanic (zeroPadded code codeOff len)
  writeMemory (·.writeSlice destOff buf)

def blockHash : FrameM Unit := do
  let n ← popU64
  pushReply (.blockHash n) id

def blobHash : FrameM Unit := do
  let i ← popU64
  pushReply (.blobHash i) id

def tload : FrameM Unit := do
  let key ← pop
  pushReply (.transientLoad (← get).ctx.contract key) id

def tstore : FrameM Unit := do
  staticGuard
  let key ← pop
  let value ← pop
  host (.transientStore (← get).ctx.contract key value)

def sload : FrameM Unit := do
  let key ← pop
  touchSlot key (saturatingSub64 coldSloadCost warmSloadCost)
  pushReply (.storageLoad (← get).ctx.contract key) id

def sstore : FrameM Unit := do
  staticGuard
  let key ← pop
  let value ← pop
  touchSlot key sstoreColdDelta
  host (.storageStore (← get).ctx.contract key value)

def popTopics : ℕ → FrameOp (List H256)
  | 0 => pure []
  | n + 1 => do
    let topic ← pop
    let rest ← popTopics n
    pure (topic :: rest)

def log (nTopics : ℕ) : FrameM Unit := do
  staticGuard
  let offset ← popU64
  let length ← popU64
  chargeGas (logDynamicGas nTopics length)
  chargeMemExpansion (saturatingAdd64 offset length)
  let topics ← popTopics nTopics
  let data ← readSlice offset length
  let contract := (← get).ctx.contract
  modify (fun f => { f with logs := f.logs ++ [⟨contract,topics,data⟩] })
  host (.emitLog contract topics data)

def zvmLog : FrameM Unit := do
  let keyPtr ← popU64
  let keyLen ← popU64
  let valPtr ← popU64
  let valLen ← popU64
  let key ← readString keyPtr keyLen
  let value ← readString valPtr valLen
  host (.emitZvmLog key value)
  modify (fun f => { f with
    zvmLogs := f.zvmLogs ++ [⟨key,value,f.ctx.blockNumber,f.logIndex⟩]
    logIndex := f.logIndex + 1 })

def payId : FrameM Unit := do
  let ptr ← popU64
  let len ← popU64
  let name ← readString ptr len
  pushReply (.resolvePayId name) (fun addr => (addr.getD 0).setWidth 256)

def zusdBal : FrameM Unit := do
  let addr ← popAddress
  pushReply (.zusdBalance addr) ofU128

def payIdSet : FrameM Unit := do
  let addr ← popAddress
  pushReply (.hasPayId addr) (fun has => if has then 1 else 0)

def zbxBurn : FrameM Unit := do
  staticGuard
  let amount ← popU128
  let burnt ← host (.burnZbx (← get).ctx.caller amount)
  if burnt then pure () else fail .insufficientBalance

def selfdestruct : FrameM ZvmResult := do
  staticGuard
  let beneficiary ← popAddress
  host (.selfdestruct (← get).ctx.contract beneficiary)
  pure ((← get).finish .success)

def next (p : FrameM Unit) : FrameM (Option ZvmResult) := do
  p
  advance
  pure none

def halt (p : FrameM ZvmResult) : FrameM (Option ZvmResult) := do
  let result ← p
  pure (some result)

/-- A jump sets the position itself. -/
def jumping (p : FrameOp Unit) : FrameM (Option ZvmResult) := do
  p
  pure none

end FrameM

open FrameM

def dispatch (P : Platform) : Opcode → FrameM (Option ZvmResult)
  | .STOP => halt do pure ((← get).finish .success)
  | .ADD => next (binary (· + ·))
  | .MUL => next (binary (· * ·))
  | .SUB => next (binary (· - ·))
  | .DIV => next (binary (· / ·))
  | .SDIV => next (binary sdivU256)
  | .MOD => next (binary (fun a b => if b = 0 then 0 else a % b))
  | .SMOD => next (binary smodU256)
  | .ADDMOD => next addMod
  | .MULMOD => next mulMod
  | .EXP => next exp
  | .SIGNEXTEND => next (binary signExtend)
  | .LT => next (compare (fun a b => decide (a < b)))
  | .GT => next (compare (fun a b => decide (b < a)))
  | .SLT => next (compare signedLt)
  | .SGT => next (compare (fun a b => signedLt b a))
  | .AND => next (binary (· &&& ·))
  | .OR => next (binary (· ||| ·))
  | .XOR => next (binary (· ^^^ ·))
  | .NOT => next (unary (~~~ ·))
  | .BYTE => next (binary byteAt)
  | .SHL => next (binary (fun shift value => if 256 ≤ shift.toNat then 0 else value <<< shift.toNat))
  | .SHR => next (binary (fun shift value => if 256 ≤ shift.toNat then 0 else value >>> shift.toNat))
  | .SAR => next (binary (fun shift value => sarU256 value shift))
  | .KECCAK256 => next (keccak P)
  | .CALLDATALOAD => next callDataLoad
  | .CALLDATASIZE => next (pushCtx (fun ctx => ofU128 ctx.calldata.length))
  | .CALLDATACOPY => next (copyFrom (·.calldata))
  | .CODESIZE => next (pushCtx (fun ctx => ofU128 ctx.bytecode.length))
  | .CODECOPY => next (copyFrom (·.bytecode))
  | .RETURNDATASIZE => next (do pushU64 (UInt64.ofNat (← get).returnData.length) : FrameOp Unit)
  | .RETURNDATACOPY => next returnDataCopy
  | .BLOCKHASH => next blockHash
  | .COINBASE => next (pushReply .coinbase (·.setWidth 256))
  | .PREVRANDAO => next (pushReply .prevrandao id)
  | .GASLIMIT => next (pushReply .blockGasLimit (fun gas => ofU128 gas.toNat))
  | .GASPRICE => next (pushReply .gasPrice ofU128)
  | .SELFBALANCE => next selfBalance
  | .BLOBHASH => next blobHash
  | .BALANCE => next balance
  | .PUSH0 => next (push 0)
  | .MSIZE => next msize
  | .TLOAD => next tload
  | .TSTORE => next tstore
  | .MCOPY => next mcopy
  | .PUSH n => next (pushOperand (n + 1))
  | .DUP n => next (dup n)
  | .SWAP n => next (swap n)
  | .MLOAD => next mload
  | .MSTORE => next mstore
  | .MSTORE8 => next mstore8
  | .NUMBER => next (pushCtx (fun ctx => ofU128 ctx.blockNumber.toNat))
  | .TIMESTAMP => next (pushCtx (fun ctx => ofU128 ctx.blockTimestamp.toNat))
  | .CHAINID => next (pushCtx (fun ctx => ofU128 ctx.chainId.toNat))
  | .BASEFEE => next (pushCtx (fun ctx => ofU128 ctx.baseFee))
  | .BLOBBASEFEE => next (pushCtx (fun ctx => ofU128 ctx.blobBaseFee))
  | .CALLER => next (pushCtx (·.caller.setWidth 256))
  | .ADDRESS => next (pushCtx (·.contract.setWidth 256))
  | .CALLVALUE => next (pushCtx (fun ctx => ofU128 ctx.value))
  | .GAS => next (do pushU64 (← get).gas : FrameOp Unit)
  | .ORIGIN => next (pushCtx (·.origin.setWidth 256))
  | .SLOAD => next sload
  | .SSTORE => next sstore
  | .JUMP => jumping jump
  | .JUMPI => jumping jumpi
  | .JUMPDEST => next (pure ())
  | .PC => next (do pushU64 (UInt64.ofNat (← get).pc) : FrameOp Unit)
  | .POP => next (do let _ ← pop : FrameOp Unit)
  | .EQ => next (compare (fun a b => decide (a = b)))
  | .ISZERO => next (unary (fun a => if a = 0 then 1 else 0))
  | .RETURN => halt (returnWith .success)
  | .REVERT => halt (returnWith .revert)
  | .INVALID => halt do pure ((← get).finish (.invalidOpcode 0xFE))
  | .SELFDESTRUCT => halt selfdestruct
  | .PAYID => next payId
  | .ZUSDBAL => next zusdBal
  | .ZBXPRICE => next (pushReply .zbxPriceUsd ofU128)
  | .ZBXTIME => next (push 5000)
  | .AASENDER => next (pushCtx (fun ctx => (ctx.aaSender.getD ctx.caller).setWidth 256))
  | .CHAINVER => next (push 1)
  | .BLOBFEE => next (pushReply .blobBaseFee ofU128)
  | .PAYIDSET => next payIdSet
  | .ZBXBURN => next zbxBurn
  | .EXTCODESIZE => next extCodeSize
  | .EXTCODEHASH => next extCodeHash
  | .EXTCODECOPY => next extCodeCopy
  | .LOG n => next (log n)
  | .ZVMLOG => next zvmLog
  -- the opcodes that start a frame are taken before
  | .CREATE | .CALL | .CALLCODE | .DELEGATECALL | .CREATE2 | .STATICCALL => next (pure ())

end ZbxChain.Zvm
