import ZbxChain.Evm.Dispatch

/-! # `EVMInterpreter`: calls, creations and the loop

An opcode that starts a frame is taken apart into what it does before the frame runs and
what it does after it. The precompiles are parameters; those that read the state do so by
the calls their adapters have.
-/
namespace ZbxChain.Evm
open EvmM

/-- What the precompiles 0x0A, 0x0C and 0x0F see of the host. -/
inductive HostRead where
  | resolve (name : List UInt8)
  | reverse (addr : Address)
  | readSlot (addr : Address) (slot : Word)

namespace HostRead

def toCall : HostRead → EvmCall
  | resolve name => .resolvePayIdBytes name
  | reverse addr => .reversePayId addr
  | readSlot addr slot => .storageLoad addr slot

@[reducible] def Reply (r : HostRead) : Type := r.toCall.Reply

/-- The adapter: the reads are calls on the host. -/
def adapt {α : Type} : Program Reply α → Program EvmCall.Reply α
  | .done a => .done a
  | .call r next => .call r.toCall (fun x => adapt (next x))

end HostRead

/-- What a precompile gives: its output and the gas it used, `none` where it fails. -/
abbrev PrecompileResult := Option (List UInt8 × UInt64)

structure Precompiles where
  callPrecompile : Address → List UInt8 → UInt64 → PrecompileResult
  doPayid : List UInt8 → UInt64 → Program HostRead.Reply PrecompileResult
  doPriceOracle : List UInt8 → UInt64 → Program HostRead.Reply PrecompileResult
  doZusdVault : List UInt8 → UInt64 → UInt64 → Program HostRead.Reply PrecompileResult

/-- The addresses 0x01 to 0x0F. -/
def isPrecompile (addr : Address) : Bool := decide (1 ≤ addr.toNat ∧ addr.toNat ≤ 0x0F)

inductive CallKind where
  | call
  | callCode
  | delegateCall
  | staticCall
  deriving DecidableEq

/-- What starts a frame; `create true` is `CREATE2`. -/
inductive FrameKind where
  | call (kind : CallKind)
  | create (withSalt : Bool)
  deriving DecidableEq

def Opcode.frameKind : Opcode → Option FrameKind
  | CALL => some (.call .call)
  | CALLCODE => some (.call .callCode)
  | DELEGATECALL => some (.call .delegateCall)
  | STATICCALL => some (.call .staticCall)
  | CREATE => some (.create false)
  | CREATE2 => some (.create true)
  | _ => none

/-- A frame that is about to run, under its snapshot; what its parent has paid for it, and
where its output goes. -/
structure SubFrame where
  kind : FrameKind
  frame : EVMInterpreter
  snapshot : SnapshotId
  billed : UInt64
  retOff : UInt64
  retLen : UInt64

section Calls
variable (P : Platform) (Z : Precompiles)

structure CallArgs where
  gasReq : UInt64
  target : Address
  value : Word
  argsOff : UInt64
  argsLen : UInt64
  retOff : UInt64
  retLen : UInt64

def CallKind.popsValue : CallKind → Bool
  | call | callCode => true
  | delegateCall | staticCall => false

/-- `DELEGATECALL` keeps the value of its own frame. -/
def popValue : CallKind → EvmM Word
  | .call | .callCode => pop
  | .delegateCall => do pure (← get).ctx.value
  | .staticCall => pure 0

/-- No value is sent from a static frame. -/
def valueGuard (kind : CallKind) (value : Word) : EvmM Unit := do
  if kind.popsValue ∧ (← get).ctx.isStatic ∧ value ≠ 0 then fail .staticStateChange else pure ()

def popCall (kind : CallKind) : EvmM CallArgs := do
  let gasReq ← popU64
  let target ← popAddress
  let value ← popValue kind
  valueGuard kind value
  let argsOff ← popU64
  let argsLen ← popU64
  let retOff ← popU64
  let retLen ← popU64
  pure ⟨gasReq,target,value,argsOff,argsLen,retOff,retLen⟩

/-- `actually_transfers`. -/
def CallArgs.transfers (args : CallArgs) (kind : CallKind) : Bool := kind.popsValue && decide (args.value ≠ 0)

/-- The price of a transfer, and that of an account it makes. -/
def chargeTransfer (kind : CallKind) (args : CallArgs) : EvmM Unit :=
  if args.transfers kind then do
    consumeGas gasCallValueTransfer
    if kind = .call then do
      let empty ← host (.isEmpty args.target)
      if empty then consumeGas gasNewAccount else pure ()
    else pure ()
  else pure ()

def chargeCall (kind : CallKind) (args : CallArgs) : EvmM (List UInt8) := do
  expand args.argsOff args.argsLen
  let calldata ← readMemory args.argsOff args.argsLen
  touchAddress args.target
  chargeTransfer kind args
  pure calldata

def pushZeroWithRet (args : CallArgs) : EvmM (Option SubFrame) := do
  setReturnData []
  expand args.retOff args.retLen
  pushU64 0
  pure none

/-- The value of a `CALL` is moved before its frame runs; `false` is a balance too small. -/
def payTarget (kind : CallKind) (args : CallArgs) : EvmM Bool :=
  if kind = .call ∧ args.transfers kind then do
    let callee := (← get).ctx.callee
    let balance ← host (.balance callee)
    if u256Lt balance args.value then pure false
    else do
      let _ ← host (.transfer callee args.target args.value)
      pure true
  else pure true

def storeOutput (retOff retLen : UInt64) (output : List UInt8) : EvmM Unit := do
  expand retOff retLen
  writeMemory retOff (output.take retLen.toNat)

/-- The three precompiles that read the state, and the others. -/
def runPrecompile (target : Address) (calldata : List UInt8) (forwarded timestamp : UInt64) :
    Program HostRead.Reply PrecompileResult :=
  if target = 0x0A then Z.doPayid calldata forwarded
  else if target = 0x0C then Z.doPriceOracle calldata forwarded
  else if target = 0x0F then Z.doZusdVault calldata forwarded timestamp
  else pure (Z.callPrecompile target calldata forwarded)

def readHost {α : Type} (p : Program HostRead.Reply α) : EvmM α :=
  fun f => (HostRead.adapt p).bind (fun a => .done (.ok a,f))

structure Forward where
  snapshot : SnapshotId
  billed : UInt64
  forwarded : UInt64

def settlePrecompile (args : CallArgs) (fw : Forward) : PrecompileResult → EvmM (Option SubFrame)
  | some (output,gasUsed) => do
    host (.commit fw.snapshot)
    setReturnData output
    storeOutput args.retOff args.retLen output
    refundGas (min (saturatingSub64 fw.forwarded gasUsed) fw.billed)
    pushU64 1
    pure none
  | none => do
    host (.revertTo fw.snapshot)
    pushZeroWithRet args

def doPrecompile (args : CallArgs) (fw : Forward) (calldata : List UInt8) : EvmM (Option SubFrame) := do
  let result ← readHost (runPrecompile Z args.target calldata fw.forwarded (← get).ctx.timestamp)
  settlePrecompile args fw result

def callContext (kind : CallKind) (args : CallArgs) (calldata : List UInt8) (forwarded : UInt64)
    (ctx : EVMContext) : EVMContext :=
  { ctx with
    caller := if kind = .delegateCall then ctx.caller else ctx.callee
    callee := if kind = .callCode ∨ kind = .delegateCall then ctx.callee else args.target
    value := if kind = .delegateCall then ctx.value else if kind = .staticCall then 0 else args.value
    calldata := calldata
    gasLimit := forwarded
    isStatic := if kind = .staticCall then true else ctx.isStatic }

def EVMInterpreter.child (f : EVMInterpreter) (ctx : EVMContext) (code : List UInt8) (frame : CallFrame) :
    EVMInterpreter :=
  { EVMInterpreter.new ctx code with
    frames := f.frames ++ [frame]
    warmAddresses := f.warmAddresses }

/-- The code of the target runs, if there is any. -/
def enterCall (kind : CallKind) (args : CallArgs) (fw : Forward) (calldata : List UInt8) :
    EvmM (Option SubFrame) := do
  let code ← host (.code args.target)
  if code = [] then do
    host (.commit fw.snapshot)
    setReturnData []
    expand args.retOff args.retLen
    refundGas fw.billed
    pushU64 1
    pure none
  else do
    let f ← get
    pure (some
      { kind := .call kind
        frame := f.child (callContext kind args calldata fw.forwarded f.ctx) code ⟨fw.snapshot,fw.forwarded,none⟩
        snapshot := fw.snapshot
        billed := fw.billed
        retOff := args.retOff
        retLen := args.retLen })

/-- A call behind the depth check, under its snapshot. -/
def openCall (kind : CallKind) (args : CallArgs) (fw : Forward) (calldata : List UInt8) :
    EvmM (Option SubFrame) := do
  let paid ← payTarget kind args
  if paid then
    if isPrecompile args.target then doPrecompile Z args fw calldata else enterCall kind args fw calldata
  else do
    host (.revertTo fw.snapshot)
    refundGas fw.billed
    pushZeroWithRet args

/-- `do_call`, up to the frame it starts. -/
def beginCall (kind : CallKind) : EvmM (Option SubFrame) := do
  let args ← popCall kind
  let calldata ← chargeCall kind args
  let f ← get
  if callDepthLimit ≤ f.frames.length then pushZeroWithRet args
  else do
    let billed := forwardGas f.gasRemaining args.gasReq
    let forwarded := saturatingAdd64 billed (if args.transfers kind then gasCallStipend else 0)
    consumeGas billed
    let snapshot ← host .snapshot
    openCall Z kind args ⟨snapshot,billed,forwarded⟩ calldata

def rlpEncodeU64 (n : UInt64) : List UInt8 :=
  if n = 0 then [0x80]
  else if n < 0x80 then [n.toUInt8]
  else
    let trimmed := (beBytes64 n).dropWhile (· == 0)
    UInt8.ofNat (0x80 + trimmed.length) :: trimmed

def createAddress (sender : Address) (nonce : UInt64) : Address :=
  let payload := 0x94 :: (sender.asBytes ++ rlpEncodeU64 nonce)
  (P.keccak256 (UInt8.ofNat (0xC0 + payload.length) :: payload)).setWidth 160

def create2Address (sender : Address) (salt : Word) (initcode : List UInt8) : Address :=
  (P.keccak256 ([0xFF] ++ sender.asBytes ++ salt.toBigEndian ++ (P.keccak256 initcode).asBytes)).setWidth 160

structure CreateArgs where
  value : Word
  off : UInt64
  len : UInt64
  salt : Option Word

def popSalt (withSalt : Bool) : EvmM (Option Word) :=
  if withSalt then do
    let salt ← pop
    pure (some salt)
  else pure none

def popCreate (withSalt : Bool) : EvmM CreateArgs := do
  staticGuard
  let value ← pop
  let off ← popU64
  let len ← popU64
  let salt ← popSalt withSalt
  if maxInitcodeSize < len.toNat then fail (.initcodeOversize len) else pure ⟨value,off,len,salt⟩

/-- The price of the memory, of each word, and of its hash for `CREATE2`. -/
def chargeCreate (args : CreateArgs) : EvmM (List UInt8) := do
  expand args.off args.len
  consumeGas (gasInitcodeWord * wordsOf args.len)
  consumeGas (if args.salt.isSome then 6 * wordsOf args.len else 0)
  readMemory args.off args.len

def pushZero : EvmM (Option SubFrame) := do
  setReturnData []
  push 0
  pure none

/-- The nonce is read for `CREATE` only. -/
def newAddress (callee : Address) (args : CreateArgs) (initcode : List UInt8) : EvmM Address :=
  match args.salt with
  | some salt => pure (create2Address P callee salt initcode)
  | none => do
    let nonce ← host (.nonce callee)
    pure (createAddress P callee nonce)

def incNonce (addr : Address) : EvmM Unit := do
  let r ← host (.incNonce addr)
  let _ ← orFail r

def collides (newAddr : Address) : EvmM Bool := do
  let nonce ← host (.nonce newAddr)
  if 0 < nonce then pure true
  else do
    let code ← host (.code newAddr)
    pure (decide (code ≠ []))

def createContext (newAddr : Address) (value : Word) (forwarded : UInt64) (ctx : EVMContext) : EVMContext :=
  { ctx with
    caller := ctx.callee
    callee := newAddr
    value := value
    calldata := []
    gasLimit := forwarded
    isStatic := false }

/-- The result of the transfer is dropped. -/
def sendValue (callee newAddr : Address) (value : Word) : EvmM Unit :=
  if value = 0 then pure ()
  else do
    let _ ← host (.transfer callee newAddr value)

def enterCreate (withSalt : Bool) (newAddr : Address) (args : CreateArgs) (initcode : List UInt8) :
    EvmM (Option SubFrame) := do
  let callee := (← get).ctx.callee
  let snapshot ← host .snapshot
  sendValue callee newAddr args.value
  incNonce newAddr
  host (.markCreatedThisTx newAddr)
  let gas := (← get).gasRemaining
  let forwarded := forwardGas gas gas
  consumeGas forwarded
  let f ← get
  pure (some
    { kind := .create withSalt
      frame := f.child (createContext newAddr args.value forwarded f.ctx) initcode ⟨snapshot,forwarded,some newAddr⟩
      snapshot := snapshot
      billed := forwarded
      retOff := 0
      retLen := 0 })

/-- `do_create`, up to the frame it starts. -/
def beginCreate (withSalt : Bool) : EvmM (Option SubFrame) := do
  let args ← popCreate withSalt
  let initcode ← chargeCreate args
  let f ← get
  if callDepthLimit ≤ f.frames.length then pushZero
  else do
    let balance ← host (.balance f.ctx.callee)
    if u256Lt balance args.value then pushZero
    else do
      let newAddr ← newAddress P f.ctx.callee args initcode
      incNonce f.ctx.callee
      let taken ← collides newAddr
      if taken then pushZero else enterCreate withSalt newAddr args initcode

def takeLogs (child : EVMInterpreter) : EvmM Unit := modify (fun f => { f with logs := f.logs ++ child.logs })

/-- The warm addresses stay warm, and the gas left goes back as far as it was billed. -/
def settleChild (sub : SubFrame) (child : EVMInterpreter) : EvmM Unit := do
  modify (fun f => { f with warmAddresses := child.warmAddresses })
  refundGas (min (saturatingSub64 sub.frame.ctx.gasLimit child.gasUsed) sub.billed)

/-- The rest of `do_call`. -/
def resumeCall (sub : SubFrame) (status : ExitStatus) (child : EVMInterpreter) : EvmM Unit := do
  if status = .succeeded then do
    host (.commit sub.snapshot)
    takeLogs child
  else host (.revertTo sub.snapshot)
  settleChild sub child
  setReturnData child.returnData
  storeOutput sub.retOff sub.retLen child.returnData
  pushU64 (if status = .succeeded then 1 else 0)

/-- A creation that comes to nothing. -/
def undoCreate (sub : SubFrame) (data : List UInt8) : EvmM Unit := do
  host (.revertTo sub.snapshot)
  setReturnData data
  push 0

def deploy (sub : SubFrame) (child : EVMInterpreter) : EvmM Unit := do
  let deployed := child.returnData
  let depositCost := gasCodeDepositPerByte * UInt64.ofNat deployed.length
  if maxContractCodeSize < deployed.length then undoCreate sub []
  else if deployed.head? = some 0xEF then undoCreate sub []
  else if (← get).gasRemaining < depositCost then undoCreate sub []
  else do
    consumeGas depositCost
    host (.setCode sub.frame.ctx.callee deployed)
    host (.commit sub.snapshot)
    takeLogs child
    setReturnData []
    pushAddress sub.frame.ctx.callee

/-- The rest of `do_create`. -/
def resumeCreate (sub : SubFrame) (status : ExitStatus) (child : EVMInterpreter) : EvmM Unit := do
  settleChild sub child
  if status = .succeeded then deploy sub child else undoCreate sub child.returnData

def beginFrame : FrameKind → EvmM (Option SubFrame)
  | .call kind => beginCall Z kind
  | .create withSalt => beginCreate P withSalt

def resumeFrame (sub : SubFrame) (status : ExitStatus) (child : EVMInterpreter) : EvmM Unit :=
  match sub.kind with
  | .call _ => resumeCall sub status child
  | .create _ => resumeCreate sub status child

end Calls

inductive Outcome where
  | next (f : EVMInterpreter)
  | enter (f : EVMInterpreter) (sub : SubFrame)
  | halt (status : ExitStatus) (f : EVMInterpreter)
  | panicked

def EVMInterpreter.advance (f : EVMInterpreter) : EVMInterpreter := { f with pc := f.pc + 1 }

/-- An error ends the frame, a panic the process. -/
def conclude {α : Type} (k : α → EVMInterpreter → Outcome) : Except EvmFault α × EVMInterpreter → Outcome
  | (.ok a,f) => k a f
  | (.error (.error e),f) => .halt (.failed e) f
  | (.error .panicked,_) => .panicked

def EvmM.outcome {α : Type} (p : EvmM α) (k : α → EVMInterpreter → Outcome) (f : EVMInterpreter) :
    Program EvmCall.Reply Outcome := (p f).bind (fun r => .done (conclude k r))

def Flow.outcome (f : EVMInterpreter) : Flow → Outcome
  | .goOn => .next f.advance
  | .jumped => .next f
  | .exit status => .halt status f

section Loop
variable (P : Platform) (Z : Precompiles)

/-- An opcode whose static price is paid. -/
def perform (op : Opcode) (f : EVMInterpreter) : Program EvmCall.Reply Outcome :=
  match op.frameKind with
  | some kind => (beginFrame P Z kind).outcome (fun sub f => (sub.map (.enter f)).getD (.next f.advance)) f
  | none => (dispatch P op).outcome (fun flow f => flow.outcome f) f

/-- `step`, up to the frame it starts. -/
def step (f : EVMInterpreter) : Program EvmCall.Reply Outcome :=
  match f.code[f.pc]? with
  | none => .done (.halt .succeeded f)
  | some byte =>
    match Opcode.fromU8 byte with
    | none => .done (.halt (.failed (.invalidOpcode byte)) f)
    | some op =>
      if f.gasRemaining < op.staticGas then .done (.halt (.failed .outOfGas) f)
      else perform P Z op { f with gasRemaining := f.gasRemaining - op.staticGas }

def resume (f : EVMInterpreter) (sub : SubFrame) (status : ExitStatus) (child : EVMInterpreter) :
    Program EvmCall.Reply Outcome :=
  (resumeFrame sub status child).outcome (fun _ f => .next f.advance) f

inductive RunEnd where
  | finished (status : ExitStatus) (f : EVMInterpreter)
  | panicked
  | outOfFuel

/-- What a frame does behind a frame that it started. -/
def comeBack (f : EVMInterpreter) (sub : SubFrame) : RunEnd → Program EvmCall.Reply (Option Outcome)
  | .finished status child => do
    let o ← resume f sub status child
    pure (some o)
  | .panicked => pure (some .panicked)
  | .outOfFuel => pure none

/-- One round with all it starts, over a way to run a frame; it runs out of fuel as the frame
that it starts does. -/
def round (run : EVMInterpreter → Program EvmCall.Reply RunEnd) (f : EVMInterpreter) :
    Program EvmCall.Reply (Option Outcome) := do
  match ← step P Z f with
  | .enter f sub => do
    let done ← run sub.frame
    comeBack f sub done
  | o => pure (some o)

/-- `run`, with at most `fuel` rounds on each way through the frames. -/
def run : ℕ → EVMInterpreter → Program EvmCall.Reply RunEnd
  | 0, _ => .done .outOfFuel
  | fuel + 1, f => do
    match ← round P Z (run fuel) f with
    | none => pure .outOfFuel
    | some (.next f) => run fuel f
    | some (.halt status f) => pure (.finished status f)
    | some _ => pure .panicked

end Loop

def noPrecompiles : Precompiles :=
  { callPrecompile := fun _ _ _ => none
    doPayid := fun _ _ => pure none
    doPriceOracle := fun _ _ => pure none
    doZusdVault := fun _ _ _ => pure none }

def plainContext (gasLimit : UInt64) : EVMContext :=
  { caller := 0x200
    callee := 0x100
    value := 0
    calldata := []
    gasLimit := gasLimit
    isStatic := false
    blockNumber := 0
    timestamp := 0
    coinbase := 0
    baseFee := 0
    gasPrice := 0
    txOrigin := 0x200
    chainId := 0
    randaoMix := 0 }

end ZbxChain.Evm
