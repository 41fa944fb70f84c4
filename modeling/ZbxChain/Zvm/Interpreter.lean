import ZbxChain.Zvm.Dispatch

/-! # `ZvmInterpreter`: calls, creations and the loop

An opcode that starts a frame is taken apart into what it does before the frame runs and
what it does after it. The precompiles are parameters; those that read the state do so by
the three calls their adapters have.
-/
namespace ZbxChain.Zvm
open FrameOp

/-- What the precompiles 0x0A, 0x0C and 0x0F see of the host. -/
inductive HostRead where
  | resolve (name : List UInt8)
  | reverse (addr : Address)
  | readSlot (addr : Address) (slot : H256)

namespace HostRead

def toCall : HostRead → ZvmCall
  | resolve name => .resolvePayIdBytes name
  | reverse addr => .reversePayId addr
  | readSlot addr slot => .storageLoad addr slot

@[reducible] def Reply (r : HostRead) : Type := r.toCall.Reply

def adapt {α : Type} : Program Reply α → Program ZvmCall.Reply α
  | .done a => .done a
  | .call r next => .call r.toCall (fun x => adapt (next x))

end HostRead

/-- What a precompile gives: its output and the gas it used, `none` where it fails. -/
abbrev PrecompileResult := Option (List UInt8 × UInt64)

structure Precompiles where
  callPrecompile : Address → List UInt8 → UInt64 → PrecompileResult
  payidResolveWith : List UInt8 → UInt64 → Program HostRead.Reply PrecompileResult
  priceOracleWith : List UInt8 → UInt64 → Program HostRead.Reply PrecompileResult
  zusdVaultWith : List UInt8 → UInt64 → UInt64 → Program HostRead.Reply PrecompileResult

inductive ZvmCallKind where
  | call
  | callCode
  | delegateCall
  | staticCall
  deriving DecidableEq

/-- What starts a frame; `create true` is `CREATE2`. -/
inductive FrameKind where
  | call (kind : ZvmCallKind)
  | create (withSalt : Bool)
  deriving DecidableEq

def Opcode.frameKind : Opcode → Option FrameKind
  | CALL => some (.call .call)
  | CALLCODE => some (.call .callCode)
  | DELEGATECALL => some (.call .delegateCall)
  | STATICCALL => some (.call .staticCall)
  | CREATE => some (.create false)
  | CREATE2 => some (.create true)
  | _ => none

def callDepthLimit : ℕ := 1024

structure SubFrame where
  kind : FrameKind
  frame : ZvmInterpreter
  retOff : UInt64
  retLen : UInt64

section Calls
variable (P : Platform) (Z : Precompiles)

structure CallArgs where
  gasReq : UInt64
  target : Address
  value : ℕ
  argsOff : UInt64
  argsLen : UInt64
  retOff : UInt64
  retLen : UInt64

def ZvmCallKind.popsValue : ZvmCallKind → Bool
  | call | callCode => true
  | delegateCall | staticCall => false

def popValue (kind : ZvmCallKind) : FrameOp ℕ := if kind.popsValue then popU128 else pure 0

/-- No value is sent from a static frame. -/
def valueGuard (kind : ZvmCallKind) (value : ℕ) : FrameOp Unit := do
  if kind.popsValue ∧ (← get).ctx.isStatic ∧ 0 < value then fail .staticStateChange else pure ()

/-- The operands, the guard of a static frame, and the gas of the target and the memory. -/
def popCall (kind : ZvmCallKind) : FrameOp CallArgs := do
  let gasReq ← popU64
  let target ← popAddress
  let value ← popValue kind
  valueGuard kind value
  let argsOff ← popU64
  let argsLen ← popU64
  let retOff ← popU64
  let retLen ← popU64
  touchAddress target
  chargeMemExpansion (saturatingAdd64 argsOff argsLen)
  chargeMemExpansion (saturatingAdd64 retOff retLen)
  pure ⟨gasReq,target,value,argsOff,argsLen,retOff,retLen⟩

def setReturnData (data : List UInt8) : FrameOp Unit := modify ({ · with returnData := data })

/-- No frame is started, and 0 is pushed. -/
def giveUp : FrameM (Option SubFrame) := do
  setReturnData []
  push 0
  pure none

/-- `store8` of each byte. -/
def storeBytes : UInt64 → List UInt8 → FrameOp Unit
  | _, [] => pure ()
  | off, b :: rest => do
    writeMemory (·.store8 off b)
    storeBytes (off + 1) rest

/-- The three precompiles that read the state, and the others. -/
def runPrecompile (target : Address) (calldata : List UInt8) (avail timestamp : UInt64) :
    Program HostRead.Reply PrecompileResult :=
  if target = 0x0A then Z.payidResolveWith calldata avail
  else if target = 0x0C then Z.priceOracleWith calldata avail
  else if target = 0x0F then Z.zusdVaultWith calldata avail timestamp
  else pure (Z.callPrecompile target calldata avail)

def readHost {α : Type} (p : Program HostRead.Reply α) : FrameM α :=
  fun f => (HostRead.adapt p).bind (fun a => .done (.ok a,f))

def settlePrecompile (args : CallArgs) : PrecompileResult → FrameOp Unit
  | some (output,gasUsed) => do
    modify (fun f => { f with gas := saturatingSub64 f.gas gasUsed })
    storeBytes args.retOff (output.take args.retLen.toNat)
    setReturnData output
    push 1
  | none => do
    setReturnData []
    push 0

def doPrecompileCall (args : CallArgs) (calldata : List UInt8) : FrameM (Option SubFrame) := do
  let f ← get
  let result ← readHost (runPrecompile Z args.target calldata (min args.gasReq f.gas)
    f.ctx.blockTimestamp)
  settlePrecompile args result
  pure none

/-- A transfer from the frame's contract, whose failure ends the frame. -/
def send (dest : Address) (value : ℕ) : FrameM Unit := do
  let sent ← host (.transfer (← get).ctx.contract dest value)
  if sent then pure () else fail .insufficientBalance

def sendValue (dest : Address) (value : ℕ) : FrameM Unit :=
  if 0 < value then send dest value else pure ()

/-- The value of a `CALL` is moved before its frame runs; `false` is a balance too small. -/
def payTarget (kind : ZvmCallKind) (args : CallArgs) : FrameM Bool :=
  if kind = .call ∧ 0 < args.value then do
    let balance ← host (.balance (← get).ctx.contract)
    if balance < args.value then pure false
    else
      send args.target args.value
      pure true
  else pure true

def forwardGas (bound : UInt64) : FrameOp UInt64 := do
  let f ← get
  let forwarded := min bound (f.gas / 64 * 63)
  set { f with gas := saturatingSub64 f.gas forwarded }
  pure forwarded

def callContext (kind : ZvmCallKind) (args : CallArgs) (code calldata : List UInt8)
    (forwarded : UInt64) (ctx : ZvmContext) : ZvmContext :=
  { ctx with
    bytecode := code
    calldata := calldata
    caller := if kind = .delegateCall then ctx.caller else ctx.contract
    contract := if kind = .delegateCall then ctx.contract else args.target
    value := if kind = .delegateCall then ctx.value else args.value
    gasLimit := forwarded
    isStatic := ctx.isStatic || decide (kind = .staticCall)
    aaSender := none }

def ZvmInterpreter.child (f : ZvmInterpreter) (ctx : ZvmContext) : ZvmInterpreter :=
  { ZvmInterpreter.new ctx with
    depth := f.depth + 1
    accessedAddresses := f.accessedAddresses
    accessedSlots := f.accessedSlots }

/-- The target of a call that is let through and no precompile. -/
def enterCall (kind : ZvmCallKind) (args : CallArgs) (calldata : List UInt8) :
    FrameM (Option SubFrame) := do
  let code ← host (.code args.target)
  let paid ← payTarget kind args
  if paid then
    let forwarded ← forwardGas args.gasReq
    let f ← get
    pure (some ⟨.call kind,f.child (callContext kind args code calldata forwarded f.ctx),
      args.retOff,args.retLen⟩)
  else giveUp

/-- `do_call`, up to the frame it starts. -/
def beginCall (kind : ZvmCallKind) : FrameM (Option SubFrame) := do
  let args ← popCall kind
  if callDepthLimit ≤ (← get).depth then giveUp
  else
    let calldata ← readSlice args.argsOff args.argsLen
    if isPrecompile args.target then doPrecompileCall Z args calldata
    else
      let allowed ← host (.isCallAllowed args.target)
      if allowed then enterCall kind args calldata else giveUp

/-- `nonce_bytes` without leading zeros, of which the last byte is kept. -/
def compactNonce (nonce : UInt64) : List UInt8 :=
  let leading := ((beBytes64 nonce).takeWhile (· == 0)).length
  (beBytes64 nonce).drop (min leading 7)

def createAddress (creator : Address) (nonce : UInt64) : Address :=
  let compact := compactNonce nonce
  let creatorRlp := 0x94 :: creator.asBytes
  let nonceRlp :=
    if nonce = 0 then [0x80]
    else if compact.length = 1 ∧ (compact.headD 0).toNat < 0x80 then compact
    else UInt8.ofNat (0x80 + compact.length) :: compact
  let payloadLen := creatorRlp.length + nonceRlp.length
  (P.keccak256 (UInt8.ofNat (0xC0 + payloadLen) :: (creatorRlp ++ nonceRlp))).setWidth 160

def create2Address (creator : Address) (salt : U256) (initcode : List UInt8) : Address :=
  (P.keccak256 ([0xFF] ++ creator.asBytes ++ salt.toBigEndian ++ (P.keccak256 initcode).asBytes)).setWidth 160

def maxInitcodeSize : ℕ := 2 * 24576

def maxCodeSize : ℕ := 24576

structure CreateArgs where
  value : ℕ
  off : UInt64
  len : UInt64
  salt : Option U256

def popSalt (withSalt : Bool) : FrameOp (Option U256) :=
  if withSalt then do
    let salt ← pop
    pure (some salt)
  else pure none

def popCreate (withSalt : Bool) : FrameOp CreateArgs := do
  staticGuard
  let value ← popU128
  let off ← popU64
  let len ← popU64
  let salt ← popSalt withSalt
  pure ⟨value,off,len,salt⟩

/-- The price of each word, that of its hash for `CREATE2`, and that of the memory. -/
def chargeCreate (args : CreateArgs) : FrameOp Unit := do
  chargeGas (saturatingMul64 2 (wordsOf args.len))
  chargeGas (if args.salt.isSome then keccak256DynamicGas args.len else 0)
  chargeMemExpansion (saturatingAdd64 args.off args.len)

/-- 0 is pushed, and the data returned last stay. -/
def refuse : FrameM (Option SubFrame) := do
  push 0
  pure none

def createContext (newAddr : Address) (value : ℕ) (initcode : List UInt8) (forwarded : UInt64)
    (ctx : ZvmContext) : ZvmContext :=
  { ctx with
    bytecode := initcode
    calldata := []
    caller := ctx.contract
    contract := newAddr
    value := value
    gasLimit := forwarded
    isStatic := false
    aaSender := none }

def newAddress (creator : Address) (creatorNonce : UInt64) (args : CreateArgs)
    (initcode : List UInt8) : Address :=
  match args.salt with
  | some salt => create2Address P creator salt initcode
  | none => createAddress P creator creatorNonce

def collides (newAddr : Address) : FrameM Bool := do
  let code ← host (.code newAddr)
  if code ≠ [] then pure true
  else
    let nonce ← host (.nonce newAddr)
    pure (decide (0 < nonce))

/-- The new account, with the value and its first nonce. -/
def enterCreate (withSalt : Bool) (newAddr : Address) (args : CreateArgs) (initcode : List UInt8) :
    FrameM (Option SubFrame) := do
  sendValue newAddr args.value
  let _ ← host (.incNonce newAddr)
  let forwarded ← forwardGas (UInt64.ofNat (2 ^ 64 - 1))
  let f ← get
  pure (some ⟨.create withSalt,
    f.child (createContext newAddr args.value initcode forwarded f.ctx),0,0⟩)

/-- `do_create`, up to the frame it starts. -/
def beginCreate (withSalt : Bool) : FrameM (Option SubFrame) := do
  let args ← popCreate withSalt
  if maxInitcodeSize < args.len.toNat then giveUp
  else
    chargeCreate args
    if callDepthLimit ≤ (← get).depth then giveUp
    else
      let contract := (← get).ctx.contract
      let balance ← host (.balance contract)
      if balance < args.value then refuse
      else
        let initcode ← readSlice args.off args.len
        let creatorNonce ← host (.nonce contract)
        let newAddr := newAddress P contract creatorNonce args initcode
        let _ ← host (.incNonce contract)
        let taken ← collides newAddr
        if taken then refuse else enterCreate withSalt newAddr args initcode

def mergeChild (result : ZvmResult) (child : ZvmInterpreter) : FrameOp Unit :=
  modify (fun f => { f with
    accessedAddresses := child.accessedAddresses ∪ f.accessedAddresses
    accessedSlots := child.accessedSlots ∪ f.accessedSlots
    gas := saturatingAdd64 f.gas result.gasRemaining })

/-- The rest of `do_call`. -/
def resumeCall (sub : SubFrame) (result : ZvmResult) : FrameOp Unit := do
  setReturnData result.returnData
  storeBytes sub.retOff (result.returnData.take sub.retLen.toNat)
  pushBool (decide (result.status = .success))

def deploy (newAddr : Address) (deployed : List UInt8) : FrameM Unit := do
  let depositCost := 200 * UInt64.ofNat deployed.length
  if maxCodeSize < deployed.length then push 0
  else if deployed.head? = some 0xEF then push 0
  else if (← get).gas < depositCost then push 0
  else
    modify (fun f => { f with gas := f.gas - depositCost })
    host (.setCode newAddr deployed)
    host (.markCreatedThisTx newAddr)
    setReturnData []
    pushAddress newAddr

/-- The rest of `do_create`. -/
def resumeCreate (sub : SubFrame) (result : ZvmResult) : FrameM Unit :=
  if result.status = .success then deploy sub.frame.ctx.contract result.returnData
  else do
    setReturnData result.returnData
    push 0

def beginFrame : FrameKind → FrameM (Option SubFrame)
  | .call kind => beginCall Z kind
  | .create withSalt => beginCreate P withSalt

def startFrame (kind : FrameKind) : FrameM (Option SubFrame) := do
  let sub ← beginFrame P Z kind
  if sub.isNone then advance
  pure sub

def resumeOpcode (sub : SubFrame) (result : ZvmResult) : FrameM Unit :=
  match sub.kind with
  | .call _ => resumeCall sub result
  | .create _ => resumeCreate sub result

def resumeFrame (sub : SubFrame) (result : ZvmResult) (child : ZvmInterpreter) : FrameM Unit := do
  mergeChild result child
  resumeOpcode sub result
  advance

end Calls

inductive Outcome where
  | next (f : ZvmInterpreter)
  | enter (f : ZvmInterpreter) (sub : SubFrame)
  | halt (result : ZvmResult) (f : ZvmInterpreter)
  | panicked

/-- An error ends the frame, a panic the process. -/
def conclude {α : Type} (k : α → ZvmInterpreter → Outcome) :
    Except ZvmFault α × ZvmInterpreter → Outcome
  | (.ok a,f) => k a f
  | (.error (.error e),f) => .halt (f.finish (.zvmError e.display)) f
  | (.error .panicked,_) => .panicked

def FrameM.outcome {α : Type} (p : FrameM α) (k : α → ZvmInterpreter → Outcome)
    (f : ZvmInterpreter) : Program ZvmCall.Reply Outcome :=
  (p f).bind (fun r => .done (conclude k r))

section Loop
variable (P : Platform) (Z : Precompiles)

def execute (op : Opcode) (f : ZvmInterpreter) : Program ZvmCall.Reply Outcome :=
  match op.frameKind with
  | some kind => (startFrame P Z kind).outcome (fun sub f => (sub.map (.enter f)).getD (.next f)) f
  | none => (dispatch P op).outcome (fun result f => (result.map (.halt · f)).getD (.next f)) f

/-- One round of the loop of `run`. -/
def step (f : ZvmInterpreter) : Program ZvmCall.Reply Outcome :=
  match f.ctx.bytecode[f.pc]? with
  | none => .done (.halt (f.finish .success) f)
  | some byte =>
    match Opcode.fromU8 byte with
    | none => .done (.halt (f.finish (.invalidOpcode byte)) f)
    | some op =>
      if f.gas < op.gas then .done (.halt (f.finish .outOfGas) f)
      else execute P Z op { f with gas := f.gas - op.gas }

def resume (f : ZvmInterpreter) (sub : SubFrame) (result : ZvmResult) (child : ZvmInterpreter) :
    Program ZvmCall.Reply Outcome :=
  (resumeFrame sub result child).outcome (fun _ f => .next f) f

inductive RunEnd where
  | finished (result : ZvmResult) (f : ZvmInterpreter)
  | panicked
  | outOfFuel

/-- `run`, with at most `fuel` rounds on each way through the frames. -/
def run : ℕ → ZvmInterpreter → Program ZvmCall.Reply RunEnd
  | 0, _ => .done .outOfFuel
  | fuel + 1, f => do
    match ← step P Z f with
    | .next f => run fuel f
    | .halt result f => pure (.finished result f)
    | .panicked => pure .panicked
    | .enter f sub =>
      match ← run fuel sub.frame with
      | .outOfFuel => pure .outOfFuel
      | .panicked => pure .panicked
      | .finished result child =>
        match ← resume f sub result child with
        | .next f => run fuel f
        | .halt result f => pure (.finished result f)
        | .panicked | .enter _ _ => pure .panicked

/-- Every round but the last one of a frame costs gas. -/
def runTop (ctx : ZvmContext) : Program ZvmCall.Reply RunEnd :=
  run P Z (ctx.gasLimit.toNat + 1) (.new ctx)

/-- A run as the executor sees it; after a panic there is no one to see. -/
def runForExecutor (ctx : ZvmContext) : Program ZvmCall.Reply (ZvmStatus × UInt64) := do
  match ← runTop P Z ctx with
  | .finished result _ => pure (result.status,result.gasUsed)
  | .panicked | .outOfFuel => pure (.zvmError "",ctx.gasLimit)

end Loop

def noPrecompiles : Precompiles :=
  { callPrecompile := fun _ _ _ => none
    payidResolveWith := fun _ _ => pure none
    priceOracleWith := fun _ _ => pure none
    zusdVaultWith := fun _ _ _ => pure none }

end ZbxChain.Zvm
