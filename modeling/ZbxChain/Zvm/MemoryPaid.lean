import ZbxChain.Zvm.MemoryCharges

/-! # Memory that is paid for

A call is charged for its operands and for its output before its frame runs; what the frame
returns is stored behind it. So a run keeps the memory of each of its frames paid for, where
no output window wraps and the texts that are read free of charge are covered.
-/
namespace ZbxChain.Zvm
open FrameOp FrameM

section Calls
variable {σ α : Type} {h : Program.Handler ZvmCall.Reply σ} {n : ℕ} {f : ZvmInterpreter} {retOff retLen : UInt64}

def OutputEnds (retOff retLen : UInt64) : Prop := retLen = 0 ∨ retOff.toNat + retLen.toNat + 31 < 2 ^ 64

def outputWords (retOff retLen : UInt64) : ℕ := if retLen = 0 then 0 else (retOff.toNat + retLen.toNat + 31) / 32

theorem outputWords_le (hends : OutputEnds retOff retLen) :
    outputWords retOff retLen ≤ (wordsOf (saturatingAdd64 retOff retLen)).toNat := by
  unfold outputWords
  split
  · exact Nat.zero_le _
  · rename_i hlen
    have hend := hends.resolve_left hlen
    have hsum : (saturatingAdd64 retOff retLen).toNat = retOff.toNat + retLen.toNat := by
      rw [toNat_saturatingAdd64]
      omega
    rw [ZvmMemory.toNat_wordsOf (by omega), hsum]

theorem stored_le (data : List UInt8) (hstored : data.take retLen.toNat ≠ []) :
    (retOff.toNat + (data.take retLen.toNat).length + 31) / 32 ≤ outputWords retOff retLen := by
  have hlen : retLen ≠ 0 := by
    rintro rfl
    exact hstored rfl
  have htake := List.length_take_le retLen.toNat data
  rw [outputWords, if_neg hlen]
  omega

/-- The output of a call is written into memory that was paid before. -/
theorem paysTo_storeOutput {data : List UInt8} (hn : outputWords retOff retLen ≤ n) :
    PaysTo h n (liftM (storeBytes retOff (data.take retLen.toNat))) fun _ f => f.Covers n :=
  paysTo_storeBytes fun hstored => (stored_le data hstored).trans hn

/-- A frame that waits for one that it started: the output window is covered, and the gas of
both is not charged yet. -/
structure ZvmInterpreter.Lends (f : ZvmInterpreter) (sub : SubFrame) : Prop where
  bounded : f.memory.Bounded
  price : cappedPrice (max f.memory.wordCount (outputWords sub.retOff sub.retLen)) +
    (f.gas.toNat + sub.frame.gas.toNat) ≤ f.ctx.gasLimit.toNat

theorem ZvmInterpreter.Lends.covers {sub : SubFrame} (hf : f.Lends sub) : f.Covers 0 := by
  refine ⟨hf.bounded,?_⟩
  have hprice := hf.price
  have hless : cappedPrice (max f.memory.wordCount 0) ≤
      cappedPrice (max f.memory.wordCount (outputWords sub.retOff sub.retLen)) := cappedPrice_mono (by omega)
  omega

def Begun : Option SubFrame → ZvmInterpreter → Prop
  | none, f => f.Covers 0
  | some sub, f => f.Lends sub

theorem begun_none : PaysTo h n (pure none) Begun := paysTo_pure fun _ hf => hf.paid

theorem begun_giveUp : PaysTo h n giveUp Begun :=
  (steady_setReturnData _).bind_to fun _ => (steady_push _).bind_to fun _ => begun_none

theorem begun_refuse : PaysTo h n refuse Begun := (steady_push _).bind_to fun _ => begun_none

/-- A frame that begins has a limit that its parent has paid. -/
theorem begun_enter (kind : FrameKind) (bound : UInt64) (context : UInt64 → ZvmContext → ZvmContext)
    (hlimit : ∀ forwarded ctx, (context forwarded ctx).gasLimit = forwarded)
    (hn : outputWords retOff retLen ≤ n) :
    PaysTo h n (do
      let forwarded ← forwardGas bound
      let f ← get
      pure (some ⟨kind,f.child (context forwarded f.ctx),retOff,retLen⟩)) Begun := by
  rintro f s ⟨hbounded,hprice⟩
  have hgas := toNat_forwarded bound f.gas
  have hforwarded : (saturatingSub64 f.gas (min bound (f.gas / 64 * 63))).toNat +
      (context (min bound (f.gas / 64 * 63)) f.ctx).gasLimit.toNat ≤ f.gas.toNat := by
    rw [hlimit]
    exact hgas
  refine ⟨fun hf => ⟨hf.1,?_⟩,⟨hbounded,?_⟩⟩
  · have hless : (saturatingSub64 f.gas (min bound (f.gas / 64 * 63))).toNat ≤ f.gas.toNat := by omega
    exact (Nat.add_le_add_left hless _).trans hf.2
  · have hwords : cappedPrice (max f.memory.wordCount (outputWords retOff retLen)) ≤
        cappedPrice (max f.memory.wordCount n) := cappedPrice_mono (by omega)
    exact (Nat.add_le_add hwords hforwarded).trans hprice

/-- No output window of a call wraps. -/
def CallCovered (kind : ZvmCallKind) (f : ZvmInterpreter) : Prop :=
  ∀ args f', popCall kind f = (.ok args,f') → OutputEnds args.retOff args.retLen

theorem paysTo_popCall (kind : ZvmCallKind) : PaysTo h 0 (liftM (popCall kind)) fun args f =>
    f.Covers (max (wordsOf (saturatingAdd64 args.argsOff args.argsLen)).toNat
      (wordsOf (saturatingAdd64 args.retOff args.retLen)).toNat) := by
  have hvalue : Steady h (liftM (popValue kind)) := by
    apply Steady.lift (spending_popValue kind)
    exact Keeps.ite (Keeps.popU128 fun _ _ => rfl) (Keeps.pure 0)
  have hguard : ∀ value, Steady h (liftM (valueGuard kind value)) := by
    intro value
    apply Steady.lift
    · exact .get_bind fun _ => .ite (.throw _) (.pure ())
    · exact .get_bind fun _ => .ite (.throw _) (.pure ())
  exact steady_popU64.op_bind fun _ => steady_popAddress.op_bind fun _ => hvalue.op_bind fun value =>
    (hguard value).op_bind fun _ => steady_popU64.op_bind fun _ => steady_popU64.op_bind fun _ =>
    steady_popU64.op_bind fun _ => steady_popU64.op_bind fun _ => (steady_touchAddress _).op_bind fun _ =>
    (paysTo_window _).op_bind fun _ => (paysTo_charge _).op_bind fun _ => paysTo_pure fun _ hf => hf

theorem steady_readHost (p : Program HostRead.Reply α) : Steady h (readHost p) := by
  intro n f s hf
  induction p generalizing s with
  | done a => exact ⟨id,hf⟩
  | call i next ih => exact ih _ _

theorem paysTo_settlePrecompile {args : CallArgs} (result : PrecompileResult)
    (hn : outputWords args.retOff args.retLen ≤ n) : Pays h n (liftM (settlePrecompile args result)) := by
  cases result with
  | none => exact (steady_setReturnData _).op_bind fun _ => (steady_push _).pays
  | some result =>
    obtain ⟨output,gasUsed⟩ := result
    exact (Steady.lift (spending_useGas gasUsed) (.modify fun _ => rfl)).op_bind fun _ => (paysTo_storeOutput hn).op_bind fun _ =>
      (steady_setReturnData _).op_bind fun _ => (steady_push _).pays

theorem steady_send (dest : Address) (value : ℕ) : Steady h (send dest value) :=
  .get_bind fun _ => (Steady.host _).bind fun _ => .ite (.pure ()) (steady_fail _)

theorem steady_payTarget (kind : ZvmCallKind) (args : CallArgs) : Steady h (payTarget kind args) :=
  .ite (.get_bind fun _ => (Steady.host _).bind fun _ => .ite (.pure _) ((steady_send _ _).bind fun _ => .pure _))
    (.pure _)

theorem begun_enterCall (kind : ZvmCallKind) {args : CallArgs} (calldata : List UInt8)
    (hn : outputWords args.retOff args.retLen ≤ n) : PaysTo h n (enterCall kind args calldata) Begun :=
  (Steady.host _).bind_to fun code => (steady_payTarget kind args).bind_to fun _ => .ite
    (begun_enter (.call kind) args.gasReq (callContext kind args code calldata) (fun _ _ => rfl) hn) begun_giveUp

theorem begun_call (Z : Precompiles) (kind : ZvmCallKind) :
    PaysFrom h (fun f => f.Covers 0 ∧ CallCovered kind f) (beginCall Z kind) Begun := by
  refine (paysTo_popCall kind).bind_from (fun _ hf => hf.1) (fun _ args f' hf => hf.2 args f') fun args hends => ?_
  have hn := (outputWords_le hends).trans (le_max_right
    (wordsOf (saturatingAdd64 args.argsOff args.argsLen)).toNat _)
  exact PaysTo.get_bind fun _ => .ite begun_giveUp <|
    (paysTo_readSlice (Nat.le_max_left _ _)).bind fun calldata => .ite
    (.get_bind fun _ => (steady_readHost _).bind_to fun result =>
      (paysTo_settlePrecompile result hn).bind fun _ => begun_none)
    ((Steady.host _).bind_to fun _ => .ite (begun_enterCall kind calldata hn) begun_giveUp)

theorem steady_collides (addr : Address) : Steady h (collides addr) :=
  (Steady.host _).bind fun _ => .ite (.pure _) ((Steady.host _).bind fun _ => .pure _)

theorem begun_enterCreate (withSalt : Bool) (newAddr : Address) (args : CreateArgs) (initcode : List UInt8) :
    PaysTo h n (enterCreate withSalt newAddr args initcode) Begun := by
  have hsend : Steady h (sendValue newAddr args.value) := .ite (steady_send _ _) (.pure ())
  exact hsend.bind_to fun _ => (Steady.host _).bind_to fun _ =>
    begun_enter (.create withSalt) _ (createContext newAddr args.value initcode) (fun _ _ => rfl) (Nat.zero_le n)

theorem steady_popCreate (withSalt : Bool) : Steady h (liftM (popCreate withSalt)) := by
  apply Steady.lift (spending_popCreate withSalt)
  intro f
  exact congrArg (·.2.2.1) (keeps_popCreate withSalt f)

theorem begun_create (P : Platform) (withSalt : Bool) : PaysTo h 0 (beginCreate P withSalt) Begun := by
  have hcharge : ∀ args : CreateArgs, PaysTo h 0 (liftM (chargeCreate args)) fun _ f =>
      f.Covers (wordsOf (saturatingAdd64 args.off args.len)).toNat := fun args =>
    (steady_chargeGas _).op_bind fun _ => (steady_chargeGas _).op_bind fun _ => paysTo_window _
  exact (steady_popCreate withSalt).bind_to fun args => .ite begun_giveUp <|
    (hcharge args).bind fun _ => .get_bind fun _ => .ite begun_giveUp <| .get_bind fun _ =>
    (Steady.host _).bind_to fun _ => .ite begun_refuse <| (paysTo_readSlice le_rfl).bind fun initcode =>
    (Steady.host _).bind_to fun _ => (Steady.host _).bind_to fun _ => (steady_collides _).bind_to fun _ =>
    .ite begun_refuse (begun_enterCreate withSalt _ args initcode)

theorem steady_deploy (newAddr : Address) (deployed : List UInt8) : Steady h (deploy newAddr deployed) := by
  unfold deploy
  dsimp only
  refine .ite (steady_push _) (.ite (steady_push _) ?_)
  have hdeployed : Steady h (do
      host (.setCode newAddr deployed)
      host (.markCreatedThisTx newAddr)
      setReturnData []
      FrameOp.pushAddress newAddr) :=
    (Steady.host _).bind fun _ => (Steady.host _).bind fun _ => (steady_setReturnData _).bind fun _ => steady_push _
  intro n f s hf
  refine Framed.after_get_bind.mpr ?_
  split
  · exact steady_push _ n f s hf
  · rename_i henough
    obtain ⟨hstays,hend⟩ := hdeployed n { f with gas := f.gas - 200 * UInt64.ofNat deployed.length } s
      (hf.spend (spends_charge henough) rfl)
    exact ⟨fun hcovers => hstays (hcovers.spend (spends_charge henough) rfl),hend⟩

theorem pays_resumeOpcode {sub : SubFrame} (result : ZvmResult) (hn : outputWords sub.retOff sub.retLen ≤ n) :
    Pays h n (resumeOpcode sub result) := by
  unfold resumeOpcode
  cases sub.kind with
  | call kind =>
    exact (steady_setReturnData _).op_bind fun _ => (paysTo_storeOutput hn).op_bind fun _ => (steady_push _).pays
  | create withSalt =>
    exact Steady.pays (.ite (steady_deploy _ _) ((steady_setReturnData _).bind fun _ => steady_push _))

end Calls

section Rounds
variable {σ α : Type} {P : Platform} {Z : Precompiles} {h : Program.Handler ZvmCall.Reply σ}
variable {f f₁ : ZvmInterpreter} {s t : σ}

def Opcode.Covered : Opcode → ZvmInterpreter → Prop
  | .PAYID, f => PayIdCovered f.operands f
  | .ZVMLOG, f => ZvmLogCovered f.operands f
  | .CALL, f => CallCovered .call f
  | .CALLCODE, f => CallCovered .callCode f
  | .DELEGATECALL, f => CallCovered .delegateCall f
  | .STATICCALL, f => CallCovered .staticCall f
  | _, _ => True

def Round.Covered : Round → Prop
  | .opcode f => ∀ op, f.opcode = some op → ¬ f.gas < op.gas → op.Covered { f with gas := f.gas - op.gas }
  | .back _ _ _ _ => True

def Outcome.Paid : Outcome → Prop
  | .next f | .halt _ f => f.Covers 0
  | .enter f sub => f.Lends sub
  | .panicked => True

theorem paid_conclude {k : α → ZvmInterpreter → Outcome} {r : Except ZvmFault α × ZvmInterpreter}
    (hfailed : r.2.Covers 0) (hok : ∀ a, r.1 = .ok a → (k a r.2).Paid) : (conclude k r).Paid := by
  rcases r with ⟨e | a,f'⟩
  · cases e with
    | error e => exact hfailed
    | panicked => exact trivial
  · exact hok a rfl

theorem paid_outcome {p : FrameM α} {k : α → ZvmInterpreter → Outcome} {G : ZvmInterpreter → Prop}
    {Q : α → ZvmInterpreter → Prop} (hp : PaysFrom h G p Q) (hf : G f) (hcovers : f.Covers 0)
    (hk : ∀ a f', Q a f' → (k a f').Paid) : ((p.outcome k f).run h s).1.Paid := by
  have hrun : ((p.outcome k f).run h s).1 = conclude k ((p f).run h s).1 :=
    congrArg Prod.fst (Program.run_bind (p f) _ s)
  obtain ⟨hstays,hend⟩ := hp f s hf
  rw [hrun]
  refine paid_conclude (hstays hcovers) fun a ha => hk a _ ?_
  rw [ha] at hend
  exact hend

theorem begun_startFrame {kind : FrameKind} {G : ZvmInterpreter → Prop}
    (hp : PaysFrom h G (beginFrame P Z kind) Begun) : PaysFrom h G (startFrame P Z kind) Begun := by
  refine hp.bind fun sub => ?_
  cases sub with
  | none => exact steady_advance.bind_to fun _ => begun_none (n := 0)
  | some sub => exact fun f s hf => ⟨id,hf⟩

theorem paid_execute {op : Opcode} (hf : f.Covers 0) (hop : op.Covered f) :
    ((execute P Z op f).run h s).1.Paid := by
  unfold execute
  rcases hkind : op.frameKind with _ | kind
  · have hdispatch : PaysFrom h (fun f => f.Covers 0 ∧ op.Covered f) (dispatch P op) fun _ f => f.Covers 0 := by
      by_cases hfree : op.ReadsFree
      · rcases hfree with rfl | rfl
        · exact paysFrom_payId.bind_to fun _ => steady_advance.bind_to fun _ => (Steady.pure none).pays
        · exact paysFrom_zvmLog.bind_to fun _ => steady_advance.bind_to fun _ => (Steady.pure none).pays
      · exact fun f s hf => pays_dispatch P hkind hfree f s hf.1
    refine paid_outcome hdispatch ⟨hf,hop⟩ hf ?_
    rintro (_ | result) f' hf'
    · exact hf'
    · exact hf'
  · have hbegin : PaysFrom h (fun f => f.Covers 0 ∧ op.Covered f) (beginFrame P Z kind) Begun := by
      cases op with
      | CREATE | CREATE2 =>
        cases hkind
        exact fun f s hf => begun_create P _ f s hf.1
      | CALL | CALLCODE | DELEGATECALL | STATICCALL =>
        cases hkind
        exact begun_call Z _
      | _ => cases hkind
    refine paid_outcome (begun_startFrame hbegin) ⟨hf,hop⟩ hf ?_
    rintro (_ | sub) f' hf'
    · exact hf'
    · exact hf'

theorem paid_step (hf : f.Covers 0) (hround : (Round.opcode f).Covered) : ((step P Z f).run h s).1.Paid := by
  rcases hop : f.opcode with _ | op
  · obtain ⟨status,hend⟩ := step_end (P := P) (Z := Z) hop
    rw [hend]
    exact hf
  · rw [step_eq hop]
    split
    · exact hf
    · rename_i hpaid
      exact paid_execute (hf.spend (spends_charge hpaid) rfl) (hround op hop hpaid)

theorem paid_back {sub : SubFrame} {result : ZvmResult} (child : ZvmInterpreter) (hf : f.Lends sub)
    (hgas : result.gasRemaining.toNat ≤ sub.frame.gas.toNat) : ((resume f sub result child).run h s).1.Paid := by
  have hrest : Pays h (outputWords sub.retOff sub.retLen) (do
      resumeOpcode sub result
      FrameOp.advance) := (pays_resumeOpcode result le_rfl).bind fun _ => steady_advance.pays
  have hmerged : ({ f with
      accessedAddresses := child.accessedAddresses ∪ f.accessedAddresses
      accessedSlots := child.accessedSlots ∪ f.accessedSlots
      gas := saturatingAdd64 f.gas result.gasRemaining } : ZvmInterpreter).Covers
        (outputWords sub.retOff sub.retLen) := by
    have hsum := toNat_saturatingAdd64 f.gas result.gasRemaining
    have hprice := hf.price
    refine ⟨hf.bounded,?_⟩
    dsimp only
    omega
  obtain ⟨hstays,hend⟩ := hrest _ s hmerged
  have hrun : ((resume f sub result child).run h s).1 = conclude (fun _ f => .next f)
      (((do
        resumeOpcode sub result
        FrameOp.advance : FrameM Unit) { f with
          accessedAddresses := child.accessedAddresses ∪ f.accessedAddresses
          accessedSlots := child.accessedSlots ∪ f.accessedSlots
          gas := saturatingAdd64 f.gas result.gasRemaining }).run h s).1 :=
    congrArg Prod.fst (Program.run_bind (resumeFrame sub result child f) _ s)
  rw [hrun]
  refine paid_conclude (hstays hmerged.paid) fun a ha => ?_
  rw [ha] at hend
  exact hend

def Round.Paid : Round → Prop
  | .opcode f => f.Covers 0
  | .back f sub result _ => f.Lends sub ∧ result.gasRemaining.toNat ≤ sub.frame.gas.toNat

def Round.frame : Round → ZvmInterpreter
  | .opcode f | .back f _ _ _ => f

theorem Round.Paid.covers {r : Round} (hr : r.Paid) : r.frame.Covers 0 := by
  cases r with
  | opcode f => exact hr
  | back f sub result child => exact hr.1.covers

theorem paid_round {r : Round} (hr : r.Paid) (hround : r.Covered) : ((r.program P Z).run h t).1.Paid := by
  cases r with
  | opcode f => exact paid_step hr hround
  | back f sub result child => exact paid_back child hr.1 hr.2

theorem covers_new (hmemory : f.memory = .new) (hgas : f.gas.toNat ≤ f.ctx.gasLimit.toNat) : f.Covers 0 := by
  have hnone : cappedPrice (max ZvmMemory.new.wordCount 0) = 0 := rfl
  unfold ZvmInterpreter.Covers
  rw [hmemory, hnone, Nat.zero_add]
  exact ⟨ZvmMemory.bounded_new,hgas⟩

theorem paid_of_step {o : Outcome} {s₁ : σ} (hf : f.Covers 0) (hround : (Round.opcode f).Covered)
    (hstep : (step P Z f).run h s = (o,s₁)) : o.Paid := by
  have hpaid := paid_step (P := P) (Z := Z) (h := h) (s := s) hf hround
  rwa [hstep] at hpaid

theorem paid_of_back {o : Outcome} {s₁ : σ} {sub : SubFrame} {result : ZvmResult} {child : ZvmInterpreter}
    (hf : f.Lends sub) (hgas : result.gasRemaining.toNat ≤ sub.frame.gas.toNat)
    (hresume : (resume f sub result child).run h s = (o,s₁)) : o.Paid := by
  have hpaid := paid_back (h := h) (s := s) child hf hgas
  rwa [hresume] at hpaid

/-- In every round reached the memory is paid for. -/
theorem Reaches.paid {r : Round} (hreach : Reaches P Z h f s r t) (hf : f.Covers 0)
    (hcovered : ∀ r t, Reaches P Z h f s r t → r.Covered) :
    r.Paid ∧ r.frame.ctx.gasLimit.toNat ≤ f.ctx.gasLimit.toNat := by
  induction hreach with
  | here f s => exact ⟨hf,le_rfl⟩
  | next hstep _ ih =>
    have hpaid := paid_of_step hf (hcovered _ _ (.here _ _)) hstep
    obtain ⟨hr,hlimit⟩ := ih hpaid fun r t hreach => hcovered r t (.next hstep hreach)
    exact ⟨hr,(costs_of_run hstep).1.ctx ▸ hlimit⟩
  | within hstep _ ih =>
    obtain ⟨-,hstarts,hless⟩ := costs_of_run hstep
    have hsub := covers_new hstarts.memory (by rw [hstarts.limit])
    obtain ⟨hr,hlimit⟩ := ih hsub fun r t hreach => hcovered r t (.within hstep hreach)
    have hbudget := hf.2
    rw [hstarts.limit] at hlimit
    exact ⟨hr,by omega⟩
  | back hstep hsub =>
    have hcosts := costs_of_run hstep
    have hpaid := paid_of_step hf (hcovered _ _ (.here _ _)) hstep
    exact ⟨⟨hpaid,(sub_balanced hcosts hsub).1⟩,by rw [Round.frame, hcosts.1.ctx]⟩
  | behind hstep hsub hresume _ ih =>
    have hcosts := costs_of_run hstep
    have hpaid := paid_of_step hf (hcovered _ _ (.here _ _)) hstep
    have hback := paid_of_back hpaid (sub_balanced hcosts hsub).1 hresume
    obtain ⟨hr,hlimit⟩ := ih hback fun r t hreach => hcovered r t (.behind hstep hsub hresume hreach)
    exact ⟨hr,(behind_less hcosts hsub hresume).1 ▸ hlimit⟩

def Outcome.frame : Outcome → Option ZvmInterpreter
  | .next f | .halt _ f | .enter f _ => some f
  | .panicked => none

theorem Outcome.Paid.covers {o : Outcome} (ho : o.Paid) (hframe : o.frame = some f) : f.Covers 0 := by
  cases o with
  | next f' | halt result f' =>
    cases hframe
    exact ho
  | enter f' sub =>
    cases hframe
    exact ZvmInterpreter.Lends.covers ho
  | panicked => cases hframe

def Round.Shows (P : Platform) (Z : Precompiles) (h : Program.Handler ZvmCall.Reply σ) (r : Round) (t : σ)
    (f : ZvmInterpreter) : Prop := f = r.frame ∨ ((r.program P Z).run h t).1.frame = some f

def ZvmInterpreter.MemoryPaid (f : ZvmInterpreter) : Prop :=
  memoryPrice f.memory.words.toNat ≤ f.ctx.gasLimit.toNat - f.gas.toNat

theorem memoryPaid_of_covers (hf : f.Covers 0)
    (hsmall : f.memory.words.toNat < 2 ^ 32 ∨ f.ctx.gasLimit.toNat < 2 ^ 55) : f.MemoryPaid := by
  obtain ⟨hbounded,hprice⟩ := hf
  rw [Nat.max_zero] at hprice
  unfold ZvmInterpreter.MemoryPaid
  rw [ZvmMemory.toNat_words hbounded] at hsmall ⊢
  have hexact : cappedPrice f.memory.wordCount = memoryPrice f.memory.wordCount := by
    rcases hsmall with hwords | hlimit
    · exact cappedPrice_eq hwords
    · exact cappedPrice_eq (lt_of_cappedPrice (by omega))
  omega

theorem Reaches.frame_ctx {r : Round} (hreach : Reaches P Z h f s r t)
    (hframe : ((r.program P Z).run h t).1.frame = some f₁) : f₁.ctx = r.frame.ctx := by
  induction hreach with
  | next _ _ ih => exact ih hframe
  | within _ _ ih => exact ih hframe
  | behind _ _ _ _ ih => exact ih hframe
  | here f s =>
    rcases hstep : (step P Z f).run h s with ⟨o,s₁⟩
    have hcosts := costs_of_run hstep
    rw [Round.program, hstep] at hframe
    cases o with
    | panicked => cases hframe
    | next f' | halt result f' | enter f' sub =>
      cases hframe
      exact hcosts.1.ctx
  | @back f f₂ child sub result s s₁ s₂ hstep hsub =>
    have hresumed := (within_back (costs_of_run hstep) result child).result h s₂
    rw [Round.program] at hframe
    generalize ((resume f₂ sub result child).run h s₂).1 = o at hresumed hframe
    cases o with
    | panicked => cases hframe
    | enter f' sub' => exact hresumed.elim
    | next f' | halt last f' =>
      cases hframe
      exact hresumed.1

end Rounds

section Plain
variable {σ : Type} {P : Platform} {Z : Precompiles} {h : Program.Handler ZvmCall.Reply σ}
variable {f f₁ : ZvmInterpreter} {s s₁ t : σ}

def Opcode.Plain (op : Opcode) : Prop := op.frameKind = none ∧ ¬ op.ReadsFree

instance : DecidablePred Opcode.Plain := fun op =>
  inferInstanceAs (Decidable (op.frameKind = none ∧ ¬ (op = .PAYID ∨ op = .ZVMLOG)))

def PlainCode (code : List UInt8) : Prop := ∀ byte ∈ code, ∀ op ∈ Opcode.fromU8 byte, op.Plain

instance (code : List UInt8) : Decidable (PlainCode code) := inferInstanceAs (Decidable (∀ _ ∈ _, _))

theorem Opcode.Plain.covered {op : Opcode} (hop : op.Plain) (f : ZvmInterpreter) : op.Covered f := by
  cases op with
  | PAYID => exact absurd (Or.inl rfl) hop.2
  | ZVMLOG => exact absurd (Or.inr rfl) hop.2
  | CALL | CALLCODE | DELEGATECALL | STATICCALL => cases hop.1
  | _ => exact trivial

theorem plain_of_opcode {op : Opcode} (hcode : PlainCode f.ctx.bytecode) (hop : f.opcode = some op) : op.Plain := by
  obtain ⟨byte,hbyte,hdecode⟩ := Option.bind_eq_some_iff.mp hop
  exact hcode byte (List.mem_of_getElem? hbyte) op hdecode

theorem step_plain {sub : SubFrame} (hcode : PlainCode f.ctx.bytecode) :
    ((step P Z f).run h s).1 ≠ .enter f₁ sub := by
  rcases hop : f.opcode with _ | op
  · obtain ⟨status,hend⟩ := step_end (P := P) (Z := Z) hop
    rw [hend]
    rintro ⟨⟩
  · rw [step_eq hop]
    split
    · rintro ⟨⟩
    · have hrun : ∀ g, ((execute P Z op g).run h s).1 =
          conclude (fun result f => (result.map (.halt · f)).getD (.next f)) ((dispatch P op g).run h s).1 := by
        intro g
        unfold execute
        rw [(plain_of_opcode hcode hop).1]
        exact congrArg Prod.fst (Program.run_bind (dispatch P op g) _ s)
      rw [hrun]
      rcases ((dispatch P op _).run h s).1 with ⟨e | result,f'⟩
      · cases e with
        | error e => rintro ⟨⟩
        | panicked => rintro ⟨⟩
      · cases result with
        | none => rintro ⟨⟩
        | some result => rintro ⟨⟩

theorem covered_of_plain {r : Round} (hreach : Reaches P Z h f s r t) (hcode : PlainCode f.ctx.bytecode) :
    r.Covered := by
  induction hreach with
  | here f s => exact fun op hop _ => (plain_of_opcode hcode hop).covered _
  | next hstep _ ih => exact ih ((costs_of_run hstep).1.ctx ▸ hcode)
  | within hstep _ _ => exact absurd (congrArg Prod.fst hstep) (step_plain hcode)
  | back _ _ => exact trivial
  | behind hstep _ _ _ _ => exact absurd (congrArg Prod.fst hstep) (step_plain hcode)

end Plain

section Runs
variable {σ : Type}

/-- In a run whose output windows end below the last 31 bytes, and whose texts that are read
free of charge lie where the charges cover them, every frame has paid for its memory. -/
theorem memory_paid_of_covered (P : Platform) (Z : Precompiles) (h : Program.Handler ZvmCall.Reply σ)
    (ctx : ZvmContext) (s : σ) (hcovered : ∀ r t, Reaches P Z h (.new ctx) s r t → r.Covered) :
    ∀ r t f, Reaches P Z h (.new ctx) s r t → r.Shows P Z h t f →
      f.memory.words.toNat < 2 ^ 32 ∨ ctx.gasLimit.toNat < 2 ^ 55 → f.MemoryPaid := by
  intro r t f hreach hshows hsmall
  have hstart : (ZvmInterpreter.new ctx).Covers 0 := covers_new rfl le_rfl
  obtain ⟨hr,hlimit⟩ := hreach.paid hstart hcovered
  have hframe : f.Covers 0 ∧ f.ctx = r.frame.ctx := by
    rcases hshows with rfl | hleft
    · exact ⟨hr.covers,rfl⟩
    · exact ⟨(paid_round hr (hcovered r t hreach)).covers hleft,hreach.frame_ctx hleft⟩
  refine memoryPaid_of_covers hframe.1 (hsmall.imp_right fun hless => ?_)
  rw [hframe.2]
  exact hlimit.trans_lt hless

/-- `PUSH1` of an offset, and `MLOAD`. -/
def loadContext : ZvmContext :=
  { (callingFrame 0).ctx with
    bytecode := [0x60,0x20,0x51,0x00]
    gasLimit := 100 }

def loadedFrame : ZvmInterpreter :=
  { ZvmInterpreter.new loadContext with
    stack := ⟨[0],by decide⟩
    memory := ⟨List.replicate 64 0⟩
    pc := 3
    gas := 88 }

set_option maxRecDepth 5000 in
theorem reaches_loadedFrame : Reaches .integers noPrecompiles (hostHandler .integers) (.new loadContext)
    revertingState (.opcode loadedFrame) revertingState := .next rfl (.next rfl (.here _ _))

set_option maxRecDepth 5000 in
theorem memory_paid_load : loadedFrame.memory.words = 2 ∧ loadedFrame.MemoryPaid := by
  have hplain : PlainCode loadContext.bytecode := by decide +kernel
  refine ⟨by decide +kernel,?_⟩
  exact memory_paid_of_covered .integers noPrecompiles (hostHandler .integers) loadContext revertingState
    (fun _ _ hreach => covered_of_plain hreach hplain) _ _ loadedFrame reaches_loadedFrame (Or.inl rfl)
    (Or.inr (by decide))

end Runs

section FreeReads
variable {σ : Type} {P : Platform} {Z : Precompiles} {h : Program.Handler ZvmCall.Reply σ}
variable {f : ZvmInterpreter} {s : σ} {ptr len : UInt64} {rest : List UInt64}

def WidenedTo (f : ZvmInterpreter) (stop : ℕ) (f' : ZvmInterpreter) : Prop :=
  f'.memory = f.memory.widened stop ∧ f'.gas = f.gas ∧ f'.ctx = f.ctx

theorem readString_free (hf : f.memory.Bounded) (hfits : f.memory.Fits (ptr.toNat + len.toNat)) :
    (readString ptr len f).1 ≠ .error .panicked ∧ WidenedTo f (ptr.toNat + len.toNat) (readString ptr len f).2 := by
  obtain ⟨bytes,hread⟩ := ZvmMemory.readSlice_of_fits hf hfits
  rw [readString, bind_apply, readSlice, readMemory_apply, hread]
  dsimp only
  split
  · exact ⟨by rintro ⟨⟩,rfl,rfl,rfl⟩
  · exact ⟨by rintro ⟨⟩,rfl,rfl,rfl⟩

theorem push_not_panicked (word : U256) (f : ZvmInterpreter) : (push word f).1 ≠ .error .panicked := by
  have hpush : push word f = (orFail (f.stack.push word) >>= fun stack => modify ({ · with stack := stack })) f := rfl
  rw [hpush]
  cases f.stack.push word with
  | error e => rintro ⟨⟩
  | ok stack => rintro ⟨⟩

theorem pushReply_widened {c : ZvmCall} {word : c.Reply → U256} {stop : ℕ} {f' : ZvmInterpreter}
    (hwide : WidenedTo f stop f') : Framed.After h (pushReply c word) f' s fun r f' _ =>
      r ≠ .error .panicked ∧ WidenedTo f stop f' := by
  have hkeeps := Keeps.push (π := fun f => (f.memory,f.gas,f.ctx)) (fun _ _ => rfl) (word (h c s).1) f'
  refine ⟨push_not_panicked _ f',?_⟩
  obtain ⟨hmemory,hgas,hctx⟩ := hwide
  simp only [Prod.mk.injEq] at hkeeps
  exact ⟨hkeeps.1.trans hmemory,hkeeps.2.1.trans hgas,hkeeps.2.2.trans hctx⟩

theorem popU64_operands (hops : f.operands = ptr :: rest) : ∃ stack : ZvmStack,
    popU64 f = (.ok ptr,{ f with stack := stack }) ∧ ({ f with stack := stack } : ZvmInterpreter).operands = rest := by
  obtain ⟨word,words,hstack,hword,hwords⟩ := List.map_eq_cons_iff.mp hops
  have hbound := f.stack.bounded
  rw [hstack, List.length_cons] at hbound
  exact ⟨⟨words,by omega⟩,popU64_ok.mpr ⟨word,_,hstack,hword.symm,rfl⟩,hwords⟩

theorem after_lift_bind {α β : Type} {p : FrameOp α} {q : α → FrameM β} {f₁ : ZvmInterpreter} {a : α}
    {Q : Except ZvmFault β → ZvmInterpreter → σ → Prop} (hp : p f = (.ok a,f₁))
    (hq : Framed.After h (q a) f₁ s Q) : Framed.After h ((liftM p : FrameM α) >>= q) f s Q := by
  unfold Framed.After at hq ⊢
  rw [lift_bind_apply, hp]
  exact hq

theorem payId_free (hf : f.memory.Bounded) (hops : f.operands = ptr :: len :: rest)
    (hfits : f.memory.Fits (ptr.toNat + len.toNat)) : Framed.After h payId f s fun r f' _ =>
      r ≠ .error .panicked ∧ WidenedTo f (ptr.toNat + len.toNat) f' := by
  obtain ⟨stack₁,hptr,hops₁⟩ := popU64_operands hops
  obtain ⟨stack₂,hlen,-⟩ := popU64_operands hops₁
  refine after_lift_bind hptr (after_lift_bind hlen ?_)
  obtain ⟨hquiet,hwide⟩ := readString_free (f := { f with stack := stack₂ }) hf hfits
  rcases hread : readString ptr len { f with stack := stack₂ } with ⟨e | name,f₃⟩
  · rw [hread] at hquiet hwide
    unfold Framed.After
    rw [lift_bind_apply, hread]
    exact ⟨by rintro ⟨⟩; exact hquiet rfl,hwide⟩
  · rw [hread] at hwide
    exact after_lift_bind hread (pushReply_widened hwide)

theorem payId_round_free (hf : f.memory.Bounded) (hop : f.opcode = some .PAYID) (hgas : ¬ f.gas < Opcode.PAYID.gas)
    (hops : f.operands = ptr :: len :: rest) (hfits : f.memory.Fits (ptr.toNat + len.toNat)) :
    ∃ f', ((step P Z f).run h s).1.frame = some f' ∧
      WidenedTo { f with gas := f.gas - Opcode.PAYID.gas } (ptr.toNat + len.toNat) f' := by
  rw [step_eq hop, if_neg hgas]
  obtain ⟨hquiet,hwide⟩ := payId_free (h := h) (s := s) (f := { f with gas := f.gas - Opcode.PAYID.gas })
    hf hops hfits
  have hrun : ∀ g, ((execute P Z .PAYID g).run h s).1 =
      conclude (fun result f => (result.map (.halt · f)).getD (.next f)) ((next payId g).run h s).1 :=
    fun g => congrArg Prod.fst (Program.run_bind (next payId g) _ s)
  have hnext : ∀ g, ((next payId g).run h s).1 = match ((payId g).run h s).1 with
      | (.ok (),f₁) => (.ok none,{ f₁ with pc := f₁.pc + 1 })
      | (.error e,f₁) => (.error e,f₁) := by
    intro g
    have hbind : ((next payId g).run h s) = _ := Program.run_bind (payId g) _ s
    rw [hbind]
    rcases ((payId g).run h s).1 with ⟨e | ⟨⟩,f₁⟩
    · rfl
    · rfl
  rw [hrun, hnext]
  generalize ((payId { f with gas := f.gas - Opcode.PAYID.gas }).run h s).1 = r at hquiet hwide ⊢
  rcases r with ⟨e | ⟨⟩,f₁⟩
  · cases e with
    | panicked => exact absurd rfl hquiet
    | error e => exact ⟨f₁,rfl,hwide⟩
  · exact ⟨_,rfl,hwide⟩

/-- A name of 3200 bytes, the 100 words of which nobody pays for. -/
def freeNameContext : ZvmContext :=
  { (callingFrame 0).ctx with
    bytecode := [0x61,0x0C,0x80,0x60,0x00,0xC0,0x00]
    gasLimit := 1000 }

/-- The frame in front of the `PAYID`. -/
def namedFrame : ZvmInterpreter :=
  { ZvmInterpreter.new freeNameContext with
    stack := ⟨[0,3200],by decide⟩
    pc := 5
    gas := 994 }

set_option maxRecDepth 5000 in
theorem reaches_namedFrame : Reaches .integers noPrecompiles (hostHandler .integers) (.new freeNameContext)
    revertingState (.opcode namedFrame) revertingState := .next rfl (.next rfl (.here _ _))

/-- A frame with gas left has paid less than the price of its memory. -/
theorem memory_not_paid : ∃ r t f,
    Reaches .integers noPrecompiles (hostHandler .integers) (.new freeNameContext) revertingState r t ∧
      r.Shows .integers noPrecompiles (hostHandler .integers) t f ∧ 0 < f.gas.toNat ∧ ¬ f.MemoryPaid := by
  have hfits : namedFrame.memory.Fits ((0 : UInt64).toNat + (3200 : UInt64).toNat) := by decide
  obtain ⟨f,hframe,hmemory,hgas,hctx⟩ := payId_round_free (P := .integers) (Z := noPrecompiles)
    (h := hostHandler .integers) (s := revertingState) (f := namedFrame) ZvmMemory.bounded_new
    (by decide +kernel) (by decide) (show namedFrame.operands = [0,3200] by decide +kernel) hfits
  refine ⟨_,_,f,reaches_namedFrame,Or.inr hframe,?_,?_⟩
  · rw [hgas]
    decide
  · unfold ZvmInterpreter.MemoryPaid
    have hbounded := ZvmMemory.bounded_widened (m := namedFrame.memory) ZvmMemory.bounded_new hfits
    rw [hmemory, hgas, hctx, ZvmMemory.toNat_words hbounded, ZvmMemory.wordCount, ZvmMemory.length_widened]
    decide

end FreeReads

end ZbxChain.Zvm
