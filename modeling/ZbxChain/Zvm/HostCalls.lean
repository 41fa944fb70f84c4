import ZbxChain.Zvm.Spending

/-! # The calls that opcodes make on the host

A call that changes something is made by a static frame from one opcode only. A frame that
is started takes its gas from its parent, and is static under a static parent.
-/
namespace ZbxChain.Zvm

/-- The host's mutators; a transfer is one if it moves something. -/
def mutates : ZvmCall → Bool
  | .storageStore _ _ _ | .transientStore _ _ _ | .incNonce _ | .setCode _ _ | .burnZbx _ _
  | .selfdestruct _ _ | .markCreatedThisTx _ | .emitLog _ _ _ | .emitZvmLog _ _ => true
  | .transfer _ _ amount => decide (0 < amount)
  | _ => false

section Does
variable {α β : Type} {I : ZvmContext → Prop} {A : ZvmContext → ZvmCall → Prop}

abbrev Result (α : Type) := ZvmInterpreter → Except ZvmFault α × ZvmInterpreter → Prop

def spends : Result α := fun f r => Spends f r.2

/-- What comes first may spend, and may fail. -/
structure Absorbs (R : Result α) : Prop where
  later : ∀ {f f₁ r}, Spends f f₁ → R f₁ r → R f r
  failed : ∀ {f f₁ e}, Spends f f₁ → R f (.error e,f₁)

theorem absorbs_spends : Absorbs (spends : Result α) := ⟨fun h h' => h.trans h',fun h => h⟩

/-- Whatever the host replies, a frame in a context that satisfies `I` makes allowed calls only
and comes to what `R` says. -/
def Does (I : ZvmContext → Prop) (A : ZvmContext → ZvmCall → Prop) (R : Result α) (p : FrameM α) : Prop :=
  ∀ f, I f.ctx → (p f).Within (A f.ctx) (R f)

variable {R : Result α} {R' : Result β}

/-- The host calls of a sequence are those of its two parts. -/
theorem within_bind_iff (p : FrameM α) (q : α → FrameM β) (f : ZvmInterpreter) {allowed : ZvmCall → Prop}
    {Q : Except ZvmFault β × ZvmInterpreter → Prop} : ((p >>= q) f).Within allowed Q ↔
      (p f).Within allowed (fun r => match r with
        | (.ok a,f₁) => (q a f₁).Within allowed Q
        | (.error e,f₁) => Q (.error e,f₁)) := by
  refine (Program.within_bind (p f) _).trans (iff_of_eq (congrArg (fun Q => (p f).Within allowed Q) ?_))
  funext r
  rcases r with ⟨e | a,f₁⟩
  · rfl
  · rfl

theorem lift_bind_apply (p : FrameOp α) (q : α → FrameM β) (f : ZvmInterpreter) :
    ((liftM p : FrameM α) >>= q) f = match p f with
      | (.ok a,f₁) => q a f₁
      | (.error e,f₁) => .done (.error e,f₁) := by
  have hbind : ((liftM p : FrameM α) >>= q) f = ExceptT.bindCont q (p f).1 (p f).2 := rfl
  rw [hbind]
  rcases p f with ⟨e | a,f₁⟩
  · rfl
  · rfl

theorem Does.bind {p : FrameM α} {q : α → FrameM β} (hR : Absorbs R') (hp : Does I A spends p)
    (hq : ∀ a, Does I A R' (q a)) : Does I A R' (p >>= q) := by
  intro f hf
  rw [within_bind_iff]
  refine (hp f hf).mono (fun _ hc => hc) fun r hr => ?_
  rcases r with ⟨e | a,f₁⟩
  · exact hR.failed hr
  · have hsame : f₁.ctx = f.ctx := Spends.ctx hr
    have hrest := hq a f₁ (hsame ▸ hf)
    rw [hsame] at hrest
    exact hrest.mono (fun _ hc => hc) fun _ h => hR.later hr h

theorem Does.lift {p : FrameOp α} (h : Spending p) : Does I A spends (liftM p : FrameM α) := fun f _ => h f

theorem Does.lift_bind {J : α → ZvmContext → Prop} {p : FrameOp α} {q : α → FrameM β} (hR : Absorbs R')
    (hp : Spending p) (hq : ∀ f a f₁, p f = (.ok a,f₁) → J a f.ctx ∧ Does (J a) A R' (q a)) :
    Does I A R' ((liftM p : FrameM α) >>= q) := by
  intro f _
  have hspends := hp f
  refine (within_bind_iff (liftM p) q f).mpr ?_
  change match p f with
    | (.ok a,f₁) => (q a f₁).Within (A f.ctx) (R' f)
    | (.error e,f₁) => R' f (.error e,f₁)
  rcases hrun : p f with ⟨e | a,f₁⟩
  · rw [hrun] at hspends
    exact hR.failed hspends
  · rw [hrun] at hspends
    have hctx : f₁.ctx = f.ctx := hspends.ctx
    obtain ⟨hf,hrest⟩ := hq f a f₁ hrun
    have hdone := hrest f₁ (hctx ▸ hf)
    rw [hctx] at hdone
    exact hdone.mono (fun _ hc => hc) fun _ h => hR.later hspends h

theorem Does.pure (a : α) : Does I A spends (pure a : FrameM α) := fun f _ => Spends.refl f

theorem Does.get_bind {q : ZvmInterpreter → FrameM α} (hq : ∀ f, Does I A R (q f)) :
    Does I A R ((get : FrameM ZvmInterpreter) >>= q) := fun f hf => hq f f hf

theorem Does.ite {c : Prop} [Decidable c] {p q : FrameM α} (hp : Does I A R p) (hq : Does I A R q) :
    Does I A R (if c then p else q) := by
  split
  · exact hp
  · exact hq

theorem Does.host {c : ZvmCall} (hc : ∀ ctx, I ctx → A ctx c) : Does I A spends (host c) :=
  fun f hf => ⟨hc f.ctx hf,fun _ => Spends.refl f⟩

theorem orPanic_ok {r : Option α} {f f' : ZvmInterpreter} {a : α}
    (h : FrameOp.orPanic r f = (.ok a,f')) : r = some a := by
  cases r with
  | none => cases h
  | some a' =>
    cases h
    rfl

theorem staticGuard_ok {f f' : ZvmInterpreter} (h : FrameOp.staticGuard f = (.ok (),f')) :
    f.ctx.isStatic = false := by
  unfold FrameOp.staticGuard at h
  rw [bind_ok] at h
  obtain ⟨_,_,hget,hguard⟩ := h
  cases hget
  split at hguard
  · cases hguard
  · rename_i hlive
    exact Bool.eq_false_of_not_eq_true hlive

theorem Does.staticGuard_bind {q : Unit → FrameM α} (hR : Absorbs R)
    (hq : Does (fun ctx => ctx.isStatic = false) A R (q ())) :
    Does I A R ((liftM FrameOp.staticGuard : FrameM Unit) >>= q) :=
  .lift_bind (J := fun _ ctx => ctx.isStatic = false) hR spending_staticGuard
    fun _ _ _ h => ⟨staticGuard_ok h,hq⟩

end Does

section Ends

/-- A frame that is over gives its own account of itself. -/
def finishes : Result ZvmResult := fun f r =>
  Spends f r.2 ∧ ∀ result, r.1 = .ok result → ∃ status, result = r.2.finish status

def dispatches : Result (Option ZvmResult) := fun f r =>
  Spends f r.2 ∧ ∀ result, r.1 = .ok (some result) → ∃ status, result = r.2.finish status

theorem absorbs_finishes : Absorbs finishes :=
  ⟨fun h h' => ⟨h.trans h'.1,h'.2⟩,fun h => ⟨h,by rintro _ ⟨⟩⟩⟩

theorem absorbs_dispatches : Absorbs dispatches :=
  ⟨fun h h' => ⟨h.trans h'.1,h'.2⟩,fun h => ⟨h,by rintro _ ⟨⟩⟩⟩

variable {A : ZvmContext → ZvmCall → Prop} {I : ZvmContext → Prop}

theorem does_finish (status : ZvmStatus) :
    Does I A finishes (do pure ((← get).finish status) : FrameM ZvmResult) := by
  intro f _
  refine ⟨Spends.refl f,?_⟩
  rintro result ⟨⟩
  exact ⟨status,rfl⟩

theorem does_returnWith (status : ZvmStatus) : Does I A finishes (liftM (FrameOp.returnWith status)) := by
  intro f _
  refine ⟨spending_returnWith status f,?_⟩
  intro result hresult
  rcases hrun : FrameOp.returnWith status f with ⟨r,f'⟩
  have hok : FrameOp.returnWith status f = (.ok result,f') := by
    change (FrameOp.returnWith status f).1 = .ok result at hresult
    rw [hrun] at hresult ⊢
    exact congrArg (·,f') hresult
  change ∃ how, result = (FrameOp.returnWith status f).2.finish how
  rw [hok]
  unfold FrameOp.returnWith at hok
  simp only [bind_ok] at hok
  obtain ⟨_,_,-,_,_,-,_,_,-,_,_,-,_,_,-,_,_,hget,hpure⟩ := hok
  cases hget
  cases hpure
  exact ⟨status,rfl⟩

theorem does_next {p : FrameM Unit} (hp : Does I A spends p) : Does I A dispatches (FrameM.next p) := by
  refine .bind absorbs_dispatches hp fun _ => .bind absorbs_dispatches (.lift spending_advance) fun _ => ?_
  exact fun f _ => ⟨Spends.refl f,by rintro _ ⟨⟩⟩

theorem does_alone {p : FrameOp Unit} (hp : Spending p) :
    Does I A dispatches (FrameM.next (liftM p : FrameM Unit)) := does_next (.lift hp)

theorem does_jumping {p : FrameOp Unit} (hp : Spending p) : Does I A dispatches (FrameM.jumping p) := by
  refine .bind absorbs_dispatches (.lift hp) fun _ => ?_
  exact fun f _ => ⟨Spends.refl f,by rintro _ ⟨⟩⟩

theorem does_halt {p : FrameM ZvmResult} (hp : Does I A finishes p) : Does I A dispatches (FrameM.halt p) := by
  intro f hf
  refine (within_bind_iff p _ f).mpr ((hp f hf).mono (fun _ hc => hc) ?_)
  rintro ⟨e | result,f₁⟩ ⟨hspends,hfinish⟩
  · exact absorbs_dispatches.failed hspends
  · refine ⟨hspends,?_⟩
    rintro _ ⟨⟩
    exact hfinish result rfl

end Ends

section Opcodes
variable {A : ZvmContext → ZvmCall → Prop} {I : ZvmContext → Prop}
variable (hread : ∀ ctx c, mutates c = false → A ctx c) (hlive : ∀ ctx c, ctx.isStatic = false → A ctx c)
open FrameOp FrameM

section Reading
include hread

theorem does_pushReply {c : ZvmCall} (hc : mutates c = false) (word : c.Reply → U256) :
    Does I A spends (pushReply c word) :=
  .bind absorbs_spends (.host fun ctx _ => hread ctx c hc) fun _ => .lift (spending_push _)

theorem does_balance : Does I A spends FrameM.balance :=
  .bind absorbs_spends (.lift spending_popAddress) fun addr =>
    .bind absorbs_spends (.lift (spending_touchAddress addr)) fun _ => does_pushReply hread rfl _

theorem does_selfBalance : Does I A spends selfBalance := .get_bind fun _ => does_pushReply hread rfl _

theorem does_extCodeSize : Does I A spends extCodeSize :=
  .bind absorbs_spends (.lift spending_popAddress) fun addr =>
    .bind absorbs_spends (.lift (spending_touchAddress addr)) fun _ => does_pushReply hread rfl _

theorem does_extCodeHash : Does I A spends extCodeHash :=
  .bind absorbs_spends (.lift spending_popAddress) fun addr =>
    .bind absorbs_spends (.lift (spending_touchAddress addr)) fun _ => does_pushReply hread rfl _

theorem does_extCodeCopy : Does I A spends extCodeCopy :=
  .bind absorbs_spends (.lift spending_popAddress) fun addr =>
    .bind absorbs_spends (.lift spending_popU64) fun _ =>
    .bind absorbs_spends (.lift spending_popU64) fun _ =>
    .bind absorbs_spends (.lift spending_popU64) fun _ =>
    .bind absorbs_spends (.lift (spending_touchAddress addr)) fun _ =>
    .bind absorbs_spends (.lift (spending_chargeGas _)) fun _ =>
    .bind absorbs_spends (.lift (spending_chargeMemExpansion _)) fun _ =>
    .bind absorbs_spends (.host fun ctx _ => hread ctx _ rfl) fun _ =>
    .lift_bind (J := fun _ _ => True) absorbs_spends (Spending.orPanic _) fun _ _ _ hbuf =>
      ⟨trivial,.lift (spending_writeSlice (length_zeroPadded_lt (orPanic_ok hbuf)))⟩

theorem does_blockHash : Does I A spends blockHash :=
  .bind absorbs_spends (.lift spending_popU64) fun _ => does_pushReply hread rfl _

theorem does_blobHash : Does I A spends blobHash :=
  .bind absorbs_spends (.lift spending_popU64) fun _ => does_pushReply hread rfl _

theorem does_tload : Does I A spends tload :=
  .bind absorbs_spends (.lift spending_pop) fun _ => .get_bind fun _ => does_pushReply hread rfl _

theorem does_sload : Does I A spends sload :=
  .bind absorbs_spends (.lift spending_pop) fun _ =>
    .bind absorbs_spends (.lift (spending_touchSlot _ _)) fun _ =>
    .get_bind fun _ => does_pushReply hread rfl _

theorem does_payId : Does I A spends payId :=
  .bind absorbs_spends (.lift spending_popU64) fun _ =>
    .bind absorbs_spends (.lift spending_popU64) fun _ =>
    .bind absorbs_spends (.lift (spending_readString _ _)) fun _ => does_pushReply hread rfl _

theorem does_zusdBal : Does I A spends zusdBal :=
  .bind absorbs_spends (.lift spending_popAddress) fun _ => does_pushReply hread rfl _

theorem does_payIdSet : Does I A spends payIdSet :=
  .bind absorbs_spends (.lift spending_popAddress) fun _ => does_pushReply hread rfl _

end Reading

section Writing
include hlive

theorem does_tstore : Does I A spends tstore :=
  .staticGuard_bind absorbs_spends <| .bind absorbs_spends (.lift spending_pop) fun _ =>
    .bind absorbs_spends (.lift spending_pop) fun _ => .get_bind fun _ => .host fun ctx => hlive ctx _

theorem does_sstore : Does I A spends sstore :=
  .staticGuard_bind absorbs_spends <| .bind absorbs_spends (.lift spending_pop) fun _ =>
    .bind absorbs_spends (.lift spending_pop) fun _ =>
    .bind absorbs_spends (.lift (spending_touchSlot _ _)) fun _ =>
    .get_bind fun _ => .host fun ctx => hlive ctx _

theorem does_log (nTopics : ℕ) : Does I A spends (FrameM.log nTopics) := by
  have hlogged : ∀ log : ZvmLog, Spending (modify (fun f => { f with logs := f.logs ++ [log] })) :=
    fun _ _ => ⟨rfl,rfl,Nat.le_refl _,id⟩
  exact .staticGuard_bind absorbs_spends <| .bind absorbs_spends (.lift spending_popU64) fun _ =>
    .bind absorbs_spends (.lift spending_popU64) fun _ =>
    .bind absorbs_spends (.lift (spending_chargeGas _)) fun _ =>
    .bind absorbs_spends (.lift (spending_chargeMemExpansion _)) fun _ =>
    .bind absorbs_spends (.lift (spending_popTopics _)) fun _ =>
    .bind absorbs_spends (.lift (spending_readSlice _ _)) fun _ => .get_bind fun _ =>
    .bind absorbs_spends (.lift (hlogged _)) fun _ => .host fun ctx => hlive ctx _

theorem does_zbxBurn : Does I A spends zbxBurn :=
  .staticGuard_bind absorbs_spends <| .bind absorbs_spends (.lift spending_popU128) fun _ =>
    .get_bind fun _ => .bind absorbs_spends (.host fun ctx => hlive ctx _) fun _ =>
    .ite (.pure ()) (.lift (.throw _))

theorem does_selfdestruct : Does I A finishes FrameM.selfdestruct :=
  .staticGuard_bind absorbs_finishes <| .bind absorbs_finishes (.lift spending_popAddress) fun _ =>
    .get_bind fun _ => .bind absorbs_finishes (.host fun ctx => hlive ctx _) fun _ => does_finish _

end Writing

theorem does_zvmLog (hlog : ∀ ctx key value, A ctx (.emitZvmLog key value)) : Does I A spends zvmLog := by
  have hlogged : ∀ key value, Spending (modify (fun f : ZvmInterpreter => { f with
      zvmLogs := f.zvmLogs ++ [⟨key,value,f.ctx.blockNumber,f.logIndex⟩]
      logIndex := f.logIndex + 1 })) := fun _ _ _ => ⟨rfl,rfl,Nat.le_refl _,id⟩
  exact .bind absorbs_spends (.lift spending_popU64) fun _ =>
    .bind absorbs_spends (.lift spending_popU64) fun _ =>
    .bind absorbs_spends (.lift spending_popU64) fun _ =>
    .bind absorbs_spends (.lift spending_popU64) fun _ =>
    .bind absorbs_spends (.lift (spending_readString _ _)) fun _ =>
    .bind absorbs_spends (.lift (spending_readString _ _)) fun _ =>
    .bind absorbs_spends (.host fun ctx _ => hlog ctx _ _) fun _ => .lift (hlogged _ _)

include hread hlive

/-- Every opcode makes host calls that its frame allows, ZVMLOG under its own condition. -/
theorem does_dispatch (P : Platform) (op : Opcode)
    (hlog : op = .ZVMLOG → ∀ ctx key value, A ctx (.emitZvmLog key value)) :
    Does I A dispatches (dispatch P op) := by
  have hreply : ∀ {c : ZvmCall} (word : c.Reply → U256), mutates c = false →
      Does I A dispatches (FrameM.next (pushReply c word)) := fun word hc => does_next (does_pushReply hread hc word)
  cases op with
  | STOP => exact does_halt (does_finish _)
  | INVALID => exact does_halt (does_finish _)
  | RETURN => exact does_halt (does_returnWith _)
  | REVERT => exact does_halt (does_returnWith _)
  | SELFDESTRUCT => exact does_halt (does_selfdestruct hlive)
  | ADDMOD => exact does_alone (spending_ternary _)
  | MULMOD => exact does_alone (spending_ternary _)
  | EXP => exact does_alone spending_exp
  | NOT => exact does_alone (spending_unary _)
  | ISZERO => exact does_alone (spending_unary _)
  | KECCAK256 => exact does_alone (spending_keccak P)
  | CALLDATALOAD => exact does_alone spending_callDataLoad
  | CALLDATACOPY => exact does_alone (spending_copyFrom _)
  | CODECOPY => exact does_alone (spending_copyFrom _)
  | RETURNDATACOPY => exact does_alone spending_returnDataCopy
  | MCOPY => exact does_alone spending_mcopy
  | MLOAD => exact does_alone spending_mload
  | MSTORE => exact does_alone spending_mstore
  | MSTORE8 => exact does_alone spending_mstore8
  | PUSH0 => exact does_alone (spending_push _)
  | PUSH n => exact does_alone (spending_pushOperand _)
  | DUP n => exact does_alone (spending_dup _)
  | SWAP n => exact does_alone (spending_swap _)
  | POP => exact does_alone (spending_pop.bind fun _ => .pure _)
  | JUMP => exact does_jumping spending_jump
  | JUMPI => exact does_jumping spending_jumpi
  | BALANCE => exact does_next (does_balance hread)
  | SELFBALANCE => exact does_next (does_selfBalance hread)
  | EXTCODESIZE => exact does_next (does_extCodeSize hread)
  | EXTCODEHASH => exact does_next (does_extCodeHash hread)
  | EXTCODECOPY => exact does_next (does_extCodeCopy hread)
  | BLOCKHASH => exact does_next (does_blockHash hread)
  | BLOBHASH => exact does_next (does_blobHash hread)
  | TLOAD => exact does_next (does_tload hread)
  | SLOAD => exact does_next (does_sload hread)
  | PAYID => exact does_next (does_payId hread)
  | ZUSDBAL => exact does_next (does_zusdBal hread)
  | PAYIDSET => exact does_next (does_payIdSet hread)
  | TSTORE => exact does_next (does_tstore hlive)
  | SSTORE => exact does_next (does_sstore hlive)
  | LOG n => exact does_next (does_log hlive _)
  | ZBXBURN => exact does_next (does_zbxBurn hlive)
  | ZVMLOG => exact does_next (does_zvmLog (hlog rfl))
  | COINBASE | PREVRANDAO | GASLIMIT | GASPRICE | ZBXPRICE | BLOBFEE => exact hreply _ rfl
  | ADD | MUL | SUB | DIV | SDIV | MOD | SMOD | SIGNEXTEND | LT | GT | SLT | SGT | EQ | AND | OR | XOR
  | BYTE | SHL | SHR | SAR => exact does_alone (spending_binary _)
  | CALLDATASIZE | CODESIZE | RETURNDATASIZE | MSIZE | NUMBER | TIMESTAMP | CHAINID | BASEFEE | BLOBBASEFEE
  | CALLER | ADDRESS | CALLVALUE | GAS | ORIGIN | PC | AASENDER => exact does_alone (spending_pushOf _)
  | ZBXTIME | CHAINVER => exact does_alone (spending_push _)
  | JUMPDEST | CREATE | CALL | CALLCODE | DELEGATECALL | CREATE2 | STATICCALL => exact does_next (.pure ())

end Opcodes

section Starts

/-- The gas of a frame is taken from its parent; under a static parent it is static, and no
creation. -/
structure StartsFrom (f f' : ZvmInterpreter) (sub : SubFrame) : Prop where
  gas : f'.gas.toNat + sub.frame.gas.toNat ≤ f.gas.toNat
  limit : sub.frame.ctx.gasLimit = sub.frame.gas
  memory : sub.frame.memory = .new
  static : f.ctx.isStatic = true → sub.frame.ctx.isStatic = true ∧ ∃ kind, sub.kind = .call kind

def starts : Result (Option SubFrame) := fun f r =>
  Spends f r.2 ∧ ∀ sub, r.1 = .ok (some sub) → StartsFrom f r.2 sub

theorem absorbs_starts : Absorbs starts where
  later := by
    rintro f f₁ ⟨r,f₂⟩ hfirst ⟨hspends,hstarts⟩
    refine ⟨hfirst.trans hspends,fun sub hsub => ?_⟩
    obtain ⟨hgas,hlimit,hmemory,hstatic⟩ := hstarts sub hsub
    exact ⟨hgas.trans hfirst.gas,hlimit,hmemory,fun h => hstatic (hfirst.ctx ▸ h)⟩
  failed := fun h => ⟨h,by rintro _ ⟨⟩⟩

variable {A : ZvmContext → ZvmCall → Prop} {I : ZvmContext → Prop}

theorem does_none : Does I A starts (pure none) := fun f _ => ⟨Spends.refl f,by rintro _ ⟨⟩⟩

theorem does_giveUp : Does I A starts giveUp :=
  .bind absorbs_starts (.lift (spending_setReturnData _)) fun _ =>
    .bind absorbs_starts (.lift (spending_push _)) fun _ => does_none

theorem does_refuse : Does I A starts refuse :=
  .bind absorbs_starts (.lift (spending_push _)) fun _ => does_none

theorem toNat_forwarded (bound gas : UInt64) :
    (saturatingSub64 gas (min bound (gas / 64 * 63))).toNat + (min bound (gas / 64 * 63)).toNat ≤
      gas.toNat := by
  have hshare : (gas / 64 * 63).toNat ≤ gas.toNat := by
    have hone : (64 : UInt64).toNat = 64 := rfl
    have htwo : (63 : UInt64).toNat = 63 := rfl
    rw [UInt64.toNat_mul, UInt64.toNat_div, hone, htwo]
    exact (Nat.mod_le _ _).trans (by omega)
  rw [toNat_saturatingSub64, toNat_min64]
  omega

theorem does_enter (kind : FrameKind) (bound retOff retLen : UInt64)
    (context : UInt64 → ZvmContext → ZvmContext)
    (hlimit : ∀ forwarded ctx, (context forwarded ctx).gasLimit = forwarded)
    (hstatic : ∀ forwarded ctx, I ctx → ctx.isStatic = true →
      (context forwarded ctx).isStatic = true ∧ ∃ how, kind = .call how) :
    Does I A starts (do
      let forwarded ← forwardGas bound
      let f ← get
      pure (some ⟨kind,f.child (context forwarded f.ctx),retOff,retLen⟩)) := by
  intro f hf
  have hgas := toNat_forwarded bound f.gas
  refine ⟨⟨rfl,rfl,(Nat.le_add_right _ _).trans hgas,id⟩,?_⟩
  rintro sub ⟨⟩
  refine ⟨?_,rfl,rfl,fun h => hstatic _ _ hf h⟩
  change (saturatingSub64 f.gas (min bound (f.gas / 64 * 63))).toNat +
    (context (min bound (f.gas / 64 * 63)) f.ctx).gasLimit.toNat ≤ f.gas.toNat
  rw [hlimit]
  exact hgas

section Reading
variable (hread : ∀ ctx c, mutates c = false → A ctx c)
include hread

theorem within_adapt {α : Type} (p : Program HostRead.Reply α) (ctx : ZvmContext) :
    (HostRead.adapt p).Within (A ctx) (fun _ => True) := by
  induction p with
  | done a => exact trivial
  | call r next ih =>
    refine ⟨hread ctx _ ?_,fun x => ih x⟩
    cases r with
    | resolve name => rfl
    | reverse addr => rfl
    | readSlot addr slot => rfl

theorem does_readHost {α : Type} (p : Program HostRead.Reply α) : Does I A spends (readHost p) := by
  intro f _
  refine (Program.within_bind (HostRead.adapt p) _).mpr ?_
  exact (within_adapt hread p f.ctx).mono (fun _ hc => hc) fun _ _ => Spends.refl f

theorem does_doPrecompileCall (Z : Precompiles) (args : CallArgs) (calldata : List UInt8) :
    Does I A starts (doPrecompileCall Z args calldata) :=
  .get_bind fun _ => .bind absorbs_starts (does_readHost hread _) fun _ =>
    .bind absorbs_starts (.lift (spending_settlePrecompile _ _)) fun _ => does_none

theorem does_collides (addr : Address) : Does I A spends (collides addr) :=
  .bind absorbs_spends (.host fun ctx _ => hread ctx _ rfl) fun _ => .ite (.pure _)
    (.bind absorbs_spends (.host fun ctx _ => hread ctx _ rfl) fun _ => .pure _)

end Reading

/-- A static frame sends no value. -/
def SendsFrom (kind : ZvmCallKind) (value : ℕ) (ctx : ZvmContext) : Prop :=
  ctx.isStatic = true → kind = .call → value = 0

/-- A call that has its operands sends no value out of a static frame. -/
theorem popCall_guarded {kind : ZvmCallKind} {args : CallArgs} {f f' : ZvmInterpreter}
    (h : popCall kind f = (.ok args,f')) : SendsFrom kind args.value f.ctx := by
  rintro hstatic rfl
  unfold popCall at h
  rw [bind_ok] at h
  obtain ⟨gasReq,f₁,hgas,h⟩ := h
  rw [bind_ok] at h
  obtain ⟨target,f₂,htarget,h⟩ := h
  rw [bind_ok] at h
  obtain ⟨value,f₃,hvalue,h⟩ := h
  rw [bind_ok] at h
  obtain ⟨⟨⟩,f₄,hguard,h⟩ := h
  have hctx : f₃.ctx = f.ctx := by
    have hfirst := (spending_popU64 f).ctx
    have hsecond := (spending_popAddress f₁).ctx
    have hthird := spending_popValue .call f₂
    rw [hgas] at hfirst
    rw [htarget] at hsecond
    rw [hvalue] at hthird
    exact hthird.ctx.trans (hsecond.trans hfirst)
  have hzero : value = 0 := by
    unfold valueGuard at hguard
    rw [bind_ok] at hguard
    obtain ⟨_,_,hget,hguard⟩ := hguard
    cases hget
    rw [hctx, hstatic] at hguard
    split at hguard
    · cases hguard
    · rename_i hnot
      by_contra hne
      exact hnot ⟨rfl,rfl,Nat.pos_of_ne_zero hne⟩
  simp only [bind_ok] at h
  obtain ⟨_,_,-,_,_,-,_,_,-,_,_,-,_,_,-,_,_,-,_,_,-,h⟩ := h
  cases h
  exact hzero

variable (hread : ∀ ctx c, mutates c = false → A ctx c) (hlive : ∀ ctx c, ctx.isStatic = false → A ctx c)
include hread hlive

theorem allowed_of_sends {kind : ZvmCallKind} {value : ℕ} {ctx : ZvmContext} (h : SendsFrom kind value ctx)
    (hkind : kind = .call) (source dest : Address) : A ctx (.transfer source dest value) := by
  cases hstatic : ctx.isStatic with
  | true =>
    apply hread
    simp [mutates, h hstatic hkind]
  | false => exact hlive ctx _ hstatic

theorem does_payTarget (kind : ZvmCallKind) (args : CallArgs) :
    Does (SendsFrom kind args.value) A spends (payTarget kind args) := by
  unfold payTarget
  split
  · rename_i hpays
    refine .get_bind fun _ => .bind absorbs_spends (.host fun ctx _ => hread ctx _ rfl) fun _ =>
      .ite (.pure _) (.bind absorbs_spends ?_ fun _ => .pure _)
    exact .get_bind fun _ => .bind absorbs_spends
      (.host fun ctx hctx => allowed_of_sends hread hlive hctx hpays.1 _ _) fun _ =>
      .ite (.pure ()) (.lift (.throw _))
  · exact .pure _

theorem does_enterCall (kind : ZvmCallKind) (args : CallArgs) (calldata : List UInt8) :
    Does (SendsFrom kind args.value) A starts (enterCall kind args calldata) := by
  refine .bind absorbs_starts (.host fun ctx _ => hread ctx _ rfl) fun code =>
    .bind absorbs_starts (does_payTarget hread hlive kind args) fun paid => .ite ?_ does_giveUp
  apply does_enter (.call kind) args.gasReq args.retOff args.retLen (callContext kind args code calldata)
  · exact fun _ _ => rfl
  · intro forwarded ctx _ hstatic
    refine ⟨?_,kind,rfl⟩
    simp [callContext, hstatic]

theorem does_beginCall (Z : Precompiles) (kind : ZvmCallKind) : Does I A starts (beginCall Z kind) := by
  apply Does.lift_bind absorbs_starts (spending_popCall kind)
  intro f args f₁ hpop
  exact ⟨popCall_guarded hpop,.get_bind fun _ => .ite does_giveUp <|
    .bind absorbs_starts (.lift (spending_readSlice _ _)) fun calldata =>
    .ite (does_doPrecompileCall hread Z args calldata) <|
    .bind absorbs_starts (.host fun ctx _ => hread ctx _ rfl) fun _ =>
    .ite (does_enterCall hread hlive kind args calldata) does_giveUp⟩

omit hread in
theorem does_sendValue (dest : Address) (value : ℕ) :
    Does (fun ctx => ctx.isStatic = false) A spends (sendValue dest value) :=
  .ite (.get_bind fun _ => .bind absorbs_spends (.host fun ctx => hlive ctx _) fun _ =>
    .ite (.pure ()) (.lift (.throw _))) (.pure ())

omit hread in
theorem does_enterCreate (withSalt : Bool) (newAddr : Address) (args : CreateArgs) (initcode : List UInt8) :
    Does (fun ctx => ctx.isStatic = false) A starts (enterCreate withSalt newAddr args initcode) := by
  refine .bind absorbs_starts (does_sendValue hlive newAddr args.value) fun _ =>
    .bind absorbs_starts (.host fun ctx => hlive ctx _) fun _ => ?_
  apply does_enter (.create withSalt) _ 0 0 (createContext newAddr args.value initcode)
  · exact fun _ _ => rfl
  · intro forwarded ctx hlive hstatic
    rw [hlive] at hstatic
    cases hstatic

omit hread hlive in
theorem popCreate_guarded {withSalt : Bool} {args : CreateArgs} {f f' : ZvmInterpreter}
    (h : popCreate withSalt f = (.ok args,f')) : f.ctx.isStatic = false := by
  unfold popCreate at h
  rw [bind_ok] at h
  obtain ⟨⟨⟩,f₂,hguard,-⟩ := h
  exact staticGuard_ok hguard

theorem does_beginCreate (P : Platform) (withSalt : Bool) : Does I A starts (beginCreate P withSalt) := by
  apply Does.lift_bind (J := fun _ ctx => ctx.isStatic = false) absorbs_starts (spending_popCreate withSalt)
  intro f args f₁ hpop
  exact ⟨popCreate_guarded hpop,.ite does_giveUp <|
    .bind absorbs_starts (.lift (spending_chargeCreate args)) fun _ => .get_bind fun _ =>
    .ite does_giveUp <| .get_bind fun _ => .bind absorbs_starts (.host fun ctx _ => hread ctx _ rfl) fun _ =>
    .ite does_refuse <| .bind absorbs_starts (.lift (spending_readSlice _ _)) fun initcode =>
    .bind absorbs_starts (.host fun ctx _ => hread ctx _ rfl) fun _ =>
    .bind absorbs_starts (.host fun ctx => hlive ctx _) fun _ =>
    .bind absorbs_starts (does_collides hread _) fun _ =>
    .ite does_refuse (does_enterCreate hlive withSalt _ args initcode)⟩

/-- So does the opening of a sub-frame, before the frame runs. -/
theorem does_startFrame (P : Platform) (Z : Precompiles) (kind : FrameKind) :
    Does I A starts (startFrame P Z kind) := by
  have hbegin : Does I A starts (beginFrame P Z kind) := by
    cases kind with
    | call kind => exact does_beginCall hread hlive Z kind
    | create withSalt => exact does_beginCreate hread hlive P withSalt
  intro f hf
  refine (within_bind_iff (beginFrame P Z kind) _ f).mpr ((hbegin f hf).mono (fun _ hc => hc) ?_)
  rintro ⟨e | sub,f₁⟩ hstarts
  · exact absorbs_starts.failed hstarts.1
  · cases sub with
    | some sub => exact hstarts
    | none => exact ⟨⟨hstarts.1.ctx,hstarts.1.depth,hstarts.1.gas,hstarts.1.memory⟩,by rintro _ ⟨⟩⟩

end Starts

section Resumptions
variable {A : ZvmContext → ZvmCall → Prop} {I : ZvmContext → Prop}

theorem spending_resumeCall (sub : SubFrame) (result : ZvmResult) : Spending (resumeCall sub result) :=
  (spending_setReturnData _).bind fun _ => (spending_storeBytes _ _).bind fun _ => spending_push _

variable (hlive : ∀ ctx c, ctx.isStatic = false → A ctx c)
include hlive

theorem does_deploy (newAddr : Address) (deployed : List UInt8) :
    Does (fun ctx => ctx.isStatic = false) A spends (deploy newAddr deployed) := by
  unfold deploy
  dsimp only
  refine .ite (.lift (spending_push _)) (.ite (.lift (spending_push _)) ?_)
  intro f hf
  have hdeployed : Does (fun ctx => ctx.isStatic = false) A spends (do
      host (.setCode newAddr deployed)
      host (.markCreatedThisTx newAddr)
      setReturnData []
      FrameOp.pushAddress newAddr) :=
    .bind absorbs_spends (.host fun ctx => hlive ctx _) fun _ =>
      .bind absorbs_spends (.host fun ctx => hlive ctx _) fun _ =>
      .bind absorbs_spends (.lift (spending_setReturnData _)) fun _ => .lift (spending_push _)
  change ((if f.gas < 200 * UInt64.ofNat deployed.length then _ else _ : FrameM Unit) f).Within _ _
  split
  · exact spending_push _ f
  · rename_i henough
    exact (hdeployed { f with gas := f.gas - 200 * UInt64.ofNat deployed.length } hf).mono
      (fun _ hc => hc) fun _ h => (spends_charge henough).trans h

theorem does_resumeOpcode (sub : SubFrame) (result : ZvmResult) :
    Does (fun ctx => ctx.isStatic = true → ∃ kind, sub.kind = .call kind) A spends
      (resumeOpcode sub result) := by
  intro f hf
  unfold resumeOpcode
  cases hkind : sub.kind with
  | call kind => exact spending_resumeCall sub result f
  | create withSalt =>
    have hctx : f.ctx.isStatic = false := by
      cases hstatic : f.ctx.isStatic with
      | false => rfl
      | true =>
        obtain ⟨kind,hcall⟩ := hf hstatic
        rw [hkind] at hcall
        cases hcall
    have hcreate : Does (fun ctx => ctx.isStatic = false) A spends (resumeCreate sub result) := by
      unfold resumeCreate
      exact .ite (does_deploy hlive _ _)
        (.bind absorbs_spends (.lift (spending_setReturnData _)) fun _ => .lift (spending_push _))
    exact hcreate f hctx

/-- The return of a sub-frame makes allowed calls and hands back no more than the gas left. -/
theorem within_resumeFrame (sub : SubFrame) (result : ZvmResult) (child f : ZvmInterpreter)
    (hf : f.ctx.isStatic = true → ∃ kind, sub.kind = .call kind) :
    (resumeFrame sub result child f).Within (A f.ctx) (fun r =>
      r.2.ctx = f.ctx ∧ r.2.gas.toNat ≤ f.gas.toNat + result.gasRemaining.toNat ∧
        (f.memory.Bounded → r.2.memory.Bounded)) := by
  have hrest : Does (fun ctx => ctx.isStatic = true → ∃ kind, sub.kind = .call kind) A spends (do
      resumeOpcode sub result
      FrameOp.advance) :=
    .bind absorbs_spends (does_resumeOpcode hlive sub result) fun _ => .lift spending_advance
  refine (hrest { f with
    accessedAddresses := child.accessedAddresses ∪ f.accessedAddresses
    accessedSlots := child.accessedSlots ∪ f.accessedSlots
    gas := saturatingAdd64 f.gas result.gasRemaining } hf).mono (fun _ hc => hc) ?_
  intro r hspends
  refine ⟨hspends.ctx,hspends.gas.trans ?_,hspends.memory⟩
  dsimp only
  rw [saturatingAdd64, UInt64.toNat_ofNat']
  omega

end Resumptions

end ZbxChain.Zvm
