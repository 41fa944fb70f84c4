import ZbxChain.Execution.Conservation

/-! # What the opcodes that start a frame do to the state

A program of a frame runs with a handler of its host calls. A run that succeeds is taken
apart call by call; only transfers and nonces change the state before a frame runs.
-/
namespace ZbxChain.Zvm

section Exec
variable {α β σ : Type} (h : Program.Handler ZvmCall.Reply σ)

def FrameM.exec (p : FrameM α) (f : ZvmInterpreter) (s : σ) :
    (Except ZvmFault α × ZvmInterpreter) × σ := (p f).run h s

variable {f f' : ZvmInterpreter} {s s' : σ} {a : α} {b : β}

@[simp] theorem exec_pure (a : α) (f : ZvmInterpreter) (s : σ) :
    (pure a : FrameM α).exec h f s = ((.ok a,f),s) := rfl

@[simp] theorem exec_get (f : ZvmInterpreter) (s : σ) :
    (get : FrameM ZvmInterpreter).exec h f s = ((.ok f,f),s) := rfl

@[simp] theorem exec_host (c : ZvmCall) (f : ZvmInterpreter) (s : σ) :
    (host c).exec h f s = ((.ok (h c s).1,f),(h c s).2) := rfl

@[simp] theorem exec_lift (p : FrameOp α) (f : ZvmInterpreter) (s : σ) :
    (liftM p : FrameM α).exec h f s = (p f,s) := rfl

@[simp] theorem exec_ite {c : Prop} [Decidable c] (p q : FrameM α) (f : ZvmInterpreter) (s : σ) :
    (if c then p else q).exec h f s = if c then p.exec h f s else q.exec h f s := by
  split
  · rfl
  · rfl

theorem exec_bind (p : FrameM α) (q : α → FrameM β) (f : ZvmInterpreter) (s : σ) :
    (p >>= q).exec h f s = match p.exec h f s with
      | ((.ok a,f₁),s₁) => (q a).exec h f₁ s₁
      | ((.error e,f₁),s₁) => ((.error e,f₁),s₁) := by
  refine (Program.run_bind (p f) _ s).trans ?_
  unfold FrameM.exec
  rcases (p f).run h s with ⟨⟨e | a,f₁⟩,s₁⟩
  · rfl
  · rfl

theorem exec_bind_ok (p : FrameM α) (q : α → FrameM β) :
    (p >>= q).exec h f s = ((.ok b,f'),s') ↔
      ∃ a f₁ s₁, p.exec h f s = ((.ok a,f₁),s₁) ∧ (q a).exec h f₁ s₁ = ((.ok b,f'),s') := by
  rw [exec_bind]
  rcases p.exec h f s with ⟨⟨e | a,f₁⟩,s₁⟩
  · constructor
    · rintro ⟨⟩
    · rintro ⟨a,f₂,s₂,⟨⟩,-⟩
  · constructor
    · intro hq
      exact ⟨a,f₁,s₁,rfl,hq⟩
    · rintro ⟨a₂,f₂,s₂,⟨⟩,hq⟩
      exact hq

@[simp] theorem exec_get_bind (q : ZvmInterpreter → FrameM β) (f : ZvmInterpreter) (s : σ) :
    ((get : FrameM ZvmInterpreter) >>= q).exec h f s = (q f).exec h f s := rfl

@[simp] theorem exec_host_bind (c : ZvmCall) (q : c.Reply → FrameM β) (f : ZvmInterpreter) (s : σ) :
    (host c >>= q).exec h f s = (q (h c s).1).exec h f (h c s).2 := rfl

theorem exec_lift_bind_ok (p : FrameOp α) (q : α → FrameM β) :
    ((liftM p : FrameM α) >>= q).exec h f s = ((.ok b,f'),s') ↔
      ∃ a f₁, p f = (.ok a,f₁) ∧ (q a).exec h f₁ s = ((.ok b,f'),s') := by
  rw [exec_bind_ok]
  constructor
  · rintro ⟨a,f₁,s₁,hp,hq⟩
    rw [exec_lift, Prod.mk.injEq] at hp
    exact ⟨a,f₁,hp.1,hp.2 ▸ hq⟩
  · rintro ⟨a,f₁,hp,hq⟩
    exact ⟨a,f₁,s,congrArg (·,s) hp,hq⟩

end Exec

section Views

def transferred (view : ExecView) (source dest : Address) (amount : ℕ) : ExecView :=
  let debited := view.setAccount source ((view.getAccount source).setBalanceU128
    ((view.getAccount source).balanceU128 - amount))
  debited.setAccount dest ((debited.getAccount dest).setBalanceU128
    (saturatingAdd128 (debited.getAccount dest).balanceU128 amount))

def nonceBumped (view : ExecView) (addr : Address) : ExecView :=
  view.setAccount addr { view.getAccount addr with
    nonce := saturatingAdd64 (view.getAccount addr).nonce 1 }

def moved (wei : Address → ℕ) (source dest : Address) (amount : ℕ) : Address → ℕ :=
  let debited := Function.update wei source (min (wei source) maxU128 - amount)
  Function.update debited dest (saturatingAdd128 (min (debited dest) maxU128) amount)

variable {view : ExecView} {source dest addr : Address} {amount : ℕ}

theorem wei_setBalanceU128 (acct : AccountState) {wei : ℕ} (hfits : wei ≤ maxU128) :
    (view.setAccount addr (acct.setBalanceU128 wei)).wei = Function.update view.wei addr wei := by
  funext a
  rw [wei_setAccount, toNat_setBalanceU128 hfits, Function.update_apply]

theorem wei_transferred : (transferred view source dest amount).wei = moved view.wei source dest amount := by
  have hfits : (view.getAccount source).balanceU128 - amount ≤ maxU128 :=
    (Nat.sub_le _ _).trans (min_le_right _ _)
  unfold transferred moved
  simp only [wei_setBalanceU128 _ hfits, wei_setBalanceU128 _ (min_le_right _ maxU128), saturatingAdd128]
  have hdebited : (view.setAccount source ((view.getAccount source).setBalanceU128
      ((view.getAccount source).balanceU128 - amount))).wei = _ := wei_setBalanceU128 _ hfits
  have hread := congrFun hdebited dest
  unfold ExecView.wei at hread
  simp only [AccountState.balanceU128] at hread ⊢
  rw [hread]
  rfl

theorem wei_nonceBumped : (nonceBumped view addr).wei = view.wei := wei_keepBalance rfl

end Views

section Replies
variable {P : Platform} {host : ProductionZvmHost} {view : ExecView} {source dest addr : Address} {amount : ℕ}

theorem run_transfer : (ProductionZvmHost.transfer source dest amount).run ExecView.answer view =
    if (view.getAccount source).balanceU128 < amount then (false,view)
    else (true,transferred view source dest amount) := by
  unfold ProductionZvmHost.transfer
  rw [Program.run_bind, run_getAccount, Program.run_ite]
  rfl

theorem hostHandler_transfer : hostHandler P (.transfer source dest amount) (host,view) =
    if (view.getAccount source).balanceU128 < amount then (false,(host,view))
    else (true,(host,transferred view source dest amount)) := by
  simp only [hostHandler, Program.stacked, ProductionZvmHost.answer, run_reading, run_transfer]
  split
  · rfl
  · rfl

theorem hostHandler_incNonce : (hostHandler P (.incNonce addr) (host,view)).2 =
    (host,nonceBumped view addr) := rfl

theorem hostHandler_balance : hostHandler P (.balance addr) (host,view) =
    ((view.getAccount addr).balanceU128,(host,view)) := rfl

theorem hostHandler_nonce : hostHandler P (.nonce addr) (host,view) =
    ((view.getAccount addr).nonce,(host,view)) := rfl

theorem hostHandler_code : hostHandler P (.code addr) (host,view) = (view.getCode addr,(host,view)) := rfl

end Replies

section Alterations

/-- The call changes what is there; a transfer or a burn that is refused does not. -/
def Alters : ZvmCall → ProductionZvmHost × ExecView → Prop
  | .storageStore addr key value, s => s.2.state.getStorage addr key ≠ value
  | .transientStore addr key value, s => (s.1.transient.lookup (addr,key)).getD 0 ≠ value
  | .transfer payer _ amount, s | .burnZbx payer amount, s => amount ≤ (s.2.getAccount payer).balanceU128
  | .incNonce _, _ | .setCode _ _, _ | .markCreatedThisTx _, _ | .selfdestruct _ _, _ | .emitLog _ _ _, _ => True
  | _, _ => False

instance decidableAlters (c : ZvmCall) (s : ProductionZvmHost × ExecView) : Decidable (Alters c s) := by
  unfold Alters
  split
  all_goals infer_instance

/-- The words that can be read are the same, and everything else is. -/
structure Unaltered (s s' : ProductionZvmHost × ExecView) : Prop where
  transient : ∃ transient, s'.1 = { s.1 with transient := transient } ∧
    ∀ slot, (transient.lookup slot).getD 0 = (s.1.transient.lookup slot).getD 0
  storage : ∃ storage, s'.2 = { s.2 with state := { s.2.state with storage := storage } } ∧
    ∀ addr key, readSlot storage addr key = readSlot s.2.state.storage addr key

theorem unaltered_refl (s : ProductionZvmHost × ExecView) : Unaltered s s :=
  ⟨⟨_,rfl,fun _ => rfl⟩,_,rfl,fun _ _ => rfl⟩

theorem Unaltered.trans {s s' s'' : ProductionZvmHost × ExecView} (h : Unaltered s s') (h' : Unaltered s' s'') :
    Unaltered s s'' := by
  obtain ⟨host,view⟩ := s
  obtain ⟨host',view'⟩ := s'
  obtain ⟨host'',view''⟩ := s''
  obtain ⟨⟨_,rfl,ht⟩,_,rfl,hw⟩ := h
  obtain ⟨⟨_,rfl,ht'⟩,_,rfl,hw'⟩ := h'
  exact ⟨⟨_,rfl,fun slot => (ht' slot).trans (ht slot)⟩,_,rfl,fun addr key => (hw' addr key).trans (hw addr key)⟩

theorem unaltered_hostHandler {P : Platform} (c : ZvmCall) (s : ProductionZvmHost × ExecView) (hc : ¬ Alters c s) :
    Unaltered s (hostHandler P c s).2 := by
  obtain ⟨host,view⟩ := s
  cases c with
  | storageStore addr key value =>
    refine ⟨⟨_,rfl,fun _ => rfl⟩,_,rfl,fun a k => ?_⟩
    rw [readSlot_writeSlot]
    split
    · rename_i hsame
      rw [hsame.1, hsame.2]
      exact (not_not.mp hc).symm
    · rfl
  | transientStore addr key value =>
    refine ⟨⟨_,rfl,fun slot => ?_⟩,_,rfl,fun _ _ => rfl⟩
    by_cases hsame : slot = (addr,key)
    · rw [hsame, AList.lookup_insert]
      exact (not_not.mp hc).symm
    · rw [AList.lookup_insert_ne hsame]
  | transfer payer dest amount =>
    rw [hostHandler_transfer, if_pos (not_le.mp hc)]
    exact unaltered_refl _
  | burnZbx payer amount =>
    simp only [hostHandler, Program.stacked, ProductionZvmHost.answer, run_reading]
    unfold ProductionZvmHost.burnZbx
    rw [Program.run_bind, run_getAccount, Program.run_ite, if_pos (not_le.mp hc)]
    exact unaltered_refl _
  | incNonce | setCode | markCreatedThisTx | selfdestruct | emitLog => exact absurd trivial hc
  | isEmpty addr =>
    simp only [hostHandler, Program.stacked, ProductionZvmHost.answer, run_reading,
      ProductionZvmHost.isEmpty, ProductionZvmHost.balance, Program.run_bind, run_getAccount,
      Program.run_pure, Program.run_ite]
    split_ifs
    all_goals exact unaltered_refl _
  | resolvePayId name | resolvePayIdBytes name =>
    simp only [hostHandler, Program.stacked, ProductionZvmHost.answer, run_reading,
      ProductionZvmHost.resolvePayIdBytes, Program.run_ite]
    split
    all_goals exact unaltered_refl _
  | _ => exact unaltered_refl _

/-- A run that makes no call that changes what is there leaves everything. -/
theorem unaltered_run {P : Platform} {α : Type} (p : Program ZvmCall.Reply α) (s : ProductionZvmHost × ExecView)
    (h : p.Along (hostHandler P) (fun c t => ¬ Alters c t) s) : Unaltered s (p.run (hostHandler P) s).2 :=
  Program.run_keeps_along (fun c t hc ht => ht.trans (unaltered_hostHandler c t hc)) p s h (unaltered_refl s)

end Alterations

section Operations
variable {α β : Type} {f f' : ZvmInterpreter} {a : α} {b : β}

theorem bind_apply (p : FrameOp α) (q : α → FrameOp β) (f : ZvmInterpreter) :
    (p >>= q) f = match p f with
      | (.ok a,f₁) => q a f₁
      | (.error e,f₁) => (.error e,f₁) := by
  change (ExceptT.bindCont q (p f).1) (p f).2 = _
  rcases p f with ⟨e | a,f₁⟩
  · rfl
  · rfl

theorem bind_ok (p : FrameOp α) (q : α → FrameOp β) :
    (p >>= q) f = (.ok b,f') ↔ ∃ a f₁, p f = (.ok a,f₁) ∧ q a f₁ = (.ok b,f') := by
  rw [bind_apply]
  rcases p f with ⟨e | a,f₁⟩
  · constructor
    · rintro ⟨⟩
    · rintro ⟨a,f₂,⟨⟩,-⟩
  · constructor
    · intro hq
      exact ⟨a,f₁,rfl,hq⟩
    · rintro ⟨a₂,f₂,⟨⟩,hq⟩
      exact hq

variable {γ : Type} {π : ZvmInterpreter → γ}

/-- An operation that leaves a part of the frame as it is, whatever it comes to. -/
def Keeps (π : ZvmInterpreter → γ) (p : FrameOp α) : Prop := ∀ f, π (p f).2 = π f

theorem Keeps.pure (a : α) : Keeps π (pure a) := fun _ => rfl

theorem Keeps.throw (e : ZvmFault) : Keeps π (throw e : FrameOp α) := fun _ => rfl

theorem Keeps.bind {p : FrameOp α} {q : α → FrameOp β} (hp : Keeps π p) (hq : ∀ a, Keeps π (q a)) :
    Keeps π (p >>= q) := by
  intro f
  change π ((ExceptT.bindCont q (p f).1) (p f).2).2 = π f
  have hfirst := hp f
  generalize p f = r at hfirst ⊢
  rcases r with ⟨e | a,f₁⟩
  · exact hfirst
  · exact (hq a f₁).trans hfirst

theorem Keeps.ite {c : Prop} [Decidable c] {p q : FrameOp α} (hp : Keeps π p) (hq : Keeps π q) :
    Keeps π (if c then p else q) := by
  split
  · exact hp
  · exact hq

theorem Keeps.get_bind {q : ZvmInterpreter → FrameOp α} (hq : ∀ f, Keeps π (q f)) :
    Keeps π ((get : FrameOp ZvmInterpreter) >>= q) := fun f => hq f f

theorem Keeps.modify {g : ZvmInterpreter → ZvmInterpreter} (hg : ∀ f, π (g f) = π f) :
    Keeps π (modify g : FrameOp Unit) := hg

theorem Keeps.orFail (r : Except ZvmError α) : Keeps π (FrameOp.orFail r) := by
  cases r with
  | error e => exact Keeps.throw _
  | ok a => exact Keeps.pure a

theorem Keeps.orPanic (r : Option α) : Keeps π (FrameOp.orPanic r) := by
  cases r with
  | none => exact Keeps.throw _
  | some a => exact Keeps.pure a

section Stack
variable (hstack : ∀ f stack, π { f with stack := stack } = π f)
include hstack

theorem Keeps.push (word : U256) : Keeps π (FrameOp.push word) :=
  Keeps.get_bind fun _ => (Keeps.orFail _).bind fun _ => Keeps.modify fun f => hstack f _

theorem Keeps.pop : Keeps π FrameOp.pop := by
  apply Keeps.get_bind
  intro f
  apply (Keeps.orFail _).bind
  rintro ⟨word,stack⟩
  exact (Keeps.modify fun f => hstack f stack).bind fun _ => Keeps.pure word

theorem Keeps.popU64 : Keeps π FrameOp.popU64 := (Keeps.pop hstack).bind fun _ => Keeps.pure _

theorem Keeps.popU128 : Keeps π FrameOp.popU128 := (Keeps.pop hstack).bind fun _ => Keeps.pure _

theorem Keeps.popAddress : Keeps π FrameOp.popAddress := (Keeps.pop hstack).bind fun _ => Keeps.pure _

end Stack

theorem Keeps.chargeGas (hgas : ∀ f gas, π { f with gas := gas } = π f) (amt : UInt64) :
    Keeps π (FrameOp.chargeGas amt) := by
  intro f
  change π ((if f.gas < amt then _ else _ : FrameOp Unit) f).2 = π f
  split
  · exact hgas f 0
  · exact hgas f (f.gas - amt)

theorem Keeps.chargeMemExpansion (hgas : ∀ f gas, π { f with gas := gas } = π f) (newSize : UInt64) :
    Keeps π (FrameOp.chargeMemExpansion newSize) :=
  Keeps.ite (Keeps.pure ()) (Keeps.get_bind fun _ => Keeps.ite (Keeps.pure ()) (Keeps.chargeGas hgas _))

theorem Keeps.touchAddress (hgas : ∀ f gas, π { f with gas := gas } = π f)
    (hwarm : ∀ f warm, π { f with accessedAddresses := warm } = π f) (addr : Address) :
    Keeps π (FrameOp.touchAddress addr) := fun f =>
  (Keeps.chargeGas hgas _ { f with accessedAddresses := f.accessedAddresses.insert addr }).trans (hwarm f _)

theorem Keeps.readMemory (hmemory : ∀ f memory, π { f with memory := memory } = π f)
    (read : ZvmMemory → Option (α × ZvmMemory)) : Keeps π (FrameOp.readMemory read) := by
  apply Keeps.get_bind
  intro f
  apply (Keeps.orPanic _).bind
  rintro ⟨a,memory⟩
  exact (Keeps.modify fun f => hmemory f memory).bind fun _ => Keeps.pure a

theorem Keeps.readSlice (hmemory : ∀ f memory, π { f with memory := memory } = π f)
    (offset len : UInt64) : Keeps π (FrameOp.readSlice offset len) := Keeps.readMemory hmemory _

theorem Keeps.writeMemory (hmemory : ∀ f memory, π { f with memory := memory } = π f)
    (write : ZvmMemory → Option ZvmMemory) : Keeps π (FrameOp.writeMemory write) :=
  Keeps.get_bind fun _ => (Keeps.orPanic _).bind fun _ => Keeps.modify fun f => hmemory f _

theorem Keeps.staticGuard : Keeps π FrameOp.staticGuard :=
  Keeps.get_bind fun _ => Keeps.ite (Keeps.throw _) (Keeps.pure ())

section Operands
variable (hstack : ∀ f stack, π { f with stack := stack } = π f) (hgas : ∀ f gas, π { f with gas := gas } = π f)

include hstack in
theorem Keeps.popCreate (withSalt : Bool) : Keeps π (popCreate withSalt) := by
  have hword := Keeps.popU64 hstack
  have hsalt : Keeps π (popSalt withSalt) :=
    Keeps.ite ((Keeps.pop hstack).bind fun _ => Keeps.pure _) (Keeps.pure none)
  exact Keeps.staticGuard.bind fun _ => (Keeps.popU128 hstack).bind fun _ => hword.bind fun _ =>
    hword.bind fun _ => hsalt.bind fun _ => Keeps.pure _

include hgas

theorem Keeps.chargeCreate (args : CreateArgs) : Keeps π (chargeCreate args) :=
  (Keeps.chargeGas hgas _).bind fun _ => (Keeps.chargeGas hgas _).bind fun _ =>
    Keeps.chargeMemExpansion hgas _

include hstack

theorem Keeps.popCall (hwarm : ∀ f warm, π { f with accessedAddresses := warm } = π f) (kind : ZvmCallKind) :
    Keeps π (popCall kind) := by
  have hvalue : Keeps π (popValue kind) := Keeps.ite (Keeps.popU128 hstack) (Keeps.pure 0)
  have hguard : ∀ value, Keeps π (valueGuard kind value) := fun value =>
    Keeps.get_bind fun _ => Keeps.ite (Keeps.throw _) (Keeps.pure ())
  have hword := Keeps.popU64 hstack
  exact hword.bind fun _ => (Keeps.popAddress hstack).bind fun target => hvalue.bind fun value =>
    (hguard value).bind fun _ => hword.bind fun _ => hword.bind fun _ => hword.bind fun _ =>
    hword.bind fun _ => (Keeps.touchAddress hgas hwarm target).bind fun _ =>
    (Keeps.chargeMemExpansion hgas _).bind fun _ => (Keeps.chargeMemExpansion hgas _).bind fun _ =>
    Keeps.pure _

end Operands

def fixedPart (f : ZvmInterpreter) : ZvmContext × ℕ × ZvmMemory × List UInt8 :=
  (f.ctx,f.depth,f.memory,f.returnData)

theorem keeps_popCall (kind : ZvmCallKind) : Keeps fixedPart (popCall kind) :=
  Keeps.popCall (fun _ _ => rfl) (fun _ _ => rfl) (fun _ _ => rfl) kind

theorem keeps_popCreate (withSalt : Bool) : Keeps fixedPart (popCreate withSalt) :=
  Keeps.popCreate (fun _ _ => rfl) withSalt

theorem keeps_chargeCreate (args : CreateArgs) : Keeps fixedPart (chargeCreate args) :=
  Keeps.chargeCreate (fun _ _ => rfl) args

end Operations

section Beginnings
variable {P : Platform} {Z : Precompiles} {host : ProductionZvmHost} {view : ExecView}
variable {f f' : ZvmInterpreter} {s s' : ProductionZvmHost × ExecView}

theorem giveUp_ok {sub : Option SubFrame} (h : giveUp.exec (hostHandler P) f s = ((.ok sub,f'),s')) :
    sub = none ∧ s' = s := by
  unfold giveUp at h
  simp only [exec_lift_bind_ok, exec_pure, Prod.mk.injEq, Except.ok.injEq] at h
  obtain ⟨-,f₁,-,-,f₂,-,⟨hsub,-⟩,hs⟩ := h
  exact ⟨hsub.symm,hs.symm⟩

theorem refuse_ok {sub : Option SubFrame} (h : refuse.exec (hostHandler P) f s = ((.ok sub,f'),s')) :
    sub = none ∧ s' = s := by
  unfold refuse at h
  simp only [exec_lift_bind_ok, exec_pure, Prod.mk.injEq, Except.ok.injEq] at h
  obtain ⟨-,f₁,-,⟨hsub,-⟩,hs⟩ := h
  exact ⟨hsub.symm,hs.symm⟩

theorem send_ok {dest : Address} {value : ℕ}
    (h : (send dest value).exec (hostHandler P) f (host,view) = ((.ok (),f'),s')) :
    f' = f ∧ value ≤ (view.getAccount f.ctx.contract).balanceU128 ∧
      s' = (host,transferred view f.ctx.contract dest value) := by
  unfold send at h
  rw [exec_get_bind, exec_host_bind, hostHandler_transfer] at h
  split at h
  · cases h
  · rename_i henough
    cases h
    exact ⟨rfl,not_lt.mp henough,rfl⟩

def sent (view : ExecView) (source dest : Address) (value : ℕ) : ExecView :=
  if 0 < value then transferred view source dest value else view

theorem sendValue_ok {dest : Address} {value : ℕ}
    (h : (sendValue dest value).exec (hostHandler P) f (host,view) = ((.ok (),f'),s')) :
    f' = f ∧ s' = (host,sent view f.ctx.contract dest value) := by
  unfold sendValue at h
  unfold sent
  split at h
  · rename_i hpos
    obtain ⟨hf,-,hs⟩ := send_ok h
    rw [if_pos hpos]
    exact ⟨hf,hs⟩
  · rename_i hzero
    cases h
    rw [if_neg hzero]
    exact ⟨rfl,rfl⟩

def Affords (view : ExecView) (kind : ZvmCallKind) (payer : Address) (value : ℕ) : Prop :=
  kind = .call → value ≤ (view.getAccount payer).balanceU128

theorem payTarget_ok {kind : ZvmCallKind} {args : CallArgs} {paid : Bool}
    (h : (payTarget kind args).exec (hostHandler P) f (host,view) = ((.ok paid,f'),s')) :
    f' = f ∧ (paid = true ↔ Affords view kind f.ctx.contract args.value) ∧
      s' = (host,if paid ∧ kind = .call then sent view f.ctx.contract args.target args.value else view) := by
  unfold payTarget at h
  unfold Affords
  split at h
  · rename_i hpays
    rw [exec_get_bind, exec_host_bind, hostHandler_balance, exec_ite] at h
    dsimp only at h
    split at h
    · rename_i hshort
      cases h
      refine ⟨rfl,?_,rfl⟩
      constructor
      · intro hfalse
        cases hfalse
      · intro haffords
        exact absurd (haffords hpays.1) (not_le.mpr hshort)
    · rename_i henough
      rw [exec_bind_ok] at h
      obtain ⟨⟨⟩,f₁,s₁,hsend,hpure⟩ := h
      obtain ⟨hf,-,hs⟩ := send_ok hsend
      cases hpure
      subst hf hs
      refine ⟨rfl,⟨fun _ _ => not_lt.mp henough,fun _ => rfl⟩,?_⟩
      rw [if_pos ⟨rfl,hpays.1⟩, sent, if_pos hpays.2]
  · rename_i hfree
    cases h
    refine ⟨rfl,⟨fun _ hcall => ?_,fun _ => rfl⟩,?_⟩
    · have hzero : args.value = 0 := Nat.eq_zero_of_not_pos fun hpos => hfree ⟨hcall,hpos⟩
      rw [hzero]
      exact Nat.zero_le _
    · by_cases hcall : kind = .call
      · rw [if_pos ⟨rfl,hcall⟩, sent, if_neg fun hpos => hfree ⟨hcall,hpos⟩]
      · rw [if_neg fun h => hcall h.2]

theorem forwardGas_ctx {bound forwarded : UInt64} (h : forwardGas bound f = (.ok forwarded,f')) :
    f'.ctx = f.ctx := by
  cases h
  rfl

theorem hostHandler_toCall (r : HostRead) (s : ProductionZvmHost × ExecView) :
    (hostHandler P r.toCall s).2 = s := by
  obtain ⟨host,view⟩ := s
  cases r with
  | resolve name =>
    simp only [HostRead.toCall, hostHandler, Program.stacked, ProductionZvmHost.answer, run_reading,
      ProductionZvmHost.resolvePayIdBytes, Program.run_ite]
    split
    · rfl
    · rfl
  | reverse addr => rfl
  | readSlot addr slot => rfl

theorem run_adapt {α : Type} (p : Program HostRead.Reply α) (s : ProductionZvmHost × ExecView) :
    ((HostRead.adapt p).run (hostHandler P) s).2 = s := by
  induction p generalizing s with
  | done a => rfl
  | call r next ih => exact (ih _ (hostHandler P r.toCall s).2).trans (hostHandler_toCall r s)

theorem readHost_ok {α : Type} {p : Program HostRead.Reply α} {a : α}
    (h : (readHost p).exec (hostHandler P) f s = ((.ok a,f'),s')) : f' = f ∧ s' = s := by
  have hall : (readHost p).exec (hostHandler P) f s =
      ((.ok ((HostRead.adapt p).run (hostHandler P) s).1,f),((HostRead.adapt p).run (hostHandler P) s).2) :=
    Program.run_bind (HostRead.adapt p) (fun a => .done (Except.ok a,f)) s
  rw [hall, run_adapt] at h
  cases h
  exact ⟨rfl,rfl⟩

theorem doPrecompileCall_ok {args : CallArgs} {calldata : List UInt8} {sub : Option SubFrame}
    (h : (doPrecompileCall Z args calldata).exec (hostHandler P) f s = ((.ok sub,f'),s')) :
    sub = none ∧ s' = s := by
  unfold doPrecompileCall at h
  rw [exec_get_bind, exec_bind_ok] at h
  obtain ⟨result,f₁,s₁,hread,hrest⟩ := h
  obtain ⟨-,hs⟩ := readHost_ok hread
  rw [exec_lift_bind_ok] at hrest
  obtain ⟨-,f₂,-,hpure⟩ := hrest
  cases hpure
  exact ⟨rfl,hs⟩

theorem popCall_value {kind : ZvmCallKind} {args : CallArgs} (h : popCall kind f = (.ok args,f'))
    (hkind : kind.popsValue = false) : args.value = 0 := by
  unfold popCall popValue at h
  rw [hkind, if_neg Bool.false_ne_true] at h
  simp only [bind_ok] at h
  obtain ⟨gasReq,f₁,-,target,f₂,-,value,f₃,hvalue,h⟩ := h
  cases hvalue
  obtain ⟨⟨⟩,f₄,-,argsOff,f₅,-,argsLen,f₆,-,retOff,f₇,-,retLen,f₈,-,⟨⟩,f₉,-,⟨⟩,f₁₀,-,⟨⟩,f₁₁,-,h⟩ := h
  cases h
  rfl

/-- What a call does to the view before its frame runs. -/
def callPaid (view : ExecView) (kind : ZvmCallKind) (payer : Address) (args : CallArgs) : ExecView :=
  if kind = .call then sent view payer args.target args.value else view

theorem enterCall_ok {kind : ZvmCallKind} {args : CallArgs} {calldata : List UInt8}
    {sub : Option SubFrame}
    (h : (enterCall kind args calldata).exec (hostHandler P) f (host,view) = ((.ok sub,f'),s')) :
    sub = none ∧ ¬ Affords view kind f.ctx.contract args.value ∧ s' = (host,view) ∨
      Affords view kind f.ctx.contract args.value ∧ s' = (host,callPaid view kind f.ctx.contract args) ∧
        ∃ forwarded, sub = some ⟨.call kind,f'.child (callContext kind args (view.getCode args.target)
          calldata forwarded f.ctx),args.retOff,args.retLen⟩ := by
  unfold enterCall at h
  rw [exec_host_bind, hostHandler_code, exec_bind_ok] at h
  obtain ⟨paid,f₁,s₁,hpay,hrest⟩ := h
  obtain ⟨hf,hpaid,hs⟩ := payTarget_ok hpay
  subst hf hs
  cases paid with
  | false =>
    obtain ⟨hsub,hs⟩ := giveUp_ok hrest
    refine Or.inl ⟨hsub,fun haffords => ?_,hs⟩
    cases hpaid.mpr haffords
  | true =>
    simp only [if_true, exec_lift_bind_ok, exec_get_bind, exec_pure, Prod.mk.injEq, Except.ok.injEq] at hrest
    obtain ⟨forwarded,f₂,hforward,⟨hsub,hf⟩,hs⟩ := hrest
    subst hf
    rw [forwardGas_ctx hforward] at hsub
    refine Or.inr ⟨hpaid.mp rfl,?_,forwarded,hsub.symm⟩
    rw [← hs, callPaid]
    simp only [true_and]

/-- `is_call_allowed` of the production host. -/
def callAllowed (host : ProductionZvmHost) (view : ExecView) (target : Address) : Bool :=
  if !(view.getAccount target).isContract then true
  else decide ((view.getAccount target).vm = host.callerVm)

/-- Once its operands are read and paid for, a call starts a frame. -/
def CallStarts (host : ProductionZvmHost) (view : ExecView) (kind : ZvmCallKind) (f : ZvmInterpreter)
    (args : CallArgs) : Prop :=
  f.depth < callDepthLimit ∧ isPrecompile args.target = false ∧
    callAllowed host view args.target = true ∧ Affords view kind f.ctx.contract args.value

/-- A call opcode that goes on has started a frame or has changed nothing. -/
theorem beginCall_ok {kind : ZvmCallKind} {sub : Option SubFrame}
    (h : (beginCall Z kind).exec (hostHandler P) f (host,view) = ((.ok sub,f'),s')) :
    ∃ args f₁, popCall kind f = (.ok args,f₁) ∧
      (sub = none ∧ ¬ CallStarts host view kind f args ∧ s' = (host,view) ∨
        CallStarts host view kind f args ∧ s' = (host,callPaid view kind f.ctx.contract args) ∧
          ∃ calldata forwarded, sub = some ⟨.call kind,f'.child (callContext kind args
            (view.getCode args.target) calldata forwarded f.ctx),args.retOff,args.retLen⟩) := by
  unfold beginCall at h
  rw [exec_lift_bind_ok] at h
  obtain ⟨args,f₁,hpop,hrest⟩ := h
  refine ⟨args,f₁,hpop,?_⟩
  have hfixed := keeps_popCall kind f
  rw [hpop] at hfixed
  have hctx : f₁.ctx = f.ctx := congrArg Prod.fst hfixed
  have hdepth : f₁.depth = f.depth := congrArg (·.2.1) hfixed
  rw [exec_get_bind, exec_ite, hdepth] at hrest
  split at hrest
  · rename_i hdeep
    obtain ⟨hsub,hs⟩ := giveUp_ok hrest
    exact Or.inl ⟨hsub,fun hstarts => absurd hstarts.1 (not_lt.mpr hdeep),hs⟩
  · rename_i hshallow
    rw [exec_lift_bind_ok] at hrest
    obtain ⟨calldata,f₂,hread,hrest⟩ := hrest
    have hctx₂ : f₂.ctx = f.ctx := by
      have hkeeps : Keeps ZvmInterpreter.ctx (FrameOp.readSlice args.argsOff args.argsLen) :=
        Keeps.readSlice (fun _ _ => rfl) _ _
      have hkept := hkeeps f₁
      rw [hread] at hkept
      exact hkept.trans hctx
    rw [exec_ite] at hrest
    split at hrest
    · rename_i hprecompile
      obtain ⟨hsub,hs⟩ := doPrecompileCall_ok hrest
      exact Or.inl ⟨hsub,fun hstarts => Bool.noConfusion (hprecompile.symm.trans hstarts.2.1),hs⟩
    · rename_i hordinary
      rw [exec_host_bind, exec_ite] at hrest
      split at hrest
      · rename_i hallowed
        rcases enterCall_ok hrest with ⟨hsub,hshort,hs⟩ | ⟨haffords,hs,forwarded,hsub⟩
        · rw [hctx₂] at hshort
          exact Or.inl ⟨hsub,fun hstarts => hshort hstarts.2.2.2,hs⟩
        · rw [hctx₂] at haffords hs hsub
          exact Or.inr ⟨⟨not_le.mp hshallow,Bool.eq_false_of_not_eq_true hordinary,hallowed,haffords⟩,hs,
            calldata,forwarded,hsub⟩
      · rename_i hrefused
        obtain ⟨hsub,hs⟩ := giveUp_ok hrest
        exact Or.inl ⟨hsub,fun hstarts => hrefused hstarts.2.2.1,hs⟩

/-- No account is at an address: no code and no transaction. -/
def Free (view : ExecView) (addr : Address) : Prop :=
  view.getCode addr = [] ∧ (view.getAccount addr).nonce = 0

theorem collides_ok {addr : Address} {taken : Bool}
    (h : (collides addr).exec (hostHandler P) f (host,view) = ((.ok taken,f'),s')) :
    f' = f ∧ s' = (host,view) ∧ (taken = true ↔ ¬ Free view addr) := by
  unfold collides at h
  rw [exec_host_bind, hostHandler_code, exec_ite] at h
  unfold Free
  split at h
  · rename_i hcode
    cases h
    exact ⟨rfl,rfl,fun _ hfree => hcode hfree.1,fun _ => rfl⟩
  · rename_i hempty
    rw [exec_host_bind, hostHandler_nonce] at h
    cases h
    refine ⟨rfl,rfl,?_⟩
    have hpos : 0 < (view.getAccount addr).nonce ↔ (view.getAccount addr).nonce ≠ 0 := UInt64.pos_iff_ne_zero
    rw [decide_eq_true_eq, hpos, not_and]
    exact ⟨fun hne _ => hne,fun hne => hne (not_ne_iff.mp hempty)⟩

/-- The view in which the frame of a creation runs. -/
def createPaid (view : ExecView) (creator newAddr : Address) (value : ℕ) : ExecView :=
  nonceBumped (sent (nonceBumped view creator) creator newAddr value) newAddr

theorem wei_sent (view : ExecView) (source dest : Address) (value : ℕ) : (sent view source dest value).wei =
    if 0 < value then moved view.wei source dest value else view.wei := by
  unfold sent
  split
  · exact wei_transferred
  · rfl

theorem wei_createPaid {creator newAddr : Address} {value : ℕ} :
    (createPaid view creator newAddr value).wei = (sent view creator newAddr value).wei := by
  unfold createPaid
  rw [wei_nonceBumped, wei_sent, wei_sent, wei_nonceBumped]

theorem enterCreate_ok {withSalt : Bool} {newAddr : Address} {args : CreateArgs} {initcode : List UInt8}
    {sub : Option SubFrame}
    (h : (enterCreate withSalt newAddr args initcode).exec (hostHandler P) f (host,view) =
      ((.ok sub,f'),s')) :
    s' = (host,nonceBumped (sent view f.ctx.contract newAddr args.value) newAddr) ∧
      ∃ forwarded, sub = some ⟨.create withSalt,
        f'.child (createContext newAddr args.value initcode forwarded f.ctx),0,0⟩ := by
  unfold enterCreate at h
  rw [exec_bind_ok] at h
  obtain ⟨⟨⟩,f₁,s₁,hsend,hrest⟩ := h
  obtain ⟨hf,hs⟩ := sendValue_ok hsend
  subst hf hs
  rw [exec_host_bind, hostHandler_incNonce] at hrest
  simp only [exec_lift_bind_ok, exec_get_bind, exec_pure, Prod.mk.injEq, Except.ok.injEq] at hrest
  obtain ⟨forwarded,f₂,hforward,⟨hsub,hf⟩,hs⟩ := hrest
  subst hf
  rw [forwardGas_ctx hforward] at hsub
  exact ⟨hs.symm,forwarded,hsub.symm⟩

def initcodeOf (f : ZvmInterpreter) (args : CreateArgs) : Option (List UInt8) :=
  (f.memory.readSlice args.off args.len).map Prod.fst

theorem readSlice_ok {offset len : UInt64} {bytes : List UInt8}
    (h : FrameOp.readSlice offset len f = (.ok bytes,f')) :
    (f.memory.readSlice offset len).map Prod.fst = some bytes ∧ f'.ctx = f.ctx := by
  unfold FrameOp.readSlice FrameOp.readMemory at h
  rw [bind_ok] at h
  obtain ⟨f₀,f₁,hget,h⟩ := h
  cases hget
  rw [bind_ok] at h
  obtain ⟨⟨b,memory⟩,f₂,hread,h⟩ := h
  dsimp only at hread
  cases hslice : f.memory.readSlice offset len with
  | none =>
    rw [hslice] at hread
    cases hread
  | some read =>
    rw [hslice] at hread
    cases hread
    cases h
    exact ⟨rfl,rfl⟩

/-- Where a creation puts its contract. -/
def creationAddress (P : Platform) (view : ExecView) (f : ZvmInterpreter) (args : CreateArgs)
    (initcode : List UInt8) : Address :=
  newAddress P f.ctx.contract (view.getAccount f.ctx.contract).nonce args initcode

/-- Once its operands are read and paid for, a creation starts a frame. -/
def CreateStarts (P : Platform) (view : ExecView) (f : ZvmInterpreter) (args : CreateArgs) : Prop :=
  args.len.toNat ≤ maxInitcodeSize ∧ f.depth < callDepthLimit ∧
    args.value ≤ (view.getAccount f.ctx.contract).balanceU128 ∧
    ∀ initcode, initcodeOf f args = some initcode →
      Free (nonceBumped view f.ctx.contract) (creationAddress P view f args initcode)

/-- A create opcode that starts no frame changes at most the nonce of its creator. -/
theorem beginCreate_ok {withSalt : Bool} {sub : Option SubFrame}
    (h : (beginCreate P withSalt).exec (hostHandler P) f (host,view) = ((.ok sub,f'),s')) :
    ∃ args f₁, popCreate withSalt f = (.ok args,f₁) ∧
      (sub = none ∧ ¬ CreateStarts P view f args ∧
          (s' = (host,view) ∨ s' = (host,nonceBumped view f.ctx.contract)) ∨
        CreateStarts P view f args ∧ ∃ initcode forwarded, initcodeOf f args = some initcode ∧
          s' = (host,createPaid view f.ctx.contract (creationAddress P view f args initcode) args.value) ∧
          sub = some ⟨.create withSalt,f'.child (createContext (creationAddress P view f args initcode)
            args.value initcode forwarded f.ctx),0,0⟩) := by
  unfold beginCreate at h
  rw [exec_lift_bind_ok] at h
  obtain ⟨args,f₁,hpop,h⟩ := h
  refine ⟨args,f₁,hpop,?_⟩
  have hfixed := keeps_popCreate withSalt f
  rw [hpop] at hfixed
  rw [exec_ite] at h
  split at h
  · rename_i hlong
    obtain ⟨hsub,hs⟩ := giveUp_ok h
    exact Or.inl ⟨hsub,fun hstarts => absurd hstarts.1 (not_le.mpr hlong),Or.inl hs⟩
  · rename_i hshort
    rw [exec_lift_bind_ok] at h
    obtain ⟨⟨⟩,f₂,hcharge,h⟩ := h
    have hcharged := keeps_chargeCreate args f₁
    rw [hcharge] at hcharged
    have hsame : fixedPart f₂ = fixedPart f := hcharged.trans hfixed
    have hctx : f₂.ctx = f.ctx := congrArg Prod.fst hsame
    have hdepth : f₂.depth = f.depth := congrArg (·.2.1) hsame
    have hmemory : f₂.memory = f.memory := congrArg (·.2.2.1) hsame
    rw [exec_get_bind, exec_ite, hdepth] at h
    split at h
    · rename_i hdeep
      obtain ⟨hsub,hs⟩ := giveUp_ok h
      exact Or.inl ⟨hsub,fun hstarts => absurd hstarts.2.1 (not_lt.mpr hdeep),Or.inl hs⟩
    · rename_i hshallow
      rw [exec_get_bind, exec_host_bind, hostHandler_balance, exec_ite, hctx] at h
      dsimp only at h
      split at h
      · rename_i hpoor
        obtain ⟨hsub,hs⟩ := refuse_ok h
        exact Or.inl ⟨hsub,fun hstarts => absurd hstarts.2.2.1 (not_le.mpr hpoor),Or.inl hs⟩
      · rename_i hrich
        rw [exec_lift_bind_ok] at h
        obtain ⟨initcode,f₃,hread,h⟩ := h
        obtain ⟨hinit,hctx₃⟩ := readSlice_ok hread
        rw [hmemory] at hinit
        rw [exec_host_bind, hostHandler_nonce, exec_host_bind, hostHandler_incNonce, exec_bind_ok] at h
        obtain ⟨taken,f₄,s₄,hcollides,h⟩ := h
        obtain ⟨hf,hs,htaken⟩ := collides_ok hcollides
        subst hf hs
        cases taken with
        | true =>
          obtain ⟨hsub,hs⟩ := refuse_ok h
          exact Or.inl ⟨hsub,fun hstarts => htaken.mp rfl (hstarts.2.2.2 initcode hinit),Or.inr hs⟩
        | false =>
          obtain ⟨hs,forwarded,hsub⟩ := enterCreate_ok h
          rw [hctx₃, hctx] at hs hsub
          refine Or.inr ⟨⟨not_lt.mp hshort,not_le.mp hshallow,not_lt.mp hrich,?_⟩,initcode,forwarded,
            hinit,hs,hsub⟩
          intro code hcode
          have hone : code = initcode := Option.some.inj (hcode.symm.trans hinit)
          rw [hone]
          by_contra hfree
          exact Bool.false_ne_true (htaken.mpr hfree)

/-- The opening of a frame leaves the host as the call does. -/
theorem startFrame_ok {kind : FrameKind} {sub : Option SubFrame}
    (h : (startFrame P Z kind).exec (hostHandler P) f s = ((.ok sub,f'),s')) :
    ∃ f₁, (beginFrame P Z kind).exec (hostHandler P) f s = ((.ok sub,f₁),s') ∧
      f' = if sub = none then { f₁ with pc := f₁.pc + 1 } else f₁ := by
  unfold startFrame at h
  rw [exec_bind_ok] at h
  obtain ⟨a,f₁,s₁,hbegin,h⟩ := h
  cases a with
  | none =>
    cases h
    exact ⟨_,hbegin,rfl⟩
  | some sub =>
    cases h
    exact ⟨_,hbegin,rfl⟩

end Beginnings

end ZbxChain.Zvm
