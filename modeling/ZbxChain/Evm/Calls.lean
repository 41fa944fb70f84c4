import ZbxChain.Evm.Effects
import ZbxChain.Foundation.Snapshots

/-! # What a call or a creation leaves

Both parts of an opcode that starts a frame are followed over a journal of the host. What is
refunded is at most what was billed, and a 0 on the stack means that nothing happened.
-/
namespace ZbxChain.Evm
open EvmM

section Journals
variable {σ : Type} {h : Host σ}

def Host.snapshots (h : Host σ) : SnapshotOps SnapshotId σ where
  snapshot s := h .snapshot s
  revertTo i s := (h (.revertTo i) s).2
  commit i s := (h (.commit i) s).2

def EvmCall.reads : EvmCall → Bool
  | .balance _ | .nonce _ | .code _ | .codeHash _ | .storageLoad _ _ | .isEmpty _ | .blockHash _
  | .resolvePayIdBytes _ | .reversePayId _ => true
  | _ => false

/-- The calls of the host, as far as a journal tells. -/
structure Journalled (h : Host σ) (J : Journal h.snapshots) : Prop where
  reads : ∀ c, EvmCall.reads c = true → ∀ s, J.same s (h c s).2
  changes : ∀ c, EvmCall.journalled c = true → ∀ s, J.kept s (h c s).2

theorem Journalled.free (h : Host σ) : Journalled h (.free h.snapshots) := ⟨fun _ _ _ => trivial,fun _ _ _ => trivial⟩

variable {J : Journal h.snapshots} {c : Prop} {s s₁ s₂ : σ}

/-- The same snapshots are open; and if `c` holds, nothing happened. -/
def Tame (J : Journal h.snapshots) (c : Prop) (s s' : σ) : Prop := J.kept s s' ∧ (c → J.same s s')

theorem Tame.of_same (hsame : J.same s s₁) : Tame J c s s₁ := ⟨J.kept_of_same hsame,fun _ => hsame⟩

instance (J : Journal h.snapshots) (c : Prop) : IsPreorder σ (Tame J c) where
  refl s := .of_same (J.same_refl s)
  trans _ _ _ h₁ h₂ := ⟨J.kept_trans h₁.1 h₂.1,fun hc => J.same_trans (h₁.2 hc) (h₂.2 hc)⟩

end Journals

section Gains
variable {σ α : Type} {h : Host σ} {W : σ → σ → Prop} {m n : ℕ} {f f₁ f₂ : EVMInterpreter} {s s₁ s₂ : σ}

/-- The frame stays, with at most `n` more gas. -/
structure Gains (W : σ → σ → Prop) (n : ℕ) (f : EVMInterpreter) (s : σ) (f₁ : EVMInterpreter) (s₁ : σ) : Prop where
  ctx : f₁.ctx = f.ctx
  code : f₁.code = f.code
  frames : f₁.frames = f.frames
  logs : f₁.logs = f.logs
  pc : f.pc ≤ f₁.pc
  gas : f₁.gasRemaining.toNat ≤ f.gasRemaining.toNat + n
  host : W s s₁

theorem Goes.gains (hgoes : Goes W f s f₁ s₁) : Gains W n f s f₁ s₁ :=
  ⟨hgoes.ctx,hgoes.code,hgoes.frames,hgoes.logs,hgoes.pc,Nat.le_add_right_of_le hgoes.gas,hgoes.host⟩

theorem Gains.goes (hgains : Gains W 0 f s f₁ s₁) : Goes W f s f₁ s₁ :=
  ⟨⟨hgains.ctx,hgains.code,hgains.frames,hgains.logs,hgains.pc,hgains.gas⟩,hgains.host⟩

theorem Gains.trans [IsTrans σ W] (h₁ : Gains W m f s f₁ s₁) (h₂ : Gains W n f₁ s₁ f₂ s₂) :
    Gains W (m + n) f s f₂ s₂ := by
  refine ⟨h₂.ctx.trans h₁.ctx,h₂.code.trans h₁.code,h₂.frames.trans h₁.frames,h₂.logs.trans h₁.logs,
    h₁.pc.trans h₂.pc,?_,IsTrans.trans _ _ _ h₁.host h₂.host⟩
  have hgas₁ := h₁.gas
  have hgas₂ := h₂.gas
  omega

theorem toNat_saturatingAdd64_le (a b : UInt64) : (saturatingAdd64 a b).toNat ≤ a.toNat + b.toNat := by
  rw [toNat_saturatingAdd64]
  exact Nat.min_le_left _ _

variable [IsPreorder σ W]

theorem leads_refundGas {amount : UInt64} (hamount : amount.toNat ≤ n) (M : Memory → Prop) :
    Leads h (Gains W n) (fun f => M f.memory) (refundGas amount) (fun _ f => M f.memory) := by
  refine Framed.Moves.modify (fun f s _ => ⟨rfl,rfl,rfl,rfl,le_rfl,?_,Std.Refl.refl s⟩) fun _ hf => hf
  have hle := toNat_saturatingAdd64_le f.gasRemaining amount
  dsimp only
  omega

theorem leads_push (val : Word) (M : Memory → Prop) : Leads h (Goes W) (fun f => M f.memory) (push val)
    (fun _ f => M f.memory ∧ f.stack.data.head? = some val) := by
  intro f s hf
  have hget : push val f = (orFail (f.stack.push val) >>= fun stack =>
    (modify ({ · with stack := stack }) : EvmM Unit)) f := rfl
  unfold Framed.After
  rw [hget]
  unfold Stack.push
  split
  · exact ⟨⟨⟨rfl,rfl,rfl,rfl,le_rfl,le_rfl⟩,Std.Refl.refl s⟩,hf,rfl⟩
  · exact ⟨goes_refl f s,by rintro ⟨⟩⟩

omit [IsPreorder σ W] in
theorem Leads.within {G : EVMInterpreter → Prop} {p : EvmM α} {Q : α → EVMInterpreter → Prop}
    (hp : Leads h (Goes W) G p Q) (k g : ℕ) : Leads h (Goes W) (fun f => G f ∧ f.gasRemaining.toNat + k ≤ g) p
      (fun a f => Q a f ∧ f.gasRemaining.toNat + k ≤ g) := by
  rintro f s ⟨hf,hgas⟩
  refine (hp f s hf).mono ?_
  rintro (e | a) f' s' ⟨hgoes,hend⟩
  · exact ⟨hgoes,hend⟩
  · exact ⟨hgoes,hend,(Nat.add_le_add_right hgoes.gas k).trans hgas⟩

theorem Leads.before {β : Type} {G : EVMInterpreter → Prop} {p : EvmM β} {q : β → EvmM α} {Q : β → EVMInterpreter → Prop}
    {Q' : α → EVMInterpreter → Prop} (hp : Leads h (Goes W) G p Q) (hq : ∀ b, Leads h (Gains W n) (Q b) (q b) Q') :
    Leads h (Gains W n) G (p >>= q) Q' := by
  refine Framed.Moves.comp (hp.weaken (Goes.gains (n := 0))) hq (fun h₁ h₂ => ?_) fun h₁ => h₁.goes.gains
  have htrans := h₁.trans h₂
  rwa [Nat.zero_add] at htrans

theorem Leads.behind {β : Type} {G : EVMInterpreter → Prop} {p : EvmM β} {q : β → EvmM α} {Q : β → EVMInterpreter → Prop}
    {Q' : α → EVMInterpreter → Prop} (hp : Leads h (Gains W n) G p Q) (hq : ∀ b, Leads h (Goes W) (Q b) (q b) Q') :
    Leads h (Gains W n) G (p >>= q) Q' :=
  hp.comp (fun b => (hq b).weaken (Goes.gains (n := 0))) (fun h₁ h₂ => h₁.trans h₂) id

theorem leads_consumeGas (amount : UInt64) (M : Memory → Prop) (g : ℕ) : Leads h (Goes W)
    (fun f => M f.memory ∧ f.gasRemaining.toNat ≤ g) (consumeGas amount)
    (fun _ f => M f.memory ∧ f.gasRemaining.toNat + amount.toNat ≤ g) := by
  rintro f s ⟨hmemory,hgas⟩
  refine Framed.after_get_bind.mpr (Framed.after_ite.mpr ?_)
  split
  · exact ⟨goes_refl f s,by rintro ⟨⟩⟩
  · rename_i henough
    have hle : amount.toNat ≤ f.gasRemaining.toNat := UInt64.le_iff_toNat_le.mp (UInt64.not_lt.mp henough)
    have hleft : (f.gasRemaining - amount).toNat = f.gasRemaining.toNat - amount.toNat := toNat_sub_of_le henough
    refine ⟨⟨⟨rfl,rfl,rfl,rfl,le_rfl,?_⟩,Std.Refl.refl s⟩,hmemory,?_⟩
    · change (f.gasRemaining - amount).toNat ≤ f.gasRemaining.toNat
      omega
    · change (f.gasRemaining - amount).toNat + amount.toNat ≤ g
      omega

end Gains

section Parts
variable {σ : Type} {h : Host σ} {W : σ → σ → Prop} [IsPreorder σ W]

theorem still_popValue (kind : CallKind) : Still h W (popValue kind) := by
  cases kind with
  | call | callCode => exact still_pop
  | delegateCall => exact .get_bind fun _ => .pure _
  | staticCall => exact .pure 0

theorem still_popCall (kind : CallKind) : Still h W (popCall kind) := by
  refine still_popU64.bind fun _ => still_popAddress.bind fun _ => (still_popValue kind).bind fun value =>
    Still.bind ?_ fun _ => still_popU64.bind fun _ => still_popU64.bind fun _ => still_popU64.bind fun _ =>
    still_popU64.bind fun _ => .pure _
  exact .get_bind fun _ => .ite (.fail _) (.pure ())

theorem still_popCreate (withSalt : Bool) : Still h W (popCreate withSalt) := by
  have hsalt : Still h W (popSalt withSalt) := .ite (still_pop.bind fun _ => .pure _) (.pure _)
  exact still_staticGuard.bind fun _ => still_pop.bind fun _ => still_popU64.bind fun _ => still_popU64.bind fun _ =>
    hsalt.bind fun _ => .ite (.fail _) (.pure _)

theorem smooth_chargeCreate (args : CreateArgs) : Smooth h W (chargeCreate args) := by
  refine .window <| .bind (still_consumeGas _) fun _ => .bind (still_consumeGas _) fun _ => ?_
  exact leads_readMemory _ _

theorem leads_pushZeroWithRet (args : CallArgs) : Leads h (Goes W) (fun f => f.memory.Valid) (pushZeroWithRet args)
    (fun r f => r = none ∧ f.memory.Valid) :=
  (still_setReturnData _).bind_leads fun _ => Framed.Moves.bind Goes.trans (Smooth.expand _ _) fun _ =>
    (still_pushU64 0).bind_leads fun _ => Framed.Moves.pure goes_refl none fun _ hf => ⟨rfl,hf⟩

theorem leads_pushZero : Leads h (Goes W) (fun f => f.memory.Valid) pushZero (fun r f => r = none ∧ f.memory.Valid) :=
  (still_setReturnData _).bind_leads fun _ => (still_push 0).bind_leads fun _ =>
    Framed.Moves.pure goes_refl none fun _ hf => ⟨rfl,hf⟩

theorem smooth_storeOutput (retOff retLen : UInt64) (output : List UInt8) :
    Smooth h W (storeOutput retOff retLen output) :=
  .window (.write (by rw [List.length_take]; exact Nat.min_le_left _ _))

def CallArgs.stipend (args : CallArgs) (kind : CallKind) : UInt64 :=
  if args.transfers kind then gasCallStipend else 0

theorem leads_chargeTransfer (hread : ∀ c, EvmCall.reads c = true → ∀ s, W s (h c s).2) (kind : CallKind)
    (args : CallArgs) (g : ℕ) : Leads h (Goes W) (fun f => f.memory.Valid ∧ f.gasRemaining.toNat ≤ g)
      (chargeTransfer kind args) (fun _ f => f.memory.Valid ∧ f.gasRemaining.toNat + (args.stipend kind).toNat ≤ g) := by
  unfold chargeTransfer CallArgs.stipend
  split
  · have hpaid := leads_consumeGas (h := h) (W := W) gasCallValueTransfer Memory.Valid g
    have hstipend : gasCallStipend.toNat ≤ gasCallValueTransfer.toNat := by decide
    have hcold : Still h W (if kind = .call then do
        let empty ← host (.isEmpty args.target)
        if empty then consumeGas gasNewAccount else pure ()
      else pure ()) :=
      .ite ((Still.host (hread _ rfl)).bind fun _ => .ite (still_consumeGas _) (.pure ())) (.pure ())
    refine hpaid.bind Goes.trans fun _ => ?_
    exact (hcold.smooth.within gasCallStipend.toNat g).mono
      (fun f hf => ⟨hf.1,(Nat.add_le_add_left hstipend _).trans hf.2⟩) fun _ _ hf => hf
  · exact Framed.Moves.pure goes_refl () fun _ hf => hf

theorem leads_chargeCall (hread : ∀ c, EvmCall.reads c = true → ∀ s, W s (h c s).2) (kind : CallKind)
    (args : CallArgs) (g : ℕ) : Leads h (Goes W) (fun f => f.memory.Valid ∧ f.gasRemaining.toNat ≤ g)
      (chargeCall kind args) (fun _ f => f.memory.Valid ∧ f.gasRemaining.toNat + (args.stipend kind).toNat ≤ g) := by
  have hroom := (leads_expand (h := h) (W := W) args.argsOff args.argsLen).within 0 g
  have hdata := (leads_readMemory (h := h) (W := W) args.argsOff args.argsLen).within 0 g
  have htouch := (still_touchAddress (h := h) (W := W) args.target).smooth.within 0 g
  exact hroom.bind Goes.trans fun _ => hdata.bind Goes.trans fun calldata => htouch.bind Goes.trans fun _ =>
    (leads_chargeTransfer hread kind args g).bind Goes.trans fun _ =>
    Framed.Moves.pure goes_refl calldata fun _ hf => hf

theorem leads_readHost {α : Type} (hread : ∀ c, EvmCall.reads c = true → ∀ s, W s (h c s).2)
    (p : Program HostRead.Reply α) (G : EVMInterpreter → Prop) :
    Leads h (Goes W) G (readHost p) (fun _ f => G f) := by
  intro f s hf
  unfold Framed.After readHost
  induction p generalizing s with
  | done a => exact ⟨goes_refl f s,hf⟩
  | call r next ih =>
    obtain ⟨hgoes,hend⟩ := ih (h r.toCall s).1 (h r.toCall s).2
    have hcall : W s (h r.toCall s).2 := hread _ (by cases r <;> rfl) s
    exact ⟨Goes.trans ⟨Stays.refl f,hcall⟩ hgoes,hend⟩

end Parts

section Closed
variable {σ α : Type} {h : Host σ} {J : Journal h.snapshots} {c : Prop} {base s s₁ : σ} {m n : ℕ}
  {f f₁ f₂ : EVMInterpreter} {r : Except EvmFault α}

/-- The frame stays, with at most `n` more gas and maybe more logs. -/
structure Near (n : ℕ) (f f₁ : EVMInterpreter) : Prop where
  ctx : f₁.ctx = f.ctx
  code : f₁.code = f.code
  frames : f₁.frames = f.frames
  pc : f.pc ≤ f₁.pc
  gas : f₁.gasRemaining.toNat ≤ f.gasRemaining.toNat + n

theorem Gains.near {W : σ → σ → Prop} (hgains : Gains W n f s f₁ s₁) : Near n f f₁ :=
  ⟨hgains.ctx,hgains.code,hgains.frames,hgains.pc,hgains.gas⟩

theorem Near.trans (hnear : Near m f f₁) (hnear' : Near n f₁ f₂) : Near (m + n) f f₂ := by
  refine ⟨hnear'.ctx.trans hnear.ctx,hnear'.code.trans hnear.code,hnear'.frames.trans hnear.frames,
    hnear.pc.trans hnear'.pc,?_⟩
  have hgas := hnear.gas
  have hgas' := hnear'.gas
  omega

/-- The frame stays near, and the host moves by `W`. -/
def Nears (W : σ → σ → Prop) (n : ℕ) (f : EVMInterpreter) (s : σ) (f₁ : EVMInterpreter) (s₁ : σ) : Prop :=
  Near n f f₁ ∧ W s s₁

theorem Gains.nears {W : σ → σ → Prop} (hgains : Gains W n f s f₁ s₁) : Nears W n f s f₁ s₁ := ⟨hgains.near,hgains.host⟩

theorem Near.of_stays (hstays : Stays f f₁) (hnear : Near m f₁ f₂)
    (hgas : f₁.gasRemaining.toNat + m ≤ f.gasRemaining.toNat + n) : Near n f f₂ :=
  ⟨hnear.ctx.trans hstays.ctx,hnear.code.trans hstays.code,hnear.frames.trans hstays.frames,hstays.pc.trans hnear.pc,
    hnear.gas.trans hgas⟩

/-- An opcode is over, begun at `base`. An error leaves no less than the snapshots there were;
otherwise these are open, and if `c` holds, a 0 means that nothing happened. -/
def Closed (J : Journal h.snapshots) (c : Prop) (base : σ) (n : ℕ) (f : EVMInterpreter) (r : Except EvmFault α)
    (f₁ : EVMInterpreter) (s₁ : σ) : Prop :=
  Near n f f₁ ∧ match r with
    | .error e => e ≠ .panicked ∧ J.broken base s₁
    | .ok _ => f₁.memory.Valid ∧ J.kept base s₁ ∧
      (c → f₁.stack.data.head? = some 0 → f₁.logs = f.logs ∧ J.same base s₁)

/-- A frame may close from a later point of the same opcode. -/
theorem Closed.of_start (hclosed : Closed J c base m f₁ r f₂ s₁) (hstays : Stays f f₁)
    (hgas : f₁.gasRemaining.toNat + m ≤ f.gasRemaining.toNat + n) (htame : Tame J c s base) :
    Closed J c s n f r f₂ s₁ := by
  obtain ⟨hnear,hend⟩ := hclosed
  refine ⟨Near.of_stays hstays hnear hgas,?_⟩
  rcases r with e | a
  · exact ⟨hend.1,J.broken_trans (J.broken_of_kept htame.1) hend.2⟩
  · obtain ⟨hvalid,hkept,hzero⟩ := hend
    refine ⟨hvalid,J.kept_trans htame.1 hkept,fun hc htop => ?_⟩
    obtain ⟨hlogs,hsame⟩ := hzero hc htop
    exact ⟨hlogs.trans hstays.logs,J.same_trans (htame.2 hc) hsame⟩

theorem closed_of_same {p : EvmM α} {G : EVMInterpreter → Prop} {Q : α → EVMInterpreter → Prop}
    (hp : Leads h (Gains (Tame J c) n) G p Q) (hQ : ∀ a f, Q a f → f.memory.Valid) (hf : G f) (hs : Tame J c base s) :
    Framed.After h p f s (fun r f₁ s₁ => Closed J c base n f r f₁ s₁ ∧ ∀ a, r = .ok a → Q a f₁) := by
  refine (hp f s hf).mono ?_
  rintro (e | a) f₁ s₁ ⟨hgains,hend⟩
  · have htame := IsTrans.trans _ _ _ hs hgains.host
    exact ⟨⟨hgains.near,hend,J.broken_of_kept htame.1⟩,by rintro _ ⟨⟩⟩
  · have htame := IsTrans.trans _ _ _ hs hgains.host
    refine ⟨⟨hgains.near,hQ a f₁ hend,htame.1,fun hc _ => ⟨hgains.logs,htame.2 hc⟩⟩,?_⟩
    rintro _ ⟨⟩
    exact hend

theorem closed_of_kept {p : EvmM α} {G : EVMInterpreter → Prop} {Q : α → EVMInterpreter → Prop}
    (hp : Leads h (Nears J.kept n) G p Q)
    (hQ : ∀ a f, Q a f → f.memory.Valid ∧ (c → f.stack.data.head? ≠ some 0)) (hf : G f) (hs : J.kept base s) :
    Framed.After h p f s (fun r f₁ s₁ => Closed J c base n f r f₁ s₁ ∧ ∀ a, r = .ok a → Q a f₁) := by
  refine (hp f s hf).mono ?_
  rintro (e | a) f₁ s₁ ⟨⟨hnear,hkept⟩,hend⟩
  · exact ⟨⟨hnear,hend,J.broken_of_kept (J.kept_trans hs hkept)⟩,by rintro _ ⟨⟩⟩
  · obtain ⟨hvalid,htop⟩ := hQ a f₁ hend
    refine ⟨⟨hnear,hvalid,J.kept_trans hs hkept,fun hc hzero => absurd hzero (htop hc)⟩,?_⟩
    rintro _ ⟨⟩
    exact hend

end Closed

section Begin
variable {σ : Type} {h : Host σ} {J : Journal h.snapshots} {P : Platform} {c : Prop} {base s s₁ s₂ : σ} {m n : ℕ}
  {f f₁ f₂ : EVMInterpreter} {kind : FrameKind} {r : Except EvmFault (Option SubFrame)}

structure Enters (J : Journal h.snapshots) (c : Prop) (kind : FrameKind) (base : σ) (n : ℕ)
    (f f₁ : EVMInterpreter) (sub : SubFrame) (s₁ : σ) : Prop where
  stays : Stays f f₁
  valid : f₁.memory.Valid
  starts : sub.kind = kind
  memory : sub.frame.memory.Valid
  limit : sub.frame.gasRemaining = sub.frame.ctx.gasLimit
  paid : f₁.gasRemaining.toNat + sub.billed.toNat ≤ f.gasRemaining.toNat + n
  share : sub.frame.gasRemaining.toNat ≤ f.gasRemaining.toNat + n
  opened : ∃ s₀, Tame J c base s₀ ∧ J.opened sub.snapshot s₀ s₁

/-- The first part of an opcode that starts a frame, begun at `base`. -/
def Begun (J : Journal h.snapshots) (c : Prop) (kind : FrameKind) (base : σ) (n : ℕ)
    (f : EVMInterpreter) (r : Except EvmFault (Option SubFrame)) (f₁ : EVMInterpreter) (s₁ : σ) : Prop :=
  match r with
  | .ok (some sub) => Enters J c kind base n f f₁ sub s₁
  | r => Closed J c base n f r f₁ s₁

theorem Closed.begun (hclosed : Closed J c base n f r f₁ s₁) (hr : ∀ o, r = .ok o → o = none) :
    Begun J c kind base n f r f₁ s₁ := by
  rcases r with e | _ | sub
  · exact hclosed
  · exact hclosed
  · cases hr _ rfl

theorem Begun.of_start (hbegun : Begun J c kind base m f₁ r f₂ s₁) (hstays : Stays f f₁)
    (hgas : f₁.gasRemaining.toNat + m ≤ f.gasRemaining.toNat + n) (htame : Tame J c s base) :
    Begun J c kind s n f r f₂ s₁ := by
  rcases r with e | _ | sub
  · have hclosed : Closed J c base m f₁ (.error e : Except EvmFault (Option SubFrame)) f₂ s₁ := hbegun
    exact hclosed.of_start hstays hgas htame
  · have hclosed : Closed J c base m f₁ (.ok (none : Option SubFrame)) f₂ s₁ := hbegun
    exact hclosed.of_start hstays hgas htame
  · obtain ⟨hstays',hvalid,hkind,hmemory,hlimit,hpaid,hshare,⟨s₀,hs₀,hopened⟩⟩ := hbegun
    exact ⟨hstays.trans hstays',hvalid,hkind,hmemory,hlimit,hpaid.trans hgas,hshare.trans hgas,
      ⟨s₀,IsTrans.trans _ _ _ htame hs₀,hopened⟩⟩

theorem begun_bind {α : Type} {p : EvmM α} {q : α → EvmM (Option SubFrame)} {G : EVMInterpreter → Prop}
    {Q : α → EVMInterpreter → Prop} (hp : Leads h (Goes (Tame J c)) G p Q) (hf : G f)
    (hq : ∀ a f₁ s₁, Goes (Tame J c) f s f₁ s₁ → Q a f₁ → Framed.After h (q a) f₁ s₁ (Begun J c kind s n f)) :
    Framed.After h (p >>= q) f s (Begun J c kind s n f) := by
  rw [Framed.after_bind]
  refine (hp f s hf).mono ?_
  rintro (e | a) f₁ s₁ ⟨hgoes,hend⟩
  · exact ⟨hgoes.gains.near,hend,J.broken_of_kept hgoes.host.1⟩
  · exact hq a f₁ s₁ hgoes hend

theorem begun_behind (m : ℕ) {p : EvmM (Option SubFrame)} (hgoes : Goes (Tame J c) f s f₁ s₁)
    (hgas : f₁.gasRemaining.toNat + m ≤ f.gasRemaining.toNat + n)
    (hp : Framed.After h p f₁ s₁ (Begun J c kind s₁ m f₁)) : Framed.After h p f₁ s₁ (Begun J c kind s n f) :=
  hp.mono fun _ _ _ hbegun => hbegun.of_start hgoes.toStays hgas hgoes.host

section Open
variable (hJ : Journalled h J) (Z : Precompiles) {kind : CallKind} {args : CallArgs} {fw : Forward} {calldata : List UInt8}
  (hf : f.memory.Valid) (hopened : J.opened fw.snapshot base s) (hbilled : fw.billed.toNat ≤ n)
  (hforwarded : fw.forwarded.toNat ≤ n)

theorem leads_pushOne {W : σ → σ → Prop} [IsPreorder σ W] : Leads h (Goes W) (fun f => f.memory.Valid)
    (pushU64 1 >>= fun _ => (pure none : EvmM (Option SubFrame)))
    (fun r f => r = none ∧ f.memory.Valid ∧ f.stack.data.head? = some 1) :=
  (leads_push _ Memory.Valid).bind Goes.trans fun _ => Framed.Moves.pure goes_refl none fun _ hf => ⟨rfl,hf⟩

include hf in
theorem begun_of_success {p : EvmM (Option SubFrame)} {kind : FrameKind} (hp : Leads h (Gains J.kept n) (fun f => f.memory.Valid) p
    (fun r f => r = none ∧ f.memory.Valid ∧ f.stack.data.head? = some 1)) (hkept : J.kept base s) :
    Framed.After h p f s (Begun J c kind base n f) := by
  have hone : ¬ (1 : Word) = 0 := by decide
  refine (closed_of_kept (hp.weaken Gains.nears) (fun _ f hend => ⟨hend.2.1,fun _ hzero => ?_⟩) hf hkept).mono
    fun r f' s' hclosed => hclosed.1.begun fun o ho => (hclosed.2 o ho).1
  rw [hend.2.2] at hzero
  exact hone (Option.some.inj hzero)

include hf in
theorem begun_of_failure {p : EvmM (Option SubFrame)} {kind : FrameKind}
    (hp : Leads h (Gains (Tame J c) n) (fun f => f.memory.Valid) p (fun r f => r = none ∧ f.memory.Valid))
    (hsame : Tame J c base s) : Framed.After h p f s (Begun J c kind base n f) :=
  (closed_of_same hp (fun _ _ hend => hend.2) hf hsame).mono
    fun _ _ _ hclosed => hclosed.1.begun fun o ho => (hclosed.2 o ho).1

include hJ hf hopened hbilled hforwarded

theorem after_enterCall : Framed.After h (enterCall kind args fw calldata) f s (Begun J c (.call kind) base n f) := by
  unfold enterCall
  refine Framed.after_call_bind.mpr (Framed.after_ite.mpr ?_)
  have hread := J.opened_kept hopened (hJ.changes (.code args.target) rfl s)
  split
  · refine Framed.after_call_bind.mpr (begun_of_success hf ?_ (J.kept_commit hread))
    exact (still_setReturnData [] Memory.Valid).before fun _ =>
      Leads.before (Smooth.expand _ _) fun _ => (leads_refundGas hbilled Memory.Valid).behind fun _ => leads_pushOne
  · exact ⟨Stays.refl f,hf,rfl,Memory.valid_new,rfl,Nat.add_le_add_left hbilled _,Nat.le_add_left_of_le hforwarded,
      ⟨base,.of_same (J.same_refl base),hread⟩⟩

omit hJ hforwarded in
theorem after_settlePrecompile (result : PrecompileResult) : Framed.After h (settlePrecompile args fw result) f s
    (Begun J c (.call kind) base n f) := by
  rcases result with _ | ⟨output,gasUsed⟩
  · refine Framed.after_call_bind.mpr (begun_of_failure hf ?_
      (.of_same (J.same_revertTo hopened (J.broken_of_kept (J.kept_of_same (J.same_refl s))))))
    exact (leads_pushZeroWithRet args).weaken Goes.gains
  · refine Framed.after_call_bind.mpr (begun_of_success hf ?_ (J.kept_commit hopened))
    have hrefund : (min (saturatingSub64 fw.forwarded gasUsed) fw.billed).toNat ≤ n := by
      rw [toNat_min64]
      exact (Nat.min_le_right _ _).trans hbilled
    exact (still_setReturnData output Memory.Valid).before fun _ =>
      Leads.before (smooth_storeOutput _ _ _) fun _ => (leads_refundGas hrefund Memory.Valid).behind fun _ => leads_pushOne

omit hforwarded in
theorem after_doPrecompile : Framed.After h (doPrecompile Z args fw calldata) f s
    (Begun J c (.call kind) base n f) := by
  unfold doPrecompile
  refine Framed.after_get_bind.mpr ?_
  rw [Framed.after_bind]
  refine (leads_readHost (W := J.same) hJ.reads _ (fun f' => f' = f) f s rfl).mono ?_
  rintro (e | result) f₁ s₁ ⟨hgoes,hend⟩
  · exact ⟨(Goes.gains hgoes).near,hend,
      J.broken_trans (J.broken_of_opened hopened) (J.broken_of_kept (J.kept_of_same hgoes.host))⟩
  · subst hend
    exact after_settlePrecompile hf (J.opened_kept hopened (J.kept_of_same hgoes.host)) hbilled result

omit hbilled hforwarded hf hopened in
theorem after_payTarget (kind : CallKind) (args : CallArgs) (f : EVMInterpreter) (s : σ) :
    Framed.After h (payTarget kind args) f s (fun r f₁ s₁ => (∃ paid, r = .ok paid) ∧ f₁ = f ∧ J.kept s s₁) := by
  unfold payTarget
  refine Framed.after_ite.mpr ?_
  split
  · refine Framed.after_get_bind.mpr (Framed.after_call_bind.mpr (Framed.after_ite.mpr ?_))
    have hbalance := hJ.changes (.balance f.ctx.callee) rfl s
    split
    · exact ⟨⟨false,rfl⟩,rfl,hbalance⟩
    · exact ⟨⟨true,rfl⟩,rfl,J.kept_trans hbalance (hJ.changes (.transfer _ _ _) rfl _)⟩
  · exact ⟨⟨true,rfl⟩,rfl,J.kept_of_same (J.same_refl s)⟩

theorem after_openCall : Framed.After h (openCall Z kind args fw calldata) f s
    (Begun J c (.call kind) base n f) := by
  unfold openCall
  rw [Framed.after_bind]
  refine (after_payTarget hJ kind args f s).mono ?_
  rintro _ f₁ s₁ ⟨⟨paid,rfl⟩,rfl,hkept⟩
  have hopened₁ := J.opened_kept hopened hkept
  refine Framed.after_ite.mpr ?_
  split
  · refine Framed.after_ite.mpr ?_
    split
    · exact after_doPrecompile hJ Z hf hopened₁ hbilled
    · exact after_enterCall hJ hf hopened₁ hbilled hforwarded
  · refine Framed.after_call_bind.mpr (begun_of_failure hf ?_
      (.of_same (J.same_revertTo hopened₁ (J.broken_of_kept (J.kept_of_same (J.same_refl s₁))))))
    exact (leads_refundGas hbilled Memory.Valid).behind fun _ => leads_pushZeroWithRet args

end Open

theorem tame_reads (hJ : Journalled h J) : ∀ i, EvmCall.reads i = true → ∀ s, Tame J c s (h i s).2 :=
  fun i hi s => .of_same (hJ.reads i hi s)

theorem tame_refl : Tame J c s s := Std.Refl.refl s

/-- A call opcode settles its own frame or begins a sub-frame with gas it has paid. -/
theorem after_beginCall (hJ : Journalled h J) (Z : Precompiles) (kind : CallKind) (hf : f.memory.Valid) (s : σ) :
    Framed.After h (beginCall Z kind) f s (Begun J c (.call kind) s 0 f) := by
  refine begun_bind (still_popCall kind).smooth hf fun args f₁ s₁ hgoes₁ hf₁ => begun_behind 0 hgoes₁ hgoes₁.gas ?_
  refine begun_bind (leads_chargeCall (tame_reads hJ) kind args f₁.gasRemaining.toNat) ⟨hf₁,le_rfl⟩ ?_
  rintro calldata f₂ s₂ hgoes₂ ⟨hf₂,hstipend⟩
  refine begun_behind (args.stipend kind).toNat hgoes₂ hstipend (Framed.after_get_bind.mpr (Framed.after_ite.mpr ?_))
  split
  · exact begun_of_failure hf₂ ((leads_pushZeroWithRet args).weaken Goes.gains) tame_refl
  · generalize forwardGas f₂.gasRemaining args.gasReq = billed
    refine begun_bind (leads_consumeGas billed Memory.Valid f₂.gasRemaining.toNat) ⟨hf₂,le_rfl⟩ ?_
    rintro ⟨⟩ f₃ s₃ hgoes₃ ⟨hf₃,hpaid⟩
    refine begun_behind (billed.toNat + (args.stipend kind).toNat) hgoes₃ (by omega) (Framed.after_call_bind.mpr ?_)
    exact after_openCall hJ Z hf₃ (J.opened_snapshot s₃) (Nat.le_add_right _ _) (toNat_saturatingAdd64_le _ _)

theorem opened_bind {α : Type} {i : SnapshotId} {p : EvmM α} {q : α → EvmM (Option SubFrame)} {G : EVMInterpreter → Prop}
    {Q : α → EVMInterpreter → Prop} (hp : Leads h (Goes J.kept) G p Q) (hf : G f) (hopened : J.opened i base s)
    (hq : ∀ a f₁ s₁, Goes J.kept f s f₁ s₁ → Q a f₁ → J.opened i base s₁ → ∃ m,
      f₁.gasRemaining.toNat + m ≤ f.gasRemaining.toNat + n ∧
        Framed.After h (q a) f₁ s₁ (Begun J c kind base m f₁)) :
    Framed.After h (p >>= q) f s (Begun J c kind base n f) := by
  rw [Framed.after_bind]
  refine (hp f s hf).mono ?_
  rintro (e | a) f₁ s₁ ⟨hgoes,hend⟩
  · exact ⟨hgoes.gains.near,hend,J.broken_trans (J.broken_of_opened hopened) (J.broken_of_kept hgoes.host)⟩
  · obtain ⟨m,hgas,hbegun⟩ := hq a f₁ s₁ hgoes hend (J.opened_kept hopened hgoes.host)
    exact hbegun.mono fun _ _ _ hb => hb.of_start hgoes.toStays hgas tame_refl

theorem still_incNonce {W : σ → σ → Prop} [IsPreorder σ W] {addr : Address} (hbump : ∀ s, W s (h (.incNonce addr) s).2) :
    Still h W (incNonce addr) := Still.bind (.host hbump) fun r => Still.bind (.orFail r) fun _ => .pure ()

theorem smooth_collides {W : σ → σ → Prop} [IsPreorder σ W] (hread : ∀ i, EvmCall.reads i = true → ∀ s, W s (h i s).2)
    (addr : Address) : Smooth h W (collides addr) := by
  refine (Still.host (hread (.nonce addr) rfl)).bind_smooth fun _ => Smooth.ite (Still.pure true).smooth ?_
  exact (Still.host (hread (.code addr) rfl)).bind_smooth fun _ => (Still.pure _).smooth

theorem still_newAddress {W : σ → σ → Prop} [IsPreorder σ W] (hread : ∀ i, EvmCall.reads i = true → ∀ s, W s (h i s).2)
    (callee : Address) (args : CreateArgs) (initcode : List UInt8) : Still h W (newAddress P callee args initcode) := by
  unfold newAddress
  split
  · exact .pure _
  · exact (Still.host (hread (.nonce callee) rfl)).bind fun _ => .pure _

theorem after_enterCreate (hJ : Journalled h J) {withSalt : Bool} {newAddr : Address} (hf : f.memory.Valid)
    (args : CreateArgs) (initcode : List UInt8) (s : σ) :
    Framed.After h (enterCreate withSalt newAddr args initcode) f s (Begun J c (.create withSalt) s 0 f) := by
  unfold enterCreate
  refine Framed.after_get_bind.mpr (Framed.after_call_bind.mpr ?_)
  generalize f.ctx.callee = callee
  have hopened : J.opened (h .snapshot s).1 s (h .snapshot s).2 := J.opened_snapshot s
  generalize (h .snapshot s).1 = snapshot at hopened
  generalize (h .snapshot s).2 = s₀ at hopened
  have hsend : Still h J.kept (sendValue callee newAddr args.value) :=
    .ite (.pure ()) ((Still.host (hJ.changes (.transfer _ _ _) rfl)).bind fun _ => .pure ())
  refine opened_bind hsend.smooth hf hopened fun _ f₁ s₁ hgoes₁ hf₁ hopened₁ => ⟨0,hgoes₁.gas,?_⟩
  refine opened_bind (still_incNonce (hJ.changes (.incNonce newAddr) rfl)).smooth hf₁ hopened₁
    fun _ f₂ s₂ hgoes₂ hf₂ hopened₂ => ⟨0,hgoes₂.gas,?_⟩
  refine Framed.after_call_bind.mpr (Framed.after_get_bind.mpr ?_)
  have hopened₃ := J.opened_kept hopened₂ (hJ.changes (.markCreatedThisTx newAddr) rfl s₂)
  generalize (h (.markCreatedThisTx newAddr) s₂).2 = s₃ at hopened₃
  refine opened_bind (leads_consumeGas (forwardGas f₂.gasRemaining f₂.gasRemaining) Memory.Valid f₂.gasRemaining.toNat) ⟨hf₂,le_rfl⟩ hopened₃ ?_
  rintro ⟨⟩ f₄ s₄ hgoes₄ ⟨hf₄,hpaid⟩ hopened₄
  refine ⟨_,hpaid,Framed.after_get_bind.mpr ?_⟩
  exact ⟨Stays.refl f₄,hf₄,rfl,Memory.valid_new,rfl,le_rfl,Nat.le_add_left _ _,⟨s,tame_refl,hopened₄⟩⟩

/-- The same for the two create opcodes. -/
theorem after_beginCreate (hJ : Journalled h J) (withSalt : Bool) (hf : f.memory.Valid)
    (hbump : c → ∀ s, J.same s (h (.incNonce f.ctx.callee) s).2) (s : σ) :
    Framed.After h (beginCreate P withSalt) f s (Begun J c (.create withSalt) s 0 f) := by
  have hzero : ∀ {f : EVMInterpreter} {s : σ}, f.memory.Valid →
      Framed.After h pushZero f s (Begun J c (.create withSalt) s 0 f) := fun hf =>
    begun_of_failure hf (leads_pushZero.weaken Goes.gains) tame_refl
  refine begun_bind (still_popCreate withSalt).smooth hf fun args f₁ s₁ hgoes₁ hf₁ => begun_behind 0 hgoes₁ hgoes₁.gas ?_
  refine begun_bind (smooth_chargeCreate args) hf₁ fun initcode f₂ s₂ hgoes₂ hf₂ => begun_behind 0 hgoes₂ hgoes₂.gas ?_
  refine Framed.after_get_bind.mpr (Framed.after_ite.mpr ?_)
  have hcallee : f₂.ctx.callee = f.ctx.callee := by rw [hgoes₂.ctx, hgoes₁.ctx]
  split
  · exact hzero hf₂
  · refine begun_bind (Still.host (tame_reads hJ (.balance f₂.ctx.callee) rfl)).smooth hf₂ fun balance f₃ s₃ hgoes₃ hf₃ =>
      begun_behind 0 hgoes₃ hgoes₃.gas (Framed.after_ite.mpr ?_)
    split
    · exact hzero hf₃
    · refine begun_bind (still_newAddress (tame_reads hJ) f₂.ctx.callee args initcode).smooth hf₃
        fun newAddr f₄ s₄ hgoes₄ hf₄ => begun_behind 0 hgoes₄ hgoes₄.gas ?_
      have hnonce : ∀ s, Tame J c s (h (.incNonce f₂.ctx.callee) s).2 := fun s =>
        ⟨hJ.changes (.incNonce _) rfl s,fun hc => hcallee ▸ hbump hc s⟩
      refine begun_bind (still_incNonce hnonce).smooth hf₄ fun _ f₅ s₅ hgoes₅ hf₅ => begun_behind 0 hgoes₅ hgoes₅.gas ?_
      refine begun_bind (smooth_collides (tame_reads hJ) newAddr) hf₅ fun taken f₆ s₆ hgoes₆ hf₆ =>
        begun_behind 0 hgoes₆ hgoes₆.gas (Framed.after_ite.mpr ?_)
      split
      · exact hzero hf₆
      · exact after_enterCreate hJ hf₆ args initcode s₆

end Begin

end ZbxChain.Evm
