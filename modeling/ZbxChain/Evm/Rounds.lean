import ZbxChain.Evm.Calls

/-! # The rounds of a run, and what a frame leaves to its parent

The second part of an opcode that starts a frame closes the snapshot of the first part, by a
commit or by a revert. What the frame left is all kept or all taken back.

One round of the loop takes gas from its frame or moves it forward in its code. What a frame
leaves on the host when its run is over is told by a journal: a frame that succeeds leaves the
snapshots as they were, and any other frame at least those.
-/
namespace ZbxChain.Evm
open EvmM

def SubFrame.Nonzero (sub : SubFrame) : Prop := ∀ withSalt, sub.kind = .create withSalt → sub.frame.ctx.callee ≠ 0

section Returns
variable {σ : Type} {h : Host σ} {J : Journal h.snapshots} {c : Prop} {base s₀ s s₁ : σ} {n : ℕ}
  {f f₁ f₂ child : EVMInterpreter} {sub : SubFrame} {status : ExitStatus}

theorem setWidth_eq_zero {addr : Address} (hzero : addr.setWidth 256 = (0 : Word)) : addr = 0 := by
  apply BitVec.eq_of_toNat_eq
  have hnat := congrArg BitVec.toNat hzero
  rw [BitVec.toNat_setWidth, Nat.mod_eq_of_lt (by have := addr.isLt; omega)] at hnat
  exact hnat

theorem Closed.behind {α : Type} {W : σ → σ → Prop} {r : Except EvmFault α} (hclosed : Closed J c base 0 f₁ r f₂ s₁)
    (hgains : Gains W n f s f₁ s₀) : Closed J c base n f r f₂ s₁ := by
  obtain ⟨hnear,hend⟩ := hclosed
  refine ⟨hgains.near.trans hnear,?_⟩
  rcases r with e | a
  · exact hend
  · exact ⟨hend.1,hend.2.1,fun hc htop => ⟨(hend.2.2 hc htop).1.trans hgains.logs,(hend.2.2 hc htop).2⟩⟩

section Parts
variable {W : σ → σ → Prop} [IsPreorder σ W]

theorem leads_settleChild (sub : SubFrame) (child : EVMInterpreter) : Leads h (Gains W sub.billed.toNat)
    (fun f => f.memory.Valid) (settleChild sub child) (fun _ f => f.memory.Valid) := by
  have hwarm : Still h W (modify (fun f => { f with warmAddresses := child.warmAddresses }) : EvmM Unit) :=
    .modify (fun _ => ⟨rfl,rfl,rfl,rfl,le_rfl,le_rfl⟩) fun _ => rfl
  refine Leads.before hwarm.smooth fun _ => leads_refundGas ?_ Memory.Valid
  rw [toNat_min64]
  exact Nat.min_le_right _ _

theorem leads_takeLogs (child : EVMInterpreter) : Leads h (Nears W 0) (fun f => f.memory.Valid) (takeLogs child)
    (fun _ f => f.memory.Valid) :=
  Framed.Moves.modify (fun _ s _ => ⟨⟨rfl,rfl,rfl,le_rfl,le_rfl⟩,Std.Refl.refl s⟩) fun _ hf => hf

theorem leads_answer (sub : SubFrame) (child : EVMInterpreter) (answer : UInt64) : Leads h (Gains W sub.billed.toNat)
    (fun f => f.memory.Valid) (do
      settleChild sub child
      setReturnData child.returnData
      storeOutput sub.retOff sub.retLen child.returnData
      pushU64 answer) (fun _ f => f.memory.Valid ∧ f.stack.data.head? = some (u256FromU64 answer)) :=
  (leads_settleChild (W := W) sub child).behind fun _ => (still_setReturnData _).bind_leads fun _ =>
    Framed.Moves.bind Goes.trans (smooth_storeOutput _ _ _) fun _ => leads_push _ Memory.Valid

theorem leads_logs (child : EVMInterpreter) {p : EvmM Unit} {Q : EVMInterpreter → Prop} (hp : Leads h (Gains W n) (fun f => f.memory.Valid) p (fun _ f => Q f)) :
    Leads h (Nears W n) (fun f => f.memory.Valid) (takeLogs child >>= fun _ => p) (fun _ f => Q f) := by
  refine (leads_takeLogs (W := W) child).comp (fun _ => hp.weaken Gains.nears) ?_ ?_
  · rintro f s f₁ s₁ f₂ s₂ ⟨hnear,hhost⟩ ⟨hnear',hhost'⟩
    have htrans := hnear.trans hnear'
    rw [Nat.zero_add] at htrans
    exact ⟨htrans,IsTrans.trans _ _ _ hhost hhost'⟩
  · rintro f s f₁ s₁ ⟨⟨hctx,hcode,hframes,hpc,hgas⟩,hhost⟩
    exact ⟨⟨hctx,hcode,hframes,hpc,Nat.le_add_right_of_le hgas⟩,hhost⟩

end Parts

variable (hJ : Journalled h J) (hf : f.memory.Valid) (hopened : J.opened sub.snapshot base s₀) (hbroken : J.broken s₀ s)
include hf hopened hbroken

theorem after_resumeCall (hkept : status = .succeeded → J.kept s₀ s) :
    Framed.After h (resumeCall sub status child) f s (Closed J c base sub.billed.toNat f) := by
  unfold resumeCall
  refine Framed.after_ite.mpr ?_
  split
  · rename_i hstatus
    have hcommit := J.kept_commit (J.opened_kept hopened (hkept hstatus))
    refine Framed.after_call_bind.mpr ?_
    refine (closed_of_kept (leads_logs child (leads_answer sub child 1)) (fun _ f hend => ⟨hend.1,fun _ hzero => ?_⟩)
      hf hcommit).mono fun _ _ _ hclosed => hclosed.1
    rw [hend.2] at hzero
    exact absurd (Option.some.inj hzero) (by decide)
  · refine Framed.after_call_bind.mpr ?_
    exact (closed_of_same (leads_answer sub child 0) (fun _ _ hend => hend.1) hf
      (.of_same (J.same_revertTo hopened hbroken))).mono fun _ _ _ hclosed => hclosed.1

theorem after_undoCreate (data : List UInt8) :
    Framed.After h (undoCreate sub data) f s (Closed J c base 0 f) := by
  unfold undoCreate
  refine Framed.after_call_bind.mpr ?_
  have hrest : Smooth h (Tame J c) (setReturnData data >>= fun _ => push 0) :=
    (still_setReturnData data).bind_smooth fun _ => (still_push 0).smooth
  exact (closed_of_same (hrest.weaken Goes.gains) (fun _ _ hend => hend) hf
    (.of_same (J.same_revertTo hopened hbroken))).mono fun _ _ _ hclosed => hclosed.1

include hJ

omit hopened hbroken in
theorem after_deploy (hopened : J.opened sub.snapshot base s) (hnew : c → sub.frame.ctx.callee ≠ 0) :
    Framed.After h (deploy sub child) f s (Closed J c base 0 f) := by
  have hundo : Framed.After h (undoCreate sub []) f s (Closed J c base 0 f) :=
    after_undoCreate hf hopened (J.broken_of_kept (J.kept_of_same (J.same_refl s))) []
  unfold deploy
  refine Framed.after_ite.mpr ?_
  split
  · exact hundo
  · refine Framed.after_ite.mpr ?_
    split
    · exact hundo
    · refine Framed.after_get_bind.mpr (Framed.after_ite.mpr ?_)
      split
      · exact hundo
      · rw [Framed.after_bind]
        refine (still_consumeGas (W := Eq) _ Memory.Valid f s hf).mono ?_
        rintro (e | ⟨⟩) f₁ s₁ ⟨hgoes,hend⟩
        · exact ⟨hgoes.gains.near,hend,hgoes.host ▸ J.broken_of_opened hopened⟩
        · obtain rfl := hgoes.host
          have hstored := J.opened_kept hopened (hJ.changes (.setCode sub.frame.ctx.callee child.returnData) rfl s)
          refine Framed.after_call_bind.mpr (Framed.after_call_bind.mpr ?_)
          have hrest : Leads h (Goes J.kept) (fun f => f.memory.Valid)
              (setReturnData [] >>= fun _ => pushAddress sub.frame.ctx.callee)
              (fun _ f => f.memory.Valid ∧ f.stack.data.head? = some (sub.frame.ctx.callee.setWidth 256)) :=
            (still_setReturnData []).bind_leads fun _ => leads_push _ Memory.Valid
          have hlogs := leads_logs child (hrest.weaken (Goes.gains (n := 0)))
          have hclosed := closed_of_kept (c := c) hlogs
            (fun _ f hend => ⟨hend.1,fun hc hzero => ?_⟩) hend (J.kept_commit hstored)
          · exact hclosed.mono fun _ _ _ hclosed => hclosed.1.behind hgoes.gains
          · rw [hend.2] at hzero
            exact hnew hc (setWidth_eq_zero (Option.some.inj hzero))

theorem after_resumeCreate (hkept : status = .succeeded → J.kept s₀ s) (hnew : c → sub.frame.ctx.callee ≠ 0) :
    Framed.After h (resumeCreate sub status child) f s (Closed J c base sub.billed.toNat f) := by
  unfold resumeCreate
  rw [Framed.after_bind]
  refine (leads_settleChild (W := Eq) sub child f s hf).mono ?_
  rintro (e | ⟨⟩) f₁ s₁ ⟨hgains,hend⟩
  · exact ⟨hgains.near,hend,hgains.host ▸ J.broken_trans (J.broken_of_opened hopened) hbroken⟩
  · obtain rfl := hgains.host
    refine Framed.after_ite.mpr ?_
    split
    · rename_i hstatus
      exact (after_deploy hJ hend (J.opened_kept hopened (hkept hstatus)) hnew).mono
        fun _ _ _ hclosed => hclosed.behind hgains
    · exact (after_undoCreate hend hopened hbroken child.returnData).mono fun _ _ _ hclosed => hclosed.behind hgains

theorem after_resumeFrame (hkept : status = .succeeded → J.kept s₀ s)
    (hnew : c → sub.Nonzero) :
    Framed.After h (resumeFrame sub status child) f s (Closed J c base sub.billed.toNat f) := by
  unfold resumeFrame
  split
  · exact after_resumeCall hf hopened hbroken hkept
  · rename_i withSalt hkind
    exact after_resumeCreate hJ hf hopened hbroken hkept fun hc => hnew hc withSalt hkind

end Returns

section Steps
variable {σ : Type} {h : Host σ} {J : Journal h.snapshots} {P : Platform} {Z : Precompiles} {c : Prop} {s s' : σ}
  {f f' : EVMInterpreter}

def EVMInterpreter.opcode (f : EVMInterpreter) : Option Opcode := (f.code[f.pc]?).bind Opcode.fromU8

def EVMInterpreter.frameKind (f : EVMInterpreter) : Option FrameKind := f.opcode.bind Opcode.frameKind

theorem after_outcome {α : Type} {p : EvmM α} {k : α → EVMInterpreter → Outcome}
    {Q : Except EvmFault α → EVMInterpreter → σ → Prop} {R : Outcome → σ → Prop} (hp : Framed.After h p f s Q)
    (hR : ∀ r f₁ s₁, Q r f₁ s₁ → R (conclude k (r,f₁)) s₁) :
    (p.outcome k f).Gives h s R := Program.gives_bind.mpr (hR _ _ _ hp)

structure Nexts (J : Journal h.snapshots) (c : Prop) (f : EVMInterpreter) (s : σ) (f' : EVMInterpreter) (s' : σ) : Prop where
  ctx : f'.ctx = f.ctx
  code : f'.code = f.code
  valid : f'.memory.Valid
  kept : J.kept s s'
  gas : f'.gasRemaining.toNat ≤ f.gasRemaining.toNat
  progress : f'.gasRemaining.toNat < f.gasRemaining.toNat ∨ f.pc < f'.pc ∧ f.pc < f.code.length
  closes : ∀ kind, f.frameKind = some kind → f'.gasRemaining.toNat < f.gasRemaining.toNat ∧
    (c → f'.stack.data.head? = some 0 → f'.logs = f.logs ∧ J.same s s')

structure Halts (J : Journal h.snapshots) (f : EVMInterpreter) (s : σ) (status : ExitStatus) (f' : EVMInterpreter)
    (s' : σ) : Prop where
  ctx : f'.ctx = f.ctx
  gas : f'.gasRemaining.toNat ≤ f.gasRemaining.toNat
  broken : J.broken s s'
  kept : status = .succeeded → J.kept s s'

def Begins (J : Journal h.snapshots) (c : Prop) (f : EVMInterpreter) (s : σ) (f' : EVMInterpreter)
    (sub : SubFrame) (s' : σ) : Prop :=
  ∃ kind paid, f.frameKind = some kind ∧ 0 < paid ∧ paid ≤ f.gasRemaining ∧
    Enters J c kind s 0 { f with gasRemaining := f.gasRemaining - paid } f' sub s'

def Stepped (J : Journal h.snapshots) (c : Prop) (f : EVMInterpreter) (s : σ) (o : Outcome) (s' : σ) : Prop :=
  match o with
  | .next f' => Nexts J c f s f' s'
  | .enter f' sub => Begins J c f s f' sub s'
  | .halt status f' => Halts J f s status f' s'
  | .panicked => ∃ op, f.opcode = some op ∧ op.copies = true ∧ op.staticGas ≤ f.gasRemaining

theorem staticGas_of_frameKind {op : Opcode} {kind : FrameKind} (hkind : op.frameKind = some kind) : 0 < op.staticGas := by
  cases op with
  | CALL | CALLCODE | DELEGATECALL | STATICCALL | CREATE | CREATE2 => decide
  | _ => cases hkind

theorem staticGas_of_jump {op : Opcode} (hop : op = .JUMP ∨ op = .JUMPI) : 0 < op.staticGas := by
  rcases hop with rfl | rfl
  · decide
  · decide

theorem toNat_pos_of_lt {x : UInt64} (hpos : 0 < x) : 0 < x.toNat := UInt64.lt_iff_toNat_lt.mp hpos

theorem toNat_paid {gas paid : UInt64} (henough : paid ≤ gas) : (gas - paid).toNat = gas.toNat - paid.toNat :=
  UInt64.toNat_sub_of_le gas paid henough

/-- The nonce that a creation gives its creator counts for nothing. -/
def Forgives (J : Journal h.snapshots) (kind : FrameKind) (creator : Address) : Prop :=
  ∀ withSalt, kind = .create withSalt → ∀ s, J.same s (h (.incNonce creator) s).2

theorem after_beginFrame (hJ : Journalled h J) (hf : f.memory.Valid) (kind : FrameKind)
    (hbump : c → Forgives J kind f.ctx.callee) (s : σ) :
    Framed.After h (beginFrame P Z kind) f s (Begun J c kind s 0 f) := by
  cases kind with
  | call kind => exact after_beginCall hJ Z kind hf s
  | create withSalt => exact after_beginCreate hJ withSalt hf (fun hc => hbump hc withSalt rfl) s

section Perform
variable {op : Opcode} (hJ : Journalled h J) (hf : f.memory.Valid) (hopcode : f.opcode = some op)
  (henough : op.staticGas ≤ f.gasRemaining)
include hJ hf hopcode henough

theorem perform_frame {kind : FrameKind} (hkind : op.frameKind = some kind)
    (hbump : c → Forgives J kind f.ctx.callee) (s : σ) :
    (perform P Z op { f with gasRemaining := f.gasRemaining - op.staticGas }).Gives h s (Stepped J c f s) := by
  have hpositive := toNat_pos_of_lt (staticGas_of_frameKind hkind)
  have hle : op.staticGas.toNat ≤ f.gasRemaining.toNat := UInt64.le_iff_toNat_le.mp henough
  have hpaid := toNat_paid henough
  have hframe : f.frameKind = some kind := by rw [EVMInterpreter.frameKind, hopcode, Option.bind_some, hkind]
  unfold perform
  rw [hkind]
  apply after_outcome (after_beginFrame hJ (f := { f with gasRemaining := f.gasRemaining - op.staticGas }) hf kind hbump s)
  rintro (e | _ | sub) f₁ s₁ hbegun
  · obtain ⟨hnear,hne,hbroken⟩ := hbegun
    have hgas := hnear.gas
    cases e with
    | panicked => exact absurd rfl hne
    | error e => exact ⟨hnear.ctx,by dsimp only at hgas; omega,hbroken,by rintro ⟨⟩⟩
  · obtain ⟨hnear,hvalid,hkept,hzero⟩ := hbegun
    have hgas : f₁.gasRemaining.toNat < f.gasRemaining.toNat := by
      have hgas := hnear.gas
      dsimp only at hgas
      omega
    exact ⟨hnear.ctx,hnear.code,hvalid,hkept,hgas.le,Or.inl hgas,fun _ _ => ⟨hgas,hzero⟩⟩
  · exact ⟨kind,op.staticGas,hframe,staticGas_of_frameKind hkind,henough,hbegun⟩

theorem perform_dispatch (hkind : op.frameKind = none) (hpc : f.pc < f.code.length) (s : σ) :
    (perform P Z op { f with gasRemaining := f.gasRemaining - op.staticGas }).Gives h s (Stepped J c f s) := by
  have hle : op.staticGas.toNat ≤ f.gasRemaining.toNat := UInt64.le_iff_toNat_le.mp henough
  have hpaid := toNat_paid henough
  have hcloses : ∀ kind, f.frameKind = some kind → False := by
    intro kind hframe
    rw [EVMInterpreter.frameKind, hopcode, Option.bind_some, hkind] at hframe
    cases hframe
  unfold perform
  rw [hkind]
  apply after_outcome (after_dispatch hJ.changes op (f := { f with gasRemaining := f.gasRemaining - op.staticGas }) s hf)
  rintro (e | _ | _ | status) f₁ s₁ ⟨hstands,hflow⟩
  · have hgas := hstands.gas
    dsimp only at hgas
    cases e with
    | panicked => exact ⟨op,hopcode,hflow rfl,henough⟩
    | error e => exact ⟨hstands.ctx,by omega,J.broken_of_kept hstands.host,by rintro ⟨⟩⟩
  · have hgas := hstands.gas
    dsimp only at hgas
    exact ⟨hstands.ctx,hstands.code,hflow.2,hstands.host,by dsimp only [EVMInterpreter.advance]; omega,
      Or.inr ⟨Nat.lt_succ_of_le hflow.1,hpc⟩,fun kind hframe => (hcloses kind hframe).elim⟩
  · have hgas := hstands.gas
    dsimp only at hgas
    have hpositive := toNat_pos_of_lt (staticGas_of_jump hflow.2)
    exact ⟨hstands.ctx,hstands.code,hflow.1,hstands.host,by omega,Or.inl (by omega),
      fun kind hframe => (hcloses kind hframe).elim⟩
  · have hgas := hstands.gas
    dsimp only at hgas
    exact ⟨hstands.ctx,by omega,J.broken_of_kept hstands.host,fun _ => hstands.host⟩

end Perform

/-- What one opcode does, over every kind of frame. -/
theorem step_spec (hJ : Journalled h J) (hf : f.memory.Valid)
    (hbump : c → ∀ kind, f.frameKind = some kind → Forgives J kind f.ctx.callee) (s : σ) :
    (step P Z f).Gives h s (Stepped J c f s) := by
  have hstop : ∀ e, Halts J f s e f s := fun e =>
    ⟨rfl,le_rfl,J.broken_of_kept (J.kept_of_same (J.same_refl s)),fun _ => J.kept_of_same (J.same_refl s)⟩
  unfold step
  split
  · exact hstop _
  · rename_i byte hbyte
    split
    · exact hstop _
    · rename_i op hop
      have hopcode : f.opcode = some op := by rw [EVMInterpreter.opcode, hbyte, Option.bind_some, hop]
      split
      · exact hstop _
      · rename_i henough
        have henough' : op.staticGas ≤ f.gasRemaining := UInt64.not_lt.mp henough
        rcases hkind : op.frameKind with _ | kind
        · obtain ⟨hpc,-⟩ := List.getElem?_eq_some_iff.mp hbyte
          exact perform_dispatch hJ hf hopcode henough' hkind hpc s
        · have hframe : f.frameKind = some kind := by rw [EVMInterpreter.frameKind, hopcode, Option.bind_some, hkind]
          exact perform_frame hJ hf hopcode henough' hkind (fun hc => hbump hc kind hframe) s

end Steps

section Runs
variable {σ : Type} {h : Host σ} {J : Journal h.snapshots} {P : Platform} {Z : Precompiles} {c : Prop} {s s' : σ}
  {f f' : EVMInterpreter}

def Ended (J : Journal h.snapshots) (f : EVMInterpreter) (s : σ) (o : RunEnd) (s' : σ) : Prop :=
  match o with
  | .finished status f' => Halts J f s status f' s'
  | .panicked | .outOfFuel => True

def Rounded (J : Journal h.snapshots) (c : Prop) (f : EVMInterpreter) (s : σ) (o : Option Outcome) (s' : σ) : Prop :=
  match o with
  | some (.next f') => Nexts J c f s f' s'
  | some (.halt status f') => Halts J f s status f' s'
  | some (.enter _ _) => False
  | some .panicked | none => True

theorem Begins.memory {f₁ : EVMInterpreter} {sub : SubFrame} (hbegins : Begins J c f s f₁ sub s') :
    sub.frame.memory.Valid := by
  obtain ⟨kind,paid,-,-,-,henters⟩ := hbegins
  exact henters.memory

theorem resume_spec (hJ : Journalled h J) {s₁ s₂ : σ} {f₁ child : EVMInterpreter} {sub : SubFrame} {status : ExitStatus}
    (hbegins : Begins J c f s f₁ sub s₁) (hnew : c → sub.Nonzero) (hends : Halts J sub.frame s₁ status child s₂) :
    (resume f₁ sub status child).Gives h s₂ (fun o => Rounded J c f s (some o)) := by
  obtain ⟨kind,paid,hframe,hpositive,henough,henters⟩ := hbegins
  obtain ⟨s₀,htame,hopened⟩ := henters.opened
  have hpaid := toNat_paid henough
  have hle : paid.toNat ≤ f.gasRemaining.toNat := UInt64.le_iff_toNat_le.mp henough
  have hless := toNat_pos_of_lt hpositive
  have hgas := henters.paid
  dsimp only at hgas
  have hresumed : Framed.After h (resumeFrame sub status child) f₁ s₂ (Closed J c s₀ sub.billed.toNat f₁) :=
    after_resumeFrame hJ henters.valid hopened hends.broken hends.kept hnew
  unfold resume
  refine after_outcome hresumed ?_
  rintro (e | ⟨⟩) f₂ s₂ hclosed
  · obtain ⟨hnear,hne,hbroken⟩ := hclosed.of_start (Stays.refl f₁) le_rfl htame
    have hspent := hnear.gas
    cases e with
    | panicked => exact absurd rfl hne
    | error e => exact ⟨hnear.ctx.trans henters.stays.ctx,by omega,hbroken,by rintro ⟨⟩⟩
  · obtain ⟨hnear,hvalid,hkept,hsame⟩ := hclosed.of_start (Stays.refl f₁) le_rfl htame
    have hspent : f₂.gasRemaining.toNat < f.gasRemaining.toNat := by
      have hspent := hnear.gas
      omega
    refine ⟨hnear.ctx.trans henters.stays.ctx,hnear.code.trans henters.stays.code,hvalid,hkept,hspent.le,Or.inl hspent,
      fun _ _ => ⟨hspent,fun hc htop => ?_⟩⟩
    obtain ⟨hlogs,hsame⟩ := hsame hc htop
    exact ⟨hlogs.trans henters.stays.logs,hsame⟩

/-- One round: the opcode, and the whole sub-frame if it begins one. -/
theorem round_spec (hJ : Journalled h J) {run : EVMInterpreter → Program EvmCall.Reply RunEnd}
    (hrun : ∀ f s, f.memory.Valid → (run f).Gives h s (Ended J f s)) (hf : f.memory.Valid)
    (hbump : c → ∀ kind, f.frameKind = some kind → Forgives J kind f.ctx.callee)
    (hnew : c → ∀ f₁ sub s₁, (step P Z f).run h s = (.enter f₁ sub,s₁) → sub.Nonzero) :
    (round P Z run f).Gives h s (Rounded J c f s) := by
  refine Program.gives_bind.mpr ((step_spec hJ hf hbump s).with_run.mono ?_)
  rintro (f₁ | ⟨f₁,sub⟩ | ⟨status,f₁⟩ | _) s₁ ⟨hrunned,hstep⟩
  · exact hstep
  · refine Program.gives_bind.mpr ((hrun sub.frame s₁ hstep.memory).mono ?_)
    rintro (⟨status,child⟩ | _ | _) s₂ hsub
    · exact Program.gives_bind.mpr (resume_spec hJ hstep (fun hc => hnew hc f₁ sub s₁ hrunned) hsub)
    · exact trivial
    · exact trivial
  · exact hstep
  · exact trivial

/-- The run by induction on its fuel. -/
theorem run_spec (hJ : Journalled h J) (fuel : ℕ) (hf : f.memory.Valid) (s : σ) :
    (run P Z fuel f).Gives h s (Ended J f s) := by
  induction fuel generalizing f s with
  | zero => exact trivial
  | succ fuel ih =>
    refine Program.gives_bind.mpr ((round_spec (c := False) hJ (fun f s hf => ih hf s) hf False.elim False.elim).mono ?_)
    rintro (_ | f₁ | ⟨f₁,sub⟩ | ⟨status,f₁⟩ | _) s₁ hround
    · exact trivial
    · refine (ih hround.valid s₁).mono ?_
      rintro (⟨status,f₂⟩ | _ | _) s₂ hrest
      · exact ⟨hrest.ctx.trans hround.ctx,hrest.gas.trans hround.gas,
          J.broken_trans (J.broken_of_kept hround.kept) hrest.broken,
          fun hstatus => J.kept_trans hround.kept (hrest.kept hstatus)⟩
      · exact trivial
      · exact trivial
    · exact hround.elim
    · exact hround
    · exact trivial

theorem round_run_spec (hJ : Journalled h J) (fuel : ℕ) (hf : f.memory.Valid)
    (hbump : c → ∀ kind, f.frameKind = some kind → Forgives J kind f.ctx.callee)
    (hnew : c → ∀ f₁ sub s₁, (step P Z f).run h s = (.enter f₁ sub,s₁) → sub.Nonzero) :
    (round P Z (run P Z fuel) f).Gives h s (Rounded J c f s) :=
  round_spec hJ (fun _ s hf => run_spec hJ fuel hf s) hf hbump hnew

theorem round_free (fuel : ℕ) (hf : f.memory.Valid) (s : σ) :
    (round P Z (run P Z fuel) f).Gives h s (Rounded (.free h.snapshots) False f s) :=
  round_run_spec (Journalled.free h) fuel hf False.elim False.elim

/-- The rounds that the run of a frame comes to, those of the frames it starts included. -/
inductive Reaches (P : Platform) (Z : Precompiles) (h : Host σ) : EVMInterpreter → σ → EVMInterpreter → σ → Prop where
  | here (f : EVMInterpreter) (s : σ) : Reaches P Z h f s f s
  | next {f f₁ f' : EVMInterpreter} {s s₁ s' : σ} (fuel : ℕ) (hround : (round P Z (run P Z fuel) f).run h s = (some (.next f₁),s₁))
      (hrest : Reaches P Z h f₁ s₁ f' s') : Reaches P Z h f s f' s'
  | within {f f₁ f' : EVMInterpreter} {sub : SubFrame} {s s₁ s' : σ} (hstep : (step P Z f).run h s = (.enter f₁ sub,s₁))
      (hrest : Reaches P Z h sub.frame s₁ f' s') : Reaches P Z h f s f' s'

/-- The rounds that are reached keep the memory valid. -/
theorem Reaches.valid (hreaches : Reaches P Z h f s f' s') (hf : f.memory.Valid) : f'.memory.Valid := by
  induction hreaches with
  | here f s => exact hf
  | @next f f₁ f' s s₁ s' fuel hround hrest ih =>
    have hspec := round_free (P := P) (Z := Z) (h := h) fuel hf s
    unfold Program.Gives at hspec
    rw [hround] at hspec
    exact ih hspec.valid
  | @within f f₁ f' sub s s₁ s' hstep hrest ih =>
    have hspec := step_spec (P := P) (Z := Z) (c := False) (Journalled.free h) hf False.elim s
    unfold Program.Gives at hspec
    rw [hstep] at hspec
    exact ih hspec.memory

def nexts (P : Platform) (Z : Precompiles) (h : Host σ) (fuel : ℕ) : ℕ → EVMInterpreter → σ → Option (EVMInterpreter × σ)
  | 0, f, s => some (f,s)
  | k + 1, f, s =>
    match (round P Z (run P Z fuel) f).run h s with
    | (some (.next f₁),s₁) => nexts P Z h fuel k f₁ s₁
    | _ => none

theorem reaches_of_nexts {fuel k : ℕ} (hnexts : nexts P Z h fuel k f s = some (f',s')) : Reaches P Z h f s f' s' := by
  induction k generalizing f s with
  | zero =>
    cases hnexts
    exact .here _ _
  | succ k ih =>
    rw [nexts] at hnexts
    split at hnexts
    · rename_i f₁ s₁ hround
      exact .next fuel hround (ih hnexts)
    · cases hnexts

theorem nonzero_of_call {kind : CallKind} (hf : f.memory.Valid) (hkind : f.frameKind = some (.call kind))
    {f₁ : EVMInterpreter} {sub : SubFrame} {s₁ : σ} (hstep : (step P Z f).run h s = (.enter f₁ sub,s₁)) : sub.Nonzero := by
  have hspec := step_spec (P := P) (Z := Z) (c := False) (Journalled.free h) hf False.elim s
  unfold Program.Gives at hspec
  rw [hstep] at hspec
  obtain ⟨kind',paid,hkind',-,-,henters⟩ := hspec
  obtain rfl := Option.some.inj (hkind.symm.trans hkind')
  rintro withSalt hcreate
  rw [henters.starts] at hcreate
  cases hcreate

end Runs

end ZbxChain.Evm
