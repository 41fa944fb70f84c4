import ZbxChain.Zvm.Rounds
import ZbxChain.Zvm.SubCalls

/-! # Static frames

A static frame starts static frames only, and every opcode that changes something looks at
the flag first but one: `ZVMLOG` gives its log to the host in any frame.
-/
namespace ZbxChain.Zvm
open FrameOp FrameM

/-- `read_string` on the memory: the bytes of a text, and the memory they are found in. -/
def ZvmMemory.readText (m : ZvmMemory) (offset len : UInt64) : Option (List UInt8 × ZvmMemory) :=
  (m.readSlice offset len).filter (fun r => (ByteArray.mk r.1.toArray).validateUTF8)

/-- The operands of a structured log are on the stack, and its key and its value in the
memory. -/
def ZvmInterpreter.HasStrings (f : ZvmInterpreter) : Prop :=
  ∃ keyPtr keyLen valPtr valLen rest,
    f.stack.inner = keyPtr :: keyLen :: valPtr :: valLen :: rest ∧
    ∃ key m, f.memory.readText (UInt64.ofNat keyPtr.toNat) (UInt64.ofNat keyLen.toNat) = some (key,m) ∧
      (m.readText (UInt64.ofNat valPtr.toNat) (UInt64.ofNat valLen.toNat)).isSome

structure ZvmInterpreter.Logs (f : ZvmInterpreter) : Prop where
  opcode : f.opcode = some .ZVMLOG
  paid : ¬ f.gas < Opcode.ZVMLOG.gas
  strings : f.HasStrings

section Rounds
variable {σ : Type} {h : Program.Handler ZvmCall.Reply σ} {α β : Type} {f f' : ZvmInterpreter} {s : σ}

theorem along_lift_bind {allowed : ZvmCall → σ → Prop} (p : FrameOp α) (q : α → FrameM β) :
    (((liftM p : FrameM α) >>= q) f).Along h allowed s ↔
      ∀ a f₁, p f = (.ok a,f₁) → (q a f₁).Along h allowed s := by
  rw [lift_bind_apply]
  rcases p f with ⟨e | a,f₁⟩
  · exact ⟨fun _ => by rintro a f₁ ⟨⟩,fun _ => trivial⟩
  · constructor
    · rintro halong _ _ ⟨⟩
      exact halong
    · exact fun hall => hall a f₁ rfl

theorem popU64_ok {a : UInt64} : popU64 f = (.ok a,f') ↔
    ∃ word, ∃ stack : ZvmStack, f.stack.inner = word :: stack.inner ∧ a = UInt64.ofNat word.toNat ∧
      f' = { f with stack := stack } := by
  rcases f with ⟨ctx,⟨inner,hinner⟩⟩
  cases inner with
  | nil =>
    constructor
    · rintro ⟨⟩
    · rintro ⟨word,stack,⟨⟩,-⟩
  | cons word rest =>
    constructor
    · rintro ⟨⟩
      exact ⟨word,⟨rest,(Nat.le_succ _).trans hinner⟩,rfl,rfl,rfl⟩
    · rintro ⟨_,⟨_,_⟩,⟨⟩,rfl,rfl⟩
      rfl

theorem readString_ok {offset len : UInt64} {bytes : List UInt8} : readString offset len f = (.ok bytes,f') ↔
    ∃ m, f.memory.readText offset len = some (bytes,m) ∧ f' = { f with memory := m } := by
  unfold readString
  rw [bind_ok]
  have hread : ∀ r f₁, FrameOp.readSlice offset len f = (.ok r,f₁) ↔
      ∃ m, f.memory.readSlice offset len = some (r,m) ∧ f₁ = { f with memory := m } := by
    intro r f₁
    rw [FrameOp.readSlice, readMemory_apply]
    rcases f.memory.readSlice offset len with _ | ⟨a,m⟩
    · constructor
      · rintro ⟨⟩
      · rintro ⟨m,⟨⟩,-⟩
    · constructor
      · rintro ⟨⟩
        exact ⟨m,rfl,rfl⟩
      · rintro ⟨_,⟨⟩,rfl⟩
        rfl
  constructor
  · rintro ⟨r,f₁,hslice,hvalid⟩
    obtain ⟨m,hm,rfl⟩ := (hread r f₁).mp hslice
    split at hvalid
    · rename_i hutf
      cases hvalid
      refine ⟨m,?_,rfl⟩
      simp [ZvmMemory.readText, hm, Option.filter, hutf]
    · cases hvalid
  · rintro ⟨m,htext,rfl⟩
    obtain ⟨hslice,hutf⟩ := Option.filter_eq_some_iff.mp htext
    refine ⟨bytes,_,(hread _ _).mpr ⟨m,hslice,rfl⟩,?_⟩
    rw [if_pos hutf]
    rfl

theorem along_zvmLog (f : ZvmInterpreter) (s : σ) :
    (zvmLog f).Along h (fun c _ => mutates c = false) s ↔ ¬ f.HasStrings := by
  have hemit : ∀ key value (f₁ : ZvmInterpreter), ¬ ((do
      host (.emitZvmLog key value)
      modify (fun f => { f with
        zvmLogs := f.zvmLogs ++ [⟨key,value,f.ctx.blockNumber,f.logIndex⟩]
        logIndex := f.logIndex + 1 }) : FrameM Unit) f₁).Along h (fun c _ => mutates c = false) s := by
    rintro key value f₁ ⟨⟨⟩,-⟩
  unfold zvmLog
  simp only [along_lift_bind, popU64_ok, readString_ok]
  constructor
  · rintro hall ⟨keyPtr,keyLen,valPtr,valLen,rest,hstack,key,m,hkey,hvalue⟩
    obtain ⟨⟨value,m'⟩,hvalue⟩ := Option.isSome_iff_exists.mp hvalue
    have hbound := f.stack.bounded
    rw [hstack] at hbound
    simp only [List.length_cons] at hbound
    exact hemit _ _ _ (hall _ _ ⟨keyPtr,⟨keyLen :: valPtr :: valLen :: rest,by simp; omega⟩,hstack,rfl,rfl⟩
      _ _ ⟨keyLen,⟨valPtr :: valLen :: rest,by simp; omega⟩,rfl,rfl,rfl⟩
      _ _ ⟨valPtr,⟨valLen :: rest,by simp; omega⟩,rfl,rfl,rfl⟩
      _ _ ⟨valLen,⟨rest,by omega⟩,rfl,rfl,rfl⟩ _ _ ⟨m,hkey,rfl⟩ _ _ ⟨m',hvalue,rfl⟩)
  · rintro hnone _ _ ⟨keyPtr,s₁,h₁,rfl,rfl⟩ _ _ ⟨keyLen,s₂,h₂,rfl,rfl⟩ _ _ ⟨valPtr,s₃,h₃,rfl,rfl⟩
      _ _ ⟨valLen,s₄,h₄,rfl,rfl⟩ key _ ⟨m,hkey,rfl⟩ value _ ⟨m',hvalue,rfl⟩
    refine absurd ⟨keyPtr,keyLen,valPtr,valLen,s₄.inner,?_,key,m,hkey,?_⟩ hnone
    · rw [h₁, h₂, h₃, h₄]
    · exact Option.isSome_of_eq_some hvalue

theorem along_next {allowed : ZvmCall → σ → Prop} (p : FrameM Unit) :
    (next p f).Along h allowed s ↔ (p f).Along h allowed s := by
  refine (Program.along_bind (p f) _ s).trans (and_iff_left ?_)
  rcases (p f).run h s with ⟨⟨e | ⟨⟩,f₁⟩,s₁⟩
  · exact trivial
  · exact trivial

theorem along_outcome {allowed : ZvmCall → σ → Prop} (p : FrameM α) (k : α → ZvmInterpreter → Outcome) :
    (p.outcome k f).Along h allowed s ↔ (p f).Along h allowed s :=
  (Program.along_bind (p f) _ s).trans (and_iff_left trivial)

variable {P : Platform} {Z : Precompiles}

theorem step_eq {op : Opcode} (hop : f.opcode = some op) : step P Z f =
    if f.gas < op.gas then .done (.halt (f.finish .outOfGas) f)
    else execute P Z op { f with gas := f.gas - op.gas } := by
  obtain ⟨byte,hbyte,hdecode⟩ := Option.bind_eq_some_iff.mp hop
  unfold step
  simp only [hbyte, hdecode]

theorem step_end (hop : f.opcode = none) : ∃ status, step P Z f = .done (.halt (f.finish status) f) := by
  unfold step
  rcases hbyte : f.ctx.bytecode[f.pc]? with _ | byte
  · exact ⟨_,rfl⟩
  · rw [ZvmInterpreter.opcode, hbyte] at hop
    have hdecode : Opcode.fromU8 byte = none := hop
    simp only [hdecode]
    exact ⟨_,rfl⟩

theorem along_step_static (hstatic : f.ctx.isStatic = true) :
    (step P Z f).Along h (fun c _ => mutates c = false) s ↔ ¬ f.Logs := by
  by_cases hzvm : f.opcode = some .ZVMLOG
  · rw [step_eq hzvm]
    split
    · rename_i hpoor
      exact ⟨fun _ hlogs => hlogs.paid hpoor,fun _ => trivial⟩
    · rename_i hpaid
      refine (along_outcome (dispatch P .ZVMLOG) _).trans ((along_next zvmLog).trans ?_)
      rw [along_zvmLog]
      exact not_congr ⟨fun hstrings => ⟨hzvm,hpaid,hstrings⟩,fun hlogs => hlogs.strings⟩
  · have hround := within_step (P := P) (Z := Z) (A := fun ctx c => ctx.isStatic = true → mutates c = false)
      (fun _ _ hc _ => hc) (fun _ _ hlive h => absurd h (by rw [hlive]; decide)) f
      fun hop => absurd hop hzvm
    have hquiet := (hround.mono (fun _ hc => hc hstatic) fun _ h => h).along h s
    exact ⟨fun _ hlogs => hzvm hlogs.opcode,fun _ => hquiet⟩

def Round.IsStatic : Round → Prop
  | .opcode f => f.ctx.isStatic = true
  | .back f sub _ _ => f.ctx.isStatic = true ∧ ∃ kind, sub.kind = .call kind

theorem Reaches.isStatic {t : σ} {r : Round} (hreach : Reaches P Z h f s r t)
    (hstatic : f.ctx.isStatic = true) : r.IsStatic := by
  induction hreach with
  | here f s => exact hstatic
  | next hstep _ ih =>
    have hctx := (costs_of_run hstep).1.ctx
    exact ih (hctx ▸ hstatic)
  | within hstep _ ih => exact ih ((costs_of_run hstep).2.1.static hstatic).1
  | back hstep hsub =>
    have hcosts := costs_of_run hstep
    exact ⟨hcosts.1.ctx ▸ hstatic,(hcosts.2.1.static hstatic).2⟩
  | behind hstep hsub hresume _ ih =>
    have hctx := (behind_less (costs_of_run hstep) hsub hresume).1
    exact ih (hctx ▸ hstatic)

def Round.Logs : Round → Prop
  | .opcode f => f.Logs
  | .back _ _ _ _ => False

theorem along_round_static {r : Round} (hstatic : r.IsStatic) :
    (r.program P Z).Along h (fun c _ => mutates c = false) s ↔ ¬ r.Logs := by
  cases r with
  | opcode f => exact along_step_static hstatic
  | back f sub result child =>
    have hresume := within_resume (A := fun ctx c => ctx.isStatic = true → mutates c = false)
      (fun _ _ hlive h => absurd h (by rw [hlive]; decide)) f sub result child fun _ => hstatic.2
    have hquiet := (hresume.mono (fun _ hc => hc hstatic.1) fun _ h => h).along h s
    exact ⟨fun _ => id,fun _ => hquiet⟩

/-- A run from a static frame, under any host, calls no mutator iff none of its rounds is a
structured log with its strings at hand. -/
theorem static_run_mutates_nothing_iff (P : Platform) (Z : Precompiles)
    (h : Program.Handler ZvmCall.Reply σ) (f : ZvmInterpreter) (s : σ) (hstatic : f.ctx.isStatic = true) :
    (whole P Z f).Along h (fun c _ => mutates c = false) s ↔
      ∀ r t, Reaches P Z h f s r t → ¬ r.Logs := by
  rw [along_whole]
  apply forall_congr'
  intro r
  apply forall_congr'
  intro t
  exact imp_congr_right fun hreach => along_round_static (hreach.isStatic hstatic)

end Rounds

/-- Four times `PUSH0`, and a structured log with an empty key and an empty value. -/
def loggingFrame : ZvmInterpreter :=
  { callingFrame 0 with
    ctx := { (callingFrame 0).ctx with
      bytecode := [0x5F,0x5F,0x5F,0x5F,0xC9]
      isStatic := true }
    stack := .new }

theorem logging_mutates : ¬ (whole .integers noPrecompiles loggingFrame).Along (hostHandler .integers)
    (fun c _ => mutates c = false) revertingState := by
  decide +kernel

/-- The log of a static frame is a round of its run. -/
theorem static_run_logs : ∃ r t,
    Reaches .integers noPrecompiles (hostHandler .integers) loggingFrame revertingState r t ∧ r.Logs := by
  by_contra hnone
  apply logging_mutates
  apply (static_run_mutates_nothing_iff .integers noPrecompiles (hostHandler .integers) loggingFrame
    revertingState rfl).mpr
  exact fun r t hreach hlogs => hnone ⟨r,t,hreach,hlogs⟩

/-- A static frame gives a log to its host. -/
theorem static_run_mutates : ¬ ∀ (σ : Type) (P : Platform) (Z : Precompiles)
    (h : Program.Handler ZvmCall.Reply σ) (f : ZvmInterpreter) (s : σ), f.ctx.isStatic = true →
    (whole P Z f).Along h (fun c _ => mutates c = false) s := fun hclaim =>
  logging_mutates (hclaim HostState .integers noPrecompiles (hostHandler .integers) loggingFrame
    revertingState rfl)

end ZbxChain.Zvm
