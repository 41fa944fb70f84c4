import ZbxChain.Zvm.HostCalls

/-! # Every run ends, and no run creates gas

Each round of the loop takes gas from its frame, that of a frame it starts included, and what
comes back from such a frame is at most what it was given. So the gas of a frame bounds the
rounds of its run, those of the frames below it included.
-/
namespace ZbxChain.Zvm

section Steps
variable {P : Platform} {Z : Precompiles} {A : ZvmContext → ZvmCall → Prop} {f : ZvmInterpreter}

def ZvmInterpreter.opcode (f : ZvmInterpreter) : Option Opcode :=
  (f.ctx.bytecode[f.pc]?).bind Opcode.fromU8

theorem gas_eq_zero {op : Opcode} (h : op.gas = 0) :
    op = .STOP ∨ op = .RETURN ∨ op = .REVERT ∨ op = .INVALID := by
  cases op with
  | STOP | RETURN | REVERT | INVALID => simp
  | PUSH n | DUP n | SWAP n => exact absurd h (by decide : (3 : UInt64) ≠ 0)
  | LOG n => exact absurd h (by decide : (375 : UInt64) ≠ 0)
  | _ => exact absurd h (by decide)

theorem gas_of_frameKind {op : Opcode} {kind : FrameKind} (h : op.frameKind = some kind) : op.gas ≠ 0 := by
  intro hzero
  rcases gas_eq_zero hzero with rfl | rfl | rfl | rfl
  · cases h
  · cases h
  · cases h
  · cases h

theorem within_halt {p : FrameM ZvmResult} (hp : Does (fun _ => True) A finishes p) (f : ZvmInterpreter) :
    (FrameM.halt p f).Within (A f.ctx) (fun r => r.1 ≠ .ok none) := by
  refine (within_bind_iff p _ f).mpr ((hp f trivial).mono (fun _ hc => hc) ?_)
  rintro ⟨e | result,f₁⟩ -
  · rintro ⟨⟩
  · rintro ⟨⟩

def Costs (f : ZvmInterpreter) : Outcome → Prop
  | .next f' => Spends f f' ∧ f'.gas.toNat < f.gas.toNat
  | .enter f' sub => Spends f f' ∧ StartsFrom f f' sub ∧ f'.gas.toNat + sub.frame.gas.toNat < f.gas.toNat
  | .halt result f' => Spends f f' ∧ ∃ status, result = f'.finish status
  | .panicked => True

theorem within_outcome {α : Type} {p : FrameM α} {k : α → ZvmInterpreter → Outcome} {allowed : ZvmCall → Prop}
    {Q : Except ZvmFault α × ZvmInterpreter → Prop} {R : Outcome → Prop} (hp : (p f).Within allowed Q)
    (hR : ∀ r, Q r → R (conclude k r)) : (p.outcome k f).Within allowed R :=
  (Program.within_bind (p f) _).mpr (hp.mono (fun _ hc => hc) hR)

theorem costs_error {α : Type} {k : α → ZvmInterpreter → Outcome} {e : ZvmFault} {f' : ZvmInterpreter}
    (hspends : Spends f f') : Costs f (conclude k (.error e,f')) := by
  cases e with
  | panicked => exact trivial
  | error e => exact ⟨hspends,_,rfl⟩

variable (hread : ∀ ctx c, mutates c = false → A ctx c) (hlive : ∀ ctx c, ctx.isStatic = false → A ctx c)
include hread hlive

/-- One opcode takes its gas and makes host calls that its frame allows. -/
theorem within_step (f : ZvmInterpreter)
    (hlog : f.opcode = some .ZVMLOG → ∀ ctx key value, A ctx (.emitZvmLog key value)) :
    (step P Z f).Within (A f.ctx) (Costs f) := by
  unfold step
  split
  · exact ⟨Spends.refl f,_,rfl⟩
  · rename_i byte hbyte
    split
    · exact ⟨Spends.refl f,_,rfl⟩
    · rename_i op hop
      split
      · exact ⟨Spends.refl f,_,rfl⟩
      · rename_i henough
        have hopcode : f.opcode = some op := by
          rw [ZvmInterpreter.opcode, hbyte, Option.bind_some, hop]
        have hgas : (f.gas - op.gas).toNat = f.gas.toNat - op.gas.toNat := toNat_sub_of_le henough
        have hless : op.gas.toNat ≤ f.gas.toNat := UInt64.le_iff_toNat_le.mp (UInt64.not_lt.mp henough)
        have hpaid : Spends f { f with gas := f.gas - op.gas } := spends_charge henough
        have hpositive : op.gas ≠ 0 → 0 < op.gas.toNat := by
          intro hne
          exact Nat.pos_of_ne_zero fun hzero => hne (UInt64.toNat_inj.mp hzero)
        unfold execute
        split
        · rename_i kind hkind
          have hprice := hpositive (gas_of_frameKind hkind)
          refine within_outcome (does_startFrame (I := fun _ => True) hread hlive P Z kind
            { f with gas := f.gas - op.gas } trivial) ?_
          rintro ⟨e | sub,f₁⟩ ⟨hspends,hstarts⟩
          · exact costs_error (hpaid.trans hspends)
          · have hspent : f₁.gas.toNat ≤ (f.gas - op.gas).toNat := hspends.gas
            cases sub with
            | none => exact ⟨hpaid.trans hspends,by omega⟩
            | some sub =>
              obtain ⟨hshare,hlimit,hmemory,hstatic⟩ := hstarts sub rfl
              dsimp only at hshare
              exact ⟨hpaid.trans hspends,⟨by omega,hlimit,hmemory,hstatic⟩,by omega⟩
        · have hdispatch := does_dispatch (I := fun _ => True) hread hlive P op
            (fun hzvm => hlog (hzvm ▸ hopcode)) { f with gas := f.gas - op.gas } trivial
          have hgoes : (dispatch P op { f with gas := f.gas - op.gas }).Within (A f.ctx)
              (fun r => op.gas = 0 → r.1 ≠ .ok none) := by
            by_cases hfree : op.gas = 0
            · have hends : (dispatch P op { f with gas := f.gas - op.gas }).Within (A f.ctx)
                  (fun r => r.1 ≠ .ok none) := by
                rcases gas_eq_zero hfree with rfl | rfl | rfl | rfl
                · exact within_halt (does_finish _) _
                · exact within_halt (A := A) (does_returnWith .success) { f with gas := f.gas - Opcode.RETURN.gas }
                · exact within_halt (A := A) (does_returnWith .revert) { f with gas := f.gas - Opcode.REVERT.gas }
                · exact within_halt (does_finish _) _
              exact hends.mono (fun _ hc => hc) fun _ hr _ => hr
            · exact hdispatch.mono (fun _ hc => hc) fun _ _ h => absurd h hfree
          refine within_outcome ((hdispatch.and hgoes).mono (fun _ hc => hc.1) fun _ h => h) ?_
          rintro ⟨e | result,f₁⟩ ⟨⟨hspends,hfinish⟩,hcharged⟩
          · exact costs_error (hpaid.trans hspends)
          · have hspent : f₁.gas.toNat ≤ (f.gas - op.gas).toNat := hspends.gas
            cases result with
            | none =>
              have hprice := hpositive fun hfree => hcharged hfree rfl
              exact ⟨hpaid.trans hspends,by omega⟩
            | some result => exact ⟨hpaid.trans hspends,hfinish result rfl⟩

/-- What comes behind a frame: the gas it has left may be added. -/
def Returns (f : ZvmInterpreter) (result : ZvmResult) : Outcome → Prop
  | .next f' => f'.ctx = f.ctx ∧ f'.gas.toNat ≤ f.gas.toNat + result.gasRemaining.toNat ∧
      (f.memory.Bounded → f'.memory.Bounded)
  | .halt last f' => f'.ctx = f.ctx ∧ f'.gas.toNat ≤ f.gas.toNat + result.gasRemaining.toNat ∧
      ∃ status, last = f'.finish status
  | .enter _ _ => False
  | .panicked => True

omit hread in
/-- The return of a sub-frame makes no gas. -/
theorem within_resume (f : ZvmInterpreter) (sub : SubFrame) (result : ZvmResult) (child : ZvmInterpreter)
    (hf : f.ctx.isStatic = true → ∃ kind, sub.kind = .call kind) :
    (resume f sub result child).Within (A f.ctx) (Returns f result) := by
  refine within_outcome (within_resumeFrame hlive sub result child f hf) ?_
  rintro ⟨e | ⟨⟩,f₁⟩ ⟨hctx,hgas,hmemory⟩
  · cases e with
    | panicked => exact trivial
    | error e => exact ⟨hctx,hgas,_,rfl⟩
  · exact ⟨hctx,hgas,hmemory⟩

end Steps

section Runs
variable {P : Platform} {Z : Precompiles} {f : ZvmInterpreter}

/-- The end of a run of a frame: nothing is left over but gas that the frame had. -/
def Balanced (f : ZvmInterpreter) : RunEnd → Prop
  | .finished result _ => result.gasRemaining.toNat ≤ f.gas.toNat ∧
      result.gasUsed.toNat + result.gasRemaining.toNat = f.ctx.gasLimit.toNat
  | .panicked => True
  | .outOfFuel => False

theorem Balanced.mono {f' : ZvmInterpreter} {e : RunEnd} (h : Balanced f' e) (hctx : f'.ctx = f.ctx)
    (hgas : f'.gas.toNat ≤ f.gas.toNat) : Balanced f e := by
  cases e with
  | finished result g =>
    obtain ⟨hleft,hsum⟩ := h
    exact ⟨hleft.trans hgas,hctx ▸ hsum⟩
  | panicked => exact trivial
  | outOfFuel => exact h

theorem balanced_finish {f' : ZvmInterpreter} {g : ZvmInterpreter} (hctx : f'.ctx = f.ctx)
    (hgas : f'.gas.toNat ≤ f.gas.toNat) (hlimit : f.gas.toNat ≤ f.ctx.gasLimit.toNat) (status : ZvmStatus) :
    Balanced f (.finished (f'.finish status) g) := by
  refine ⟨hgas,?_⟩
  change (saturatingSub64 f'.ctx.gasLimit f'.gas).toNat + f'.gas.toNat = f.ctx.gasLimit.toNat
  rw [toNat_saturatingSub64, hctx]
  omega

theorem within_step_costs (f : ZvmInterpreter) : (step P Z f).Within (fun _ => True) (Costs f) :=
  within_step (A := fun _ _ => True) (fun _ _ _ => trivial) (fun _ _ _ => trivial) f fun _ _ _ _ => trivial

theorem within_run {fuel : ℕ} (hfuel : f.gas.toNat < fuel) (hlimit : f.gas.toNat ≤ f.ctx.gasLimit.toNat) :
    (run P Z fuel f).Within (fun _ => True) (Balanced f) := by
  induction fuel generalizing f with
  | zero => omega
  | succ fuel ih =>
    rw [run, Program.within_bind]
    refine (within_step_costs f).mono (fun _ hc => hc) ?_
    intro o hcosts
    cases o with
    | panicked => exact trivial
    | halt result f' =>
      obtain ⟨hspends,status,rfl⟩ := hcosts
      exact balanced_finish hspends.ctx hspends.gas hlimit status
    | next f' =>
      obtain ⟨hspends,hgas⟩ := hcosts
      have hctx := hspends.ctx
      exact (ih (by omega) (by rw [hctx]; omega)).mono (fun _ hc => hc) fun _ h => h.mono hctx hgas.le
    | enter f' sub =>
      obtain ⟨hspends,hstarts,hgas⟩ := hcosts
      have hctx := hspends.ctx
      dsimp only
      rw [Program.within_bind]
      refine (ih (f := sub.frame) (by omega) (by rw [hstarts.limit])).mono (fun _ hc => hc) ?_
      rintro (⟨result,child⟩ | _ | _) hend
      · have hback := hend.1
        dsimp only
        rw [Program.within_bind]
        refine (within_resume (A := fun _ _ => True) (fun _ _ _ => trivial) f' sub result child
          fun h => (hstarts.static (hctx ▸ h)).2).mono (fun _ hc => hc) ?_
        rintro (f'' | _ | ⟨last,f''⟩ | _) hresumed
        · obtain ⟨hctx',hgas',-⟩ := hresumed
          have hless : f''.gas.toNat < f.gas.toNat := by omega
          have hsame : f''.ctx = f.ctx := hctx'.trans hctx
          exact (ih (by omega) (by rw [hsame]; omega)).mono (fun _ hc => hc) fun _ h => h.mono hsame hless.le
        · exact hresumed.elim
        · obtain ⟨hctx',hgas',status,rfl⟩ := hresumed
          exact balanced_finish (hctx'.trans hctx) (by omega) hlimit status
        · exact trivial
      · exact trivial
      · exact hend

theorem run_eq {n m : ℕ} (hn : f.gas.toNat < n) (hm : f.gas.toNat < m) : run P Z n f = run P Z m f := by
  induction n generalizing f m with
  | zero => omega
  | succ n ih =>
    obtain ⟨m,rfl⟩ := Nat.exists_eq_succ_of_ne_zero (Nat.ne_zero_of_lt hm)
    apply Program.bind_congr_within
    apply (within_step_costs f).mono (fun _ hc => hc)
    rintro (f' | ⟨f',sub⟩ | ⟨result,f'⟩ | _) hcosts
    · obtain ⟨-,hgas⟩ := hcosts
      exact ih (by omega) (by omega)
    · obtain ⟨hspends,hstarts,hgas⟩ := hcosts
      have hctx := hspends.ctx
      dsimp only
      rw [ih (f := sub.frame) (m := m) (by omega) (by omega)]
      apply Program.bind_congr_within
      apply (within_run (by omega) (by rw [hstarts.limit])).mono (fun _ hc => hc)
      rintro (⟨result,child⟩ | _ | _) hend
      · have hback := hend.1
        apply Program.bind_congr_within
        apply (within_resume (A := fun _ _ => True) (fun _ _ _ => trivial) f' sub result child
          fun h => (hstarts.static (hctx ▸ h)).2).mono (fun _ hc => hc)
        rintro (f'' | _ | ⟨last,f''⟩ | _) hresumed
        · obtain ⟨-,hgas',-⟩ := hresumed
          exact ih (by omega) (by omega)
        · rfl
        · rfl
        · rfl
      · rfl
      · rfl
    · rfl
    · rfl

end Runs

end ZbxChain.Zvm
