import ZbxChain.Zvm.Gas

/-! # The rounds of a run, under any host

A run reaches the rounds of its frame and those of the frames it starts. It makes the calls
that these make, and panics if one of them does.
-/
namespace ZbxChain.Zvm

/-- A round of the loop, or what is left of a call or a creation when its frame is over. -/
inductive Round where
  | opcode (f : ZvmInterpreter)
  | back (f : ZvmInterpreter) (sub : SubFrame) (result : ZvmResult) (child : ZvmInterpreter)

section Whole
variable (P : Platform) (Z : Precompiles)

def Round.program : Round → Program ZvmCall.Reply Outcome
  | opcode f => step P Z f
  | back f sub result child => resume f sub result child

def whole (f : ZvmInterpreter) : Program ZvmCall.Reply RunEnd := run P Z (f.gas.toNat + 1) f

theorem runTop_eq (ctx : ZvmContext) : runTop P Z ctx = whole P Z (.new ctx) := rfl

/-- The run of a frame behind a frame that it started. -/
def goOn : Outcome → Program ZvmCall.Reply RunEnd
  | .next f => whole P Z f
  | .halt result f => pure (.finished result f)
  | .panicked | .enter _ _ => pure .panicked

def comeBack (f : ZvmInterpreter) (sub : SubFrame) : RunEnd → Program ZvmCall.Reply RunEnd
  | .finished result child => resume f sub result child >>= goOn P Z
  | .panicked => pure .panicked
  | .outOfFuel => pure .outOfFuel

def proceed : Outcome → Program ZvmCall.Reply RunEnd
  | .next f => whole P Z f
  | .halt result f => pure (.finished result f)
  | .panicked => pure .panicked
  | .enter f sub => whole P Z sub.frame >>= comeBack P Z f sub

variable {P Z} {f : ZvmInterpreter}

theorem within_whole (hlimit : f.gas.toNat ≤ f.ctx.gasLimit.toNat) :
    (whole P Z f).Within (fun _ => True) (Balanced f) := within_run (Nat.lt_succ_self _) hlimit

theorem within_back {f₁ : ZvmInterpreter} {sub : SubFrame} (hcosts : Costs f (.enter f₁ sub))
    (result : ZvmResult) (child : ZvmInterpreter) :
    (resume f₁ sub result child).Within (fun _ => True) (Returns f₁ result) := by
  obtain ⟨hspends,hstarts,-⟩ := hcosts
  exact within_resume (A := fun _ _ => True) (fun _ _ _ => trivial) f₁ sub result child
    fun h => (hstarts.static (hspends.ctx ▸ h)).2

theorem whole_eq (f : ZvmInterpreter) : whole P Z f = step P Z f >>= proceed P Z := by
  apply Program.bind_congr_within
  apply (within_step_costs f).mono (fun _ hc => hc)
  rintro (f' | ⟨f',sub⟩ | ⟨result,f'⟩ | _) hcosts
  · exact run_eq hcosts.2 (Nat.lt_succ_self _)
  · have hsub : run P Z f.gas.toNat sub.frame = whole P Z sub.frame :=
      run_eq (by have := hcosts.2.2; omega) (Nat.lt_succ_self _)
    dsimp only [proceed]
    rw [hsub]
    apply Program.bind_congr_within
    apply (within_whole (by rw [hcosts.2.1.limit])).mono (fun _ hc => hc)
    rintro (⟨result,child⟩ | _ | _) hend
    · apply Program.bind_congr_within
      apply (within_back hcosts result child).mono (fun _ hc => hc)
      rintro (f'' | _ | ⟨last,f''⟩ | _) hresumed
      · refine run_eq ?_ (Nat.lt_succ_self _)
        have hless := hcosts.2.2
        have hback := hend.1
        have hgas := hresumed.2.1
        omega
      · rfl
      · rfl
      · rfl
    · rfl
    · rfl
  · rfl
  · rfl

end Whole

section Reached
variable {σ : Type} (P : Platform) (Z : Precompiles) (h : Program.Handler ZvmCall.Reply σ)

inductive Reaches : ZvmInterpreter → σ → Round → σ → Prop
  | here (f : ZvmInterpreter) (s : σ) : Reaches f s (.opcode f) s
  | next {f f₁ : ZvmInterpreter} {r : Round} {s s₁ t : σ}
      (hstep : (step P Z f).run h s = (.next f₁,s₁))
      (hrest : Reaches f₁ s₁ r t) : Reaches f s r t
  | within {f f₁ : ZvmInterpreter} {sub : SubFrame} {r : Round} {s s₁ t : σ}
      (hstep : (step P Z f).run h s = (.enter f₁ sub,s₁))
      (hrest : Reaches sub.frame s₁ r t) : Reaches f s r t
  | back {f f₁ child : ZvmInterpreter} {sub : SubFrame} {result : ZvmResult} {s s₁ s₂ : σ}
      (hstep : (step P Z f).run h s = (.enter f₁ sub,s₁))
      (hsub : (whole P Z sub.frame).run h s₁ = (.finished result child,s₂)) :
      Reaches f s (.back f₁ sub result child) s₂
  | behind {f f₁ f₂ child : ZvmInterpreter} {sub : SubFrame} {result : ZvmResult} {r : Round}
      {s s₁ s₂ s₃ t : σ}
      (hstep : (step P Z f).run h s = (.enter f₁ sub,s₁))
      (hsub : (whole P Z sub.frame).run h s₁ = (.finished result child,s₂))
      (hresume : (resume f₁ sub result child).run h s₂ = (.next f₂,s₃))
      (hrest : Reaches f₂ s₃ r t) : Reaches f s r t

variable {P Z h} {f f₁ : ZvmInterpreter} {sub : SubFrame} {s s₁ : σ}

theorem costs_of_run {o : Outcome} (hstep : (step P Z f).run h s = (o,s₁)) : Costs f o := by
  have hcosts := (within_step_costs (P := P) (Z := Z) f).result h s
  rw [hstep] at hcosts
  exact hcosts

theorem balanced_of_run {e : RunEnd} (hlimit : f.gas.toNat ≤ f.ctx.gasLimit.toNat)
    (hrun : (whole P Z f).run h s = (e,s₁)) : Balanced f e := by
  have hend := (within_whole (P := P) (Z := Z) hlimit).result h s
  rw [hrun] at hend
  exact hend

theorem sub_balanced {e : RunEnd} {s₂ : σ} (hcosts : Costs f (.enter f₁ sub))
    (hsub : (whole P Z sub.frame).run h s₁ = (e,s₂)) : Balanced sub.frame e :=
  balanced_of_run (by rw [hcosts.2.1.limit]) hsub

/-- A call or a create, sub-frame and all, takes gas from its frame. -/
theorem behind_less {f₂ child : ZvmInterpreter} {result : ZvmResult} {s₂ s₃ : σ}
    (hcosts : Costs f (.enter f₁ sub))
    (hsub : (whole P Z sub.frame).run h s₁ = (.finished result child,s₂))
    (hresume : (resume f₁ sub result child).run h s₂ = (.next f₂,s₃)) :
    f₂.ctx = f.ctx ∧ f₂.gas.toNat < f.gas.toNat ∧ (f.memory.Bounded → f₂.memory.Bounded) := by
  have hresumed := (within_back hcosts result child).result h s₂
  rw [hresume] at hresumed
  have hback := (sub_balanced hcosts hsub).1
  have hless := hcosts.2.2
  have hgas := hresumed.2.1
  exact ⟨hresumed.1.trans hcosts.1.ctx,by omega,fun hm => hresumed.2.2 (hcosts.1.memory hm)⟩

theorem along_whole {allowed : ZvmCall → σ → Prop} (f : ZvmInterpreter) (s : σ) :
    (whole P Z f).Along h allowed s ↔
      ∀ r t, Reaches P Z h f s r t → (r.program P Z).Along h allowed t := by
  induction hgas : f.gas.toNat using Nat.strong_induction_on generalizing f s with
  | _ n ih =>
    rw [whole_eq, Program.along_bind]
    rcases hstep : (step P Z f).run h s with ⟨o,s₁⟩
    have hcosts := costs_of_run hstep
    constructor
    · rintro ⟨hfirst,hrest⟩ r t hreach
      cases hreach with
      | here => exact hfirst
      | next hstep' htail =>
        rw [hstep] at hstep'
        cases hstep'
        exact (ih _ (hgas ▸ hcosts.2) _ _ rfl).mp hrest r t htail
      | within hstep' htail =>
        rw [hstep] at hstep'
        cases hstep'
        refine (ih _ ?_ _ _ rfl).mp ((Program.along_bind _ _ _).mp hrest).1 r t htail
        have := hcosts.2.2
        omega
      | back hstep' hsub =>
        rw [hstep] at hstep'
        cases hstep'
        have htail := ((Program.along_bind _ _ _).mp hrest).2
        rw [hsub] at htail
        exact ((Program.along_bind _ _ _).mp htail).1
      | behind hstep' hsub hresume hlast =>
        rw [hstep] at hstep'
        cases hstep'
        have htail := ((Program.along_bind _ _ _).mp hrest).2
        rw [hsub] at htail
        have hend := ((Program.along_bind _ _ _).mp htail).2
        rw [hresume] at hend
        exact (ih _ (hgas ▸ (behind_less hcosts hsub hresume).2.1) _ _ rfl).mp hend r t hlast
    · intro hall
      refine ⟨hall _ _ (.here f s),?_⟩
      cases o with
      | halt result f' => exact trivial
      | panicked => exact trivial
      | next f' =>
        exact (ih _ (hgas ▸ hcosts.2) _ _ rfl).mpr fun r t hreach => hall r t (.next hstep hreach)
      | enter f' sub =>
        refine (Program.along_bind _ _ _).mpr ⟨(ih _ ?_ _ _ rfl).mpr
          fun r t hreach => hall r t (.within hstep hreach),?_⟩
        · have := hcosts.2.2
          omega
        rcases hsub : (whole P Z sub.frame).run h s₁ with ⟨e,s₂⟩
        cases e with
        | panicked => exact trivial
        | outOfFuel => exact trivial
        | finished result child =>
          refine (Program.along_bind _ _ _).mpr ⟨hall _ _ (.back hstep hsub),?_⟩
          rcases hresume : (resume f' sub result child).run h s₂ with ⟨o,s₃⟩
          cases o with
          | next f'' =>
            exact (ih _ (hgas ▸ (behind_less hcosts hsub hresume).2.1) _ _ rfl).mpr
              fun r t hreach => hall r t (.behind hstep hsub hresume hreach)
          | halt last f'' => exact trivial
          | panicked => exact trivial
          | enter f'' sub' => exact trivial

end Reached

section Gas
variable {σ : Type} {P : Platform} {Z : Precompiles} {h : Program.Handler ZvmCall.Reply σ}

/-- The gas of a frame before and after a round: only behind a frame that it started may it
be more, by what that frame has left of its own. -/
def Round.KeepsGas : Round → Outcome → Prop
  | .opcode f, .next f' => f'.gas.toNat < f.gas.toNat
  | .opcode f, .enter f' sub =>
    f'.gas.toNat + sub.frame.gas.toNat < f.gas.toNat ∧ sub.frame.ctx.gasLimit = sub.frame.gas
  | .opcode f, .halt _ f' => f'.gas.toNat ≤ f.gas.toNat
  | .back f sub result _, .next f' | .back f sub result _, .halt _ f' =>
    result.gasRemaining.toNat ≤ sub.frame.gas.toNat ∧ f'.gas.toNat ≤ f.gas.toNat + result.gasRemaining.toNat
  | .back _ _ _ _, .enter _ _ => False
  | .opcode _, .panicked | .back _ _ _ _, .panicked => True

theorem keepsGas_opcode (f : ZvmInterpreter) (s : σ) :
    (Round.opcode f).KeepsGas ((step P Z f).run h s).1 := by
  rcases hstep : (step P Z f).run h s with ⟨f' | ⟨f',sub⟩ | ⟨result,f'⟩ | _,s₁⟩
  all_goals have hcosts := costs_of_run hstep
  · exact hcosts.2
  · exact ⟨hcosts.2.2,hcosts.2.1.limit⟩
  · exact hcosts.1.gas
  · exact trivial

theorem Reaches.keepsGas {f : ZvmInterpreter} {s t : σ} {r : Round} (hreach : Reaches P Z h f s r t) :
    r.KeepsGas ((r.program P Z).run h t).1 := by
  induction hreach with
  | here f s => exact keepsGas_opcode f s
  | next _ _ ih => exact ih
  | within _ _ ih => exact ih
  | behind _ _ _ _ ih => exact ih
  | @back f f₁ child sub result s s₁ s₂ hstep hsub =>
    have hcosts := costs_of_run hstep
    have hback := (sub_balanced hcosts hsub).1
    have hresumed := (within_back hcosts result child).result h s₂
    rw [Round.program]
    generalize ((resume f₁ sub result child).run h s₂).1 = o at hresumed ⊢
    rcases o with f' | ⟨f',sub'⟩ | ⟨last,f'⟩ | _
    · exact ⟨hback,hresumed.2.1⟩
    · exact hresumed
    · exact ⟨hback,hresumed.2.1⟩
    · exact trivial

/-- A run under any host ends before its gas is out, each of its rounds keeps to the gas there
is, and what is used and what remains are the limit. -/
theorem run_ends_within_gas_limit (P : Platform) (Z : Precompiles) (h : Program.Handler ZvmCall.Reply σ)
    (ctx : ZvmContext) (s : σ) :
    (∀ fuel, ctx.gasLimit.toNat < fuel → run P Z fuel (.new ctx) = runTop P Z ctx) ∧
    ((runTop P Z ctx).run h s).1 ≠ .outOfFuel ∧
    (∀ result f, ((runTop P Z ctx).run h s).1 = .finished result f →
      result.gasUsed.toNat + result.gasRemaining.toNat = ctx.gasLimit.toNat) ∧
    ∀ r t, Reaches P Z h (.new ctx) s r t → r.KeepsGas ((r.program P Z).run h t).1 := by
  have hend := (within_whole (P := P) (Z := Z) (f := .new ctx) le_rfl).result h s
  rw [← runTop_eq] at hend
  refine ⟨fun fuel hfuel => run_eq hfuel (Nat.lt_succ_self _),?_,?_,fun r t hreach => hreach.keepsGas⟩
  · intro hout
    rw [hout] at hend
    exact hend
  · intro result f hfinished
    rw [hfinished] at hend
    exact hend.2

end Gas

end ZbxChain.Zvm
