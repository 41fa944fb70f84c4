import ZbxChain.Zvm.Effects

/-! # The frames of a transaction, and the money behind their values

A run visits the states of its frames one round after the other, those of the frames it
starts included. Whatever a frame starts with as its value should have been moved from its
caller to its contract by then.
-/
namespace ZbxChain.Zvm

section Runs
variable (P : Platform) (Z : Precompiles)

abbrev HostState := ProductionZvmHost × ExecView

inductive Visits : ZvmInterpreter → HostState → ZvmInterpreter → HostState → Prop
  | here (f : ZvmInterpreter) (s : HostState) : Visits f s f s
  | next {f f₁ g : ZvmInterpreter} {s s₁ t : HostState}
      (hstep : (step P Z f).run (hostHandler P) s = (.next f₁,s₁))
      (hrest : Visits f₁ s₁ g t) : Visits f s g t
  | within {f f₁ g : ZvmInterpreter} {sub : SubFrame} {s s₁ t : HostState}
      (hstep : (step P Z f).run (hostHandler P) s = (.enter f₁ sub,s₁))
      (hrest : Visits sub.frame s₁ g t) : Visits f s g t
  | behind {f f₁ f₂ child g : ZvmInterpreter} {sub : SubFrame} {result : ZvmResult} {fuel : ℕ}
      {s s₁ s₂ s₃ t : HostState}
      (hstep : (step P Z f).run (hostHandler P) s = (.enter f₁ sub,s₁))
      (hsub : (run P Z fuel sub.frame).run (hostHandler P) s₁ = (.finished result child,s₂))
      (hresume : (resume f₁ sub result child).run (hostHandler P) s₂ = (.next f₂,s₃))
      (hrest : Visits f₂ s₃ g t) : Visits f s g t

/-- A frame when it starts: what started it (`none` is the transaction itself), the view
before that and the view of its first instruction, and what was charged for gas between. -/
structure FrameStart where
  origin : Option FrameKind
  before : ExecView
  first : ExecView
  frame : ZvmInterpreter
  prepaid : ℕ

inductive Started (tx : SignedTransaction) (header : BlockHeader) (view : ExecView) : FrameStart → Prop
  | top {charge : Charge} {charged called : ExecView} {target : Target}
      (hcharge : (debitSender tx header).runOn view = (.ok charge,charged))
      (htarget : (resolveTarget P tx).run ExecView.answer charged = (target,called))
      (hzvm : ReachesZvm tx target) :
      Started tx header view
        ⟨none,view,called,.new (zvmContext tx header charge.intrinsic target),charge.maxCost⟩
  | sub {charge : Charge} {charged called before first : ExecView} {target : Target}
      {host host' : ProductionZvmHost} {g f : ZvmInterpreter} {sub : SubFrame}
      (hcharge : (debitSender tx header).runOn view = (.ok charge,charged))
      (htarget : (resolveTarget P tx).run ExecView.answer charged = (target,called))
      (hzvm : ReachesZvm tx target)
      (hvisits : Visits P Z (.new (zvmContext tx header charge.intrinsic target))
        (startHost header target,called) g (host,before))
      (hstep : (step P Z g).run (hostHandler P) (host,before) = (.enter f sub,(host',first))) :
      Started tx header view ⟨some sub.kind,before,first,sub.frame,0⟩

/-- The value was taken from the caller, besides what was charged for gas, and given to the
contract. -/
def FrameStart.Backed (start : FrameStart) : Prop :=
  ∀ a, start.first.wei a + (if a = start.frame.ctx.caller then start.frame.ctx.value + start.prepaid else 0) =
    start.before.wei a + if a = start.frame.ctx.contract then start.frame.ctx.value else 0

/-- A frame with a value that is not its parent's. -/
def FrameStart.Announces (start : FrameStart) : Prop :=
  start.origin ≠ some (.call .delegateCall) ∧ 0 < start.frame.ctx.value

def FrameStart.Fits (start : FrameStart) : Prop :=
  start.before.wei start.frame.ctx.caller ≤ maxU128 ∧
    (start.frame.ctx.caller ≠ start.frame.ctx.contract →
      start.before.wei start.frame.ctx.contract + start.frame.ctx.value ≤ maxU128)

/-- The one debit that gives the value back: of a contract that calls itself, from a balance
beyond 128 bits and wrapping. -/
def FrameStart.WrapsBack (start : FrameStart) : Prop :=
  start.frame.ctx.caller = start.frame.ctx.contract ∧ 2 ^ 128 ≤ start.prepaid + start.frame.ctx.value ∧
    start.before.wei start.frame.ctx.caller + start.frame.ctx.value = 2 ^ 129 - 1

/-- What moves the value: a transaction does not before its frame runs, nor does `CALLCODE`,
unless a contract calls itself. -/
def FrameStart.Moves (start : FrameStart) : Prop :=
  match start.origin with
  | none => start.WrapsBack
  | some (.call .callCode) => start.frame.ctx.caller = start.frame.ctx.contract
  | _ => start.Fits

end Runs

section Steps
variable {P : Platform} {Z : Precompiles} {f f' g : ZvmInterpreter} {s s' : HostState} {sub : SubFrame}

theorem run_outcome {α : Type} (p : FrameM α) (k : α → ZvmInterpreter → Outcome) (f : ZvmInterpreter)
    (s : HostState) : (p.outcome k f).run (hostHandler P) s =
      (conclude k (p.exec (hostHandler P) f s).1,(p.exec (hostHandler P) f s).2) :=
  Program.run_bind (p f) (fun r => .done (conclude k r)) s

def goesOn : Outcome → Bool
  | .next _ | .enter _ _ => true
  | .halt _ _ | .panicked => false

theorem conclude_ok {α : Type} {k : α → ZvmInterpreter → Outcome} {r : Except ZvmFault α × ZvmInterpreter}
    {o : Outcome} (hon : goesOn o = true) (h : conclude k r = o) :
    ∃ a f₁, r = (.ok a,f₁) ∧ k a f₁ = o := by
  rcases r with ⟨e | a,f₁⟩
  · cases e with
    | error e =>
      rw [← h] at hon
      cases hon
    | panicked =>
      rw [← h] at hon
      cases hon
  · exact ⟨a,f₁,rfl,h⟩

theorem step_enter (h : (step P Z g).run (hostHandler P) s = (.enter f sub,s')) :
    ∃ kind gas, (startFrame P Z kind).exec (hostHandler P) { g with gas := gas } s = ((.ok (some sub),f),s') := by
  unfold step at h
  split at h
  · cases h
  · split at h
    · cases h
    · rename_i op _
      rw [Program.run_ite] at h
      split at h
      · cases h
      · unfold execute at h
        split at h
        · rename_i kind _
          rw [run_outcome, Prod.mk.injEq] at h
          obtain ⟨a,f₁,hexec,houtcome⟩ := conclude_ok rfl h.1
          cases a with
          | none => cases houtcome
          | some sub₁ =>
            cases houtcome
            exact ⟨kind,g.gas - op.gas,Prod.ext hexec h.2⟩
        · rw [run_outcome, Prod.mk.injEq] at h
          obtain ⟨a,f₁,-,houtcome⟩ := conclude_ok rfl h.1
          cases a with
          | none => cases houtcome
          | some result => cases houtcome

variable {host : ProductionZvmHost} {view : ExecView}

/-- What starts a frame after moving its value. -/
def transfers : FrameKind → Bool
  | .call .call | .create _ => true
  | _ => false

theorem startFrame_funds {kind : FrameKind}
    (h : (startFrame P Z kind).exec (hostHandler P) g (host,view) = ((.ok (some sub),f),s')) :
    sub.kind = kind ∧ (kind = .call .staticCall → sub.frame.ctx.value = 0) ∧
      (transfers kind = true → sub.frame.ctx.value ≤ min (view.wei sub.frame.ctx.caller) maxU128) ∧
      s'.2.wei = if transfers kind then
        (sent view sub.frame.ctx.caller sub.frame.ctx.contract sub.frame.ctx.value).wei else view.wei := by
  obtain ⟨f₁,hbegin,-⟩ := startFrame_ok h
  cases kind with
  | call kind =>
    obtain ⟨args,f₂,hpop,hrest⟩ := beginCall_ok hbegin
    rcases hrest with ⟨hnone,-⟩ | ⟨hstarts,hs,calldata,forwarded,hsub⟩
    · cases hnone
    · cases hsub
      subst hs
      cases kind with
      | call => exact ⟨rfl,by rintro ⟨⟩,fun _ => hstarts.2.2.2 rfl,rfl⟩
      | callCode => exact ⟨rfl,by rintro ⟨⟩,by rintro ⟨⟩,rfl⟩
      | delegateCall => exact ⟨rfl,by rintro ⟨⟩,by rintro ⟨⟩,rfl⟩
      | staticCall => exact ⟨rfl,fun _ => popCall_value hpop rfl,by rintro ⟨⟩,rfl⟩
  | create withSalt =>
    obtain ⟨args,f₂,hpop,hrest⟩ := beginCreate_ok hbegin
    rcases hrest with ⟨hnone,-⟩ | ⟨hstarts,initcode,forwarded,-,hs,hsub⟩
    · cases hnone
    · cases hsub
      subst hs
      exact ⟨rfl,by rintro ⟨⟩,fun _ => hstarts.2.2.1,wei_createPaid⟩

theorem run_more {n m : ℕ} {result : ZvmResult} {t : HostState} (hle : n ≤ m)
    (h : (run P Z n f).run (hostHandler P) s = (.finished result g,t)) :
    (run P Z m f).run (hostHandler P) s = (.finished result g,t) := by
  induction n generalizing m f s result g t with
  | zero => cases h
  | succ n ih =>
    obtain ⟨m,rfl⟩ : ∃ k, m = k + 1 := ⟨m - 1,by omega⟩
    have hless : n ≤ m := by omega
    rw [run, Program.run_bind] at h ⊢
    rcases hstep : (step P Z f).run (hostHandler P) s with ⟨o,s₁⟩
    rw [hstep] at h
    cases o with
    | next f₁ => exact ih hless h
    | halt result₁ f₁ => exact h
    | panicked => exact h
    | enter f₁ sub =>
      dsimp only at h ⊢
      rw [Program.run_bind] at h ⊢
      rcases hsub : (run P Z n sub.frame).run (hostHandler P) s₁ with ⟨⟨subResult,child⟩ | _ | _,s₂⟩
      · rw [hsub] at h
        rw [ih hless hsub]
        dsimp only at h ⊢
        rw [Program.run_bind] at h ⊢
        rcases hresume : (resume f₁ sub subResult child).run (hostHandler P) s₂ with ⟨o₂,s₃⟩
        rw [hresume] at h
        cases o₂ with
        | next f₂ => exact ih hless h
        | halt result₂ f₂ => exact h
        | panicked => exact h
        | enter f₂ sub₂ => exact h
      · rw [hsub] at h
        cases h
      · rw [hsub] at h
        cases h

end Steps

section Money
variable {wei : Address → ℕ} {payer payee : Address} {value : ℕ}

/-- A transfer moves its amount exactly if the balances fit 128 bits. -/
theorem moved_exact_iff (hpos : 0 < value) (henough : value ≤ min (wei payer) maxU128) :
    (∀ a, moved wei payer payee value a + (if a = payer then value else 0) =
        wei a + if a = payee then value else 0) ↔
      wei payer ≤ maxU128 ∧ (payer ≠ payee → wei payee + value ≤ maxU128) := by
  unfold moved saturatingAdd128
  constructor
  · intro hexact
    have hpayer := hexact payer
    have hpayee := hexact payee
    by_cases hself : payer = payee
    · subst hself
      simp only [Function.update_self, if_true] at hpayer
      exact ⟨by omega,fun hne => absurd rfl hne⟩
    · simp only [Function.update_self, Function.update_of_ne hself, Function.update_of_ne (Ne.symm hself),
        if_true, if_neg hself, if_neg (Ne.symm hself)] at hpayer hpayee
      exact ⟨by omega,fun _ => by omega⟩
  · rintro ⟨hpayer,hpayee⟩ a
    by_cases hself : payer = payee
    · subst hself
      by_cases ha : a = payer
      · subst ha
        simp only [Function.update_self, if_true]
        omega
      · simp only [Function.update_of_ne ha, if_neg ha]
    · have hroom := hpayee hself
      by_cases hdest : a = payee
      · subst hdest
        simp only [Function.update_self, Function.update_of_ne (Ne.symm hself), if_true,
          if_neg (Ne.symm hself)]
        omega
      · by_cases hsource : a = payer
        · subst hsource
          simp only [Function.update_self, Function.update_of_ne hself, if_true, if_neg hself]
          omega
        · simp only [Function.update_of_ne hdest, Function.update_of_ne hsource, if_neg hdest, if_neg hsource]

theorem unmoved_exact_iff (hpos : 0 < value) :
    (∀ a, wei a + (if a = payer then value else 0) = wei a + if a = payee then value else 0) ↔
      payer = payee := by
  constructor
  · intro hexact
    have hpayer := hexact payer
    by_contra hne
    rw [if_pos rfl, if_neg hne] at hpayer
    omega
  · rintro rfl a
    rfl

/-- The value of a transaction is taken from its sender, and given to no one yet. -/
theorem top_exact_iff {P : Platform} {tx : SignedTransaction} {header : BlockHeader}
    {view charged called : ExecView} {charge : Charge} {target : Target}
    (hcharge : (debitSender tx header).runOn view = (.ok charge,charged))
    (htarget : (resolveTarget P tx).run ExecView.answer charged = (target,called))
    (hpos : 0 < tx.tx.valueU128) :
    (∀ a, called.wei a + (if a = tx.sender then tx.tx.valueU128 + charge.maxCost else 0) =
        view.wei a + if a = target.callee then tx.tx.valueU128 else 0) ↔
      tx.sender = target.callee ∧ 2 ^ 128 ≤ charge.maxCost + tx.tx.valueU128 ∧
        view.wei tx.sender + tx.tx.valueU128 = 2 ^ 129 - 1 := by
  have hcalled := wei_resolveTarget P tx charged
  rw [htarget] at hcalled
  dsimp only at hcalled
  obtain ⟨hcharged,haffordable,nonce,rfl⟩ := debitSender_ok hcharge
  have hwei := fun a => (congrFun hcalled a).trans (wei_setAccount view tx.sender _ a)
  have hset := toNat_debit (view.getAccount tx.sender) ((charge.maxCost + charge.value) % 2 ^ 128)
  have hvalue : tx.tx.valueU128 < 2 ^ 128 := Nat.mod_lt _ (by decide)
  have hcost : charge.maxCost < 2 ^ 64 * 2 ^ 64 := by
    rw [hcharged]
    exact Nat.mul_lt_mul'' tx.tx.maxFeePerGas.toNat_lt tx.tx.gasLimit.toNat_lt
  have hsame : charge.value = tx.tx.valueU128 := by rw [hcharged]
  have hbalance : (view.getAccount tx.sender).balanceU128 = min (view.wei tx.sender) maxU128 := rfl
  have hsender : called.wei tx.sender = (view.getAccount tx.sender).balanceU128 -
      (charge.maxCost + charge.value) % 2 ^ 128 := by
    rw [hwei, if_pos rfl]
    exact hset
  unfold saturatingAdd128 at haffordable
  unfold maxU128 at haffordable hbalance
  constructor
  · intro hexact
    by_cases hself : target.callee = tx.sender
    · have hpayer := hexact tx.sender
      rw [if_pos rfl, if_pos hself.symm] at hpayer
      refine ⟨hself.symm,?_⟩
      omega
    · have hcallee := hexact target.callee
      rw [hwei, if_neg hself, if_neg hself, if_pos rfl] at hcallee
      omega
  · rintro ⟨hself,hwraps,hback⟩ a
    by_cases ha : a = tx.sender
    · rw [ha, if_pos rfl, if_pos hself]
      omega
    · rw [hwei, if_neg ha, if_neg ha, if_neg (hself ▸ ha)]

end Money

section Backing
variable (P : Platform) (Z : Precompiles) (tx : SignedTransaction) (header : BlockHeader) (view : ExecView)

theorem Started.backed_iff {P : Platform} {Z : Precompiles} {tx : SignedTransaction} {header : BlockHeader}
    {view : ExecView} {start : FrameStart} (h : Started P Z tx header view start)
    (hannounces : start.Announces) : start.Backed ↔ start.Moves := by
  obtain ⟨hkind,hpos⟩ := hannounces
  cases h with
  | top hcharge htarget hzvm => exact top_exact_iff hcharge htarget hpos
  | @sub charge charged called before first target host host' g f sub hcharge htarget hzvm hvisits hstep =>
    obtain ⟨kind,gas,hstart⟩ := step_enter hstep
    obtain ⟨hsub,hstatic,henough,hwei⟩ := startFrame_funds hstart
    unfold FrameStart.Backed FrameStart.Moves
    dsimp only at hkind hpos hwei ⊢
    rw [hsub] at hkind ⊢
    rw [hwei]
    simp only [Nat.add_zero]
    have hpaid : ∀ htransfers : transfers kind = true,
        (∀ a, (if transfers kind = true then (sent before sub.frame.ctx.caller sub.frame.ctx.contract
          sub.frame.ctx.value).wei else before.wei) a +
            (if a = sub.frame.ctx.caller then sub.frame.ctx.value else 0) =
          before.wei a + if a = sub.frame.ctx.contract then sub.frame.ctx.value else 0) ↔
        before.wei sub.frame.ctx.caller ≤ maxU128 ∧ (sub.frame.ctx.caller ≠ sub.frame.ctx.contract →
          before.wei sub.frame.ctx.contract + sub.frame.ctx.value ≤ maxU128) := by
      intro htransfers
      rw [if_pos htransfers, wei_sent, if_pos hpos]
      exact moved_exact_iff hpos (henough htransfers)
    cases kind with
    | call kind =>
      cases kind with
      | call => exact hpaid rfl
      | callCode => exact unmoved_exact_iff hpos
      | delegateCall => exact absurd rfl hkind
      | staticCall => exact absurd (hstatic rfl) (Nat.ne_of_gt hpos)
    | create withSalt => exact hpaid rfl

/-- Every frame that announces a value has it behind it exactly if every such frame was
started by what moves the value before. -/
theorem callvalue_backed_iff :
    (∀ start, Started P Z tx header view start → start.Announces → start.Backed) ↔
      ∀ start, Started P Z tx header view start → start.Announces → start.Moves :=
  forall_congr' fun _ => forall_congr' fun h => forall_congr' fun hannounces => h.backed_iff hannounces

def depositView : ExecView :=
  (richView.seedAccount 32 { AccountState.fresh with codeHash := 6, vm := .zvm }).seedCode 6 [0x00]

def depositTx : SignedTransaction :=
  { tx := { legacyTransfer 3 [] with
      gasLimit := 100000
      recipient := some 32 }
    sig := ⟨0,5,6⟩
    sender := 1
    hash := 77 }

/-- A contract that is called with a value does not have it when its first instruction runs. -/
theorem callvalue_unbacked : ¬ ∀ (P : Platform) (Z : Precompiles) (tx : SignedTransaction)
    (header : BlockHeader) (view : ExecView) (start : FrameStart),
    Started P Z tx header view start → start.Announces → start.Backed := by
  intro hclaim
  have hpays : ((debitSender depositTx (plainBlock 1 0).header).runOn depositView).1.isOk = true := by
    decide +kernel
  have hcalls : ReachesZvm depositTx ((resolveTarget .integers depositTx).run ExecView.answer
      ((debitSender depositTx (plainBlock 1 0).header).runOn depositView).2).1 ∧
      ((resolveTarget .integers depositTx).run ExecView.answer
        ((debitSender depositTx (plainBlock 1 0).header).runOn depositView).2).1.callee = 32 := by
    decide +kernel
  rcases hcharge : (debitSender depositTx (plainBlock 1 0).header).runOn depositView with ⟨e | charge,charged⟩
  · rw [hcharge] at hpays
    cases hpays
  · rw [hcharge] at hcalls
    rcases htarget : (resolveTarget .integers depositTx).run ExecView.answer charged with ⟨target,called⟩
    rw [htarget] at hcalls
    have hstarted := Started.top (Z := noPrecompiles) hcharge htarget hcalls.1
    have hbacked := (top_exact_iff hcharge htarget (by decide)).mp
      (hclaim _ _ _ _ _ _ hstarted
        ⟨(Option.some_ne_none _).symm,(by decide : 0 < depositTx.tx.valueU128)⟩)
    rw [hcalls.2] at hbacked
    exact absurd hbacked.1 (by decide)

end Backing

end ZbxChain.Zvm
