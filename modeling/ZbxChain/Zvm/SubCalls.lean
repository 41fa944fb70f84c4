import ZbxChain.Zvm.Frames
import ZbxChain.Zvm.Rounds

/-! # What a failed sub-call leaves behind

Neither dispatcher has a snapshot to go back to. A call leaves what it moved and what its
frame did, however that frame ended; a creation whose frame has started leaves at least the
nonce of the new account.
-/
namespace ZbxChain.Zvm

section Traces
variable (P : Platform) (Z : Precompiles)

/-- The opcode is executed: it stops before a frame, or its frame runs and the opcode goes on
behind it. -/
inductive Completes (kind : FrameKind) (g : ZvmInterpreter) (s : HostState) (g' : ZvmInterpreter)
    (s' : HostState) : Prop
  | stops (hstart : (startFrame P Z kind).exec (hostHandler P) g s = ((.ok none,g'),s'))
  | returns {f child : ZvmInterpreter} {sub : SubFrame} {result : ZvmResult} {fuel : ℕ}
      {s₁ s₂ : HostState}
      (hstart : (startFrame P Z kind).exec (hostHandler P) g s = ((.ok (some sub),f),s₁))
      (hrun : (run P Z fuel sub.frame).run (hostHandler P) s₁ = (.finished result child,s₂))
      (hresume : (resumeFrame sub result child).exec (hostHandler P) f s₂ = ((.ok (),g'),s'))

def Fails (kind : FrameKind) (g : ZvmInterpreter) (s : HostState) (g' : ZvmInterpreter)
    (s' : HostState) : Prop :=
  Completes P Z kind g s g' s' ∧ g'.stack.inner.head? = some 0

/-- Nothing of the state has changed but the nonce of one account at most. -/
structure Untouched (exempt : Option Address) (s s' : HostState) : Prop where
  balances : ∀ a, s'.2.wei a = s.2.wei a
  storage : ∀ a key, s'.2.state.getStorage a key = s.2.state.getStorage a key
  transient : ∀ a key, (s'.1.transient.lookup (a,key)).getD 0 = (s.1.transient.lookup (a,key)).getD 0
  code : ∀ a, s'.2.getCode a = s.2.getCode a
  nonces : ∀ a, exempt ≠ some a → (s'.2.getAccount a).nonce = (s.2.getAccount a).nonce
  logs : s'.2.logs = s.2.logs
  destructs : s'.1.pendingDestructs = s.1.pendingDestructs
  created : ∀ a, a ∈ s'.1.createdThisTx ↔ a ∈ s.1.createdThisTx

/-- The account whose nonce may change. -/
def FrameKind.exempt (kind : FrameKind) (g : ZvmInterpreter) : Option Address :=
  match kind with
  | .call _ => none
  | .create _ => some g.ctx.contract

/-- The opcode starts its frame. -/
def Starts (kind : FrameKind) (g : ZvmInterpreter) (s : HostState) : Prop :=
  match kind with
  | .call kind => ∃ args f₁, popCall kind g = (.ok args,f₁) ∧ CallStarts s.1 s.2 kind g args
  | .create withSalt => ∃ args f₁, popCreate withSalt g = (.ok args,f₁) ∧ CreateStarts P s.2 g args

/-- A call that moves no value, and whose frame makes no call on the host that changes what is
there. -/
def IdleCall (kind : FrameKind) (g : ZvmInterpreter) (s : HostState) : Prop :=
  match kind with
  | .call kind => ∃ args f₁, popCall kind g = (.ok args,f₁) ∧ (kind = .call → args.value = 0) ∧
      ∀ f sub s₁, (startFrame P Z (.call kind)).exec (hostHandler P) g s = ((.ok (some sub),f),s₁) →
        (whole P Z sub.frame).Along (hostHandler P) (fun c t => ¬ Alters c t) s₁
  | .create _ => False

end Traces

section Nonces
variable {P : Platform} {Z : Precompiles} {view : ExecView} {addr a : Address} {state : AccountState}

theorem nonce_setAccount (view : ExecView) (addr a : Address) (state : AccountState) :
    (view.getAccount a).nonce ≤ ((view.setAccount addr state).getAccount a).nonce := by
  rw [getAccount_setAccount]
  split
  · rename_i heq
    subst heq
    split
    · rename_i hdeleted
      have hfresh : view.getAccount a = .fresh := by
        unfold ExecView.getAccount StateView.getAccount
        rw [if_pos hdeleted]
      rw [hfresh]
      exact UInt64.zero_le
    · unfold guarded
      split
      · exact UInt64.le_refl _
      · rename_i hnonce
        split_ifs
        all_goals exact UInt64.not_lt.mp hnonce
  · exact UInt64.le_refl _

theorem pos_nonceBumped (nonce : UInt64) : 0 < saturatingAdd64 nonce 1 := by
  rw [UInt64.lt_iff_toNat_lt]
  have hone : (1 : UInt64).toNat = 1 := rfl
  have hlt := nonce.toNat_lt
  have hvalue : (saturatingAdd64 nonce 1).toNat = min (nonce.toNat + 1) (2 ^ 64 - 1) := by
    unfold saturatingAdd64
    rw [hone, UInt64.toNat_ofNat']
    omega
  rw [hvalue]
  change 0 < _
  omega

theorem le_nonceBumped (nonce : UInt64) : nonce ≤ saturatingAdd64 nonce 1 := by
  rw [UInt64.le_iff_toNat_le]
  have hone : (1 : UInt64).toNat = 1 := rfl
  have hlt := nonce.toNat_lt
  unfold saturatingAdd64
  rw [hone, UInt64.toNat_ofNat']
  omega

theorem getAccount_nonceBumped (view : ExecView) (addr a : Address) :
    (nonceBumped view addr).getAccount a = if a = addr then
      { view.getAccount addr with nonce := saturatingAdd64 (view.getAccount addr).nonce 1 }
      else view.getAccount a := by
  unfold nonceBumped
  rw [getAccount_setAccount]
  split
  · split
    · rfl
    · unfold guarded
      rw [if_neg (UInt64.not_lt.mpr (le_nonceBumped _))]
      simp only [if_true]
      split
      · rfl
      · rfl
  · rfl

theorem untouched_nonceBumped (host : ProductionZvmHost) (view : ExecView) (addr : Address) :
    Untouched (some addr) (host,view) (host,nonceBumped view addr) where
  balances a := congrFun wei_nonceBumped a
  storage a key := by
    have hstorage := (view.state.setAccount_eq addr { view.getAccount addr with
      nonce := saturatingAdd64 (view.getAccount addr).nonce 1 }).2.1
    unfold nonceBumped ExecView.setAccount StateView.getStorage
    dsimp only
    rw [hstorage]
  transient a key := rfl
  code a := by
    have hcode : ((nonceBumped view addr).getAccount a).codeHash = (view.getAccount a).codeHash := by
      rw [getAccount_nonceBumped]
      split
      · rename_i heq
        rw [heq]
      · rfl
    unfold ExecView.getCode AccountState.isContract AccountState.isEoa
    dsimp only
    rw [hcode]
    rfl
  nonces a ha := by
    dsimp only
    rw [getAccount_nonceBumped, if_neg fun heq => ha (congrArg some heq.symm)]
  logs := rfl
  destructs := rfl
  created a := Iff.rfl

theorem untouched_refl (exempt : Option Address) (s : HostState) : Untouched exempt s s :=
  ⟨fun _ => rfl,fun _ _ => rfl,fun _ _ => rfl,fun _ => rfl,fun _ _ => rfl,rfl,rfl,fun _ => Iff.rfl⟩

/-- The calls of a run leave a positive nonce positive. -/
theorem nonce_hostHandler (c : ZvmCall) (s : HostState) (a : Address) :
    (s.2.getAccount a).nonce ≤ ((hostHandler P c s).2.2.getAccount a).nonce := by
  obtain ⟨host,view⟩ := s
  have htransfer : ∀ source dest amount, (view.getAccount a).nonce ≤
      (((ProductionZvmHost.transfer source dest amount).run ExecView.answer view).2.getAccount a).nonce := by
    intro source dest amount
    rw [run_transfer]
    split
    · exact UInt64.le_refl _
    · exact UInt64.le_trans (nonce_setAccount _ _ _ _) (nonce_setAccount _ _ _ _)
  cases c with
  | transfer source dest amount =>
    simp only [hostHandler, Program.stacked, ProductionZvmHost.answer, run_reading]
    exact htransfer source dest amount
  | incNonce addr => exact nonce_setAccount _ _ _ _
  | setCode addr code =>
    have hseeded : (view.getAccount a).nonce =
        ((view.seedCode (P.keccak256 code) code).getAccount a).nonce := rfl
    rw [hseeded]
    exact nonce_setAccount _ _ _ _
  | burnZbx addr amount =>
    simp only [hostHandler, Program.stacked, ProductionZvmHost.answer, run_reading]
    unfold ProductionZvmHost.burnZbx
    rw [Program.run_bind, run_getAccount, Program.run_ite]
    split
    · exact UInt64.le_refl _
    · exact nonce_setAccount _ _ _ _
  | selfdestruct contract beneficiary =>
    simp only [hostHandler, Program.stacked, ProductionZvmHost.answer, Program.run_bind,
      ProductionZvmHost.sweep, ProductionZvmHost.balance, run_getAccount, Program.run_pure, Program.run_ite]
    split
    · exact htransfer _ _ _
    · exact UInt64.le_refl _
  | isEmpty addr =>
    simp only [hostHandler, Program.stacked, ProductionZvmHost.answer, run_reading,
      ProductionZvmHost.isEmpty, ProductionZvmHost.balance, Program.run_bind, run_getAccount,
      Program.run_pure, Program.run_ite]
    split
    · exact UInt64.le_refl _
    · split
      · exact UInt64.le_refl _
      · exact UInt64.le_refl _
  | resolvePayId name | resolvePayIdBytes name =>
    simp only [hostHandler, Program.stacked, ProductionZvmHost.answer, run_reading,
      ProductionZvmHost.resolvePayIdBytes, Program.run_ite]
    split
    · exact UInt64.le_refl _
    · exact UInt64.le_refl _
  | _ => exact UInt64.le_refl _

theorem run_nonce {α : Type} (p : Program ZvmCall.Reply α) (s : HostState) (a : Address)
    (h : 0 < (s.2.getAccount a).nonce) : 0 < ((p.run (hostHandler P) s).2.2.getAccount a).nonce := by
  apply Program.run_keeps (I := fun s => 0 < (s.2.getAccount a).nonce) _ p s h
  intro c s hs
  exact UInt64.lt_of_lt_of_le hs (nonce_hostHandler c s a)

end Nonces

section Ends
variable {P : Platform} {Z : Precompiles} {kind : FrameKind} {f f' g g' child : ZvmInterpreter}
variable {sub : SubFrame} {result : ZvmResult} {host : ProductionZvmHost} {view : ExecView} {s s' : HostState}

theorem resumeFrame_call {kind : ZvmCallKind} (hkind : sub.kind = .call kind)
    (h : (resumeFrame sub result child).exec (hostHandler P) f s = ((.ok (),f'),s')) : s' = s := by
  unfold resumeFrame resumeOpcode at h
  rw [hkind] at h
  simp only [exec_lift_bind_ok, exec_lift, Prod.mk.injEq] at h
  obtain ⟨-,f₁,-,-,f₂,-,-,hs⟩ := h
  exact hs.symm

theorem untouched_of_stops
    (h : (startFrame P Z kind).exec (hostHandler P) g (host,view) = ((.ok none,g'),s')) :
    Untouched (kind.exempt g) (host,view) s' ∧ ¬ Starts P kind g (host,view) := by
  obtain ⟨f₁,hbegin,-⟩ := startFrame_ok h
  cases kind with
  | call kind =>
    obtain ⟨args,f₂,hpop,⟨-,hstopped,hs⟩ | ⟨-,-,calldata,forwarded,hsub⟩⟩ := beginCall_ok hbegin
    · subst hs
      refine ⟨untouched_refl none _,?_⟩
      rintro ⟨args',f₃,hpop',hstarts⟩
      cases hpop.symm.trans hpop'
      exact hstopped hstarts
    · cases hsub
  | create withSalt =>
    obtain ⟨args,f₂,hpop,⟨-,hstopped,hs⟩ | ⟨-,initcode,forwarded,-,-,hsub⟩⟩ := beginCreate_ok hbegin
    · refine ⟨?_,?_⟩
      · rcases hs with hs | hs
        · rw [hs]
          exact untouched_refl _ _
        · rw [hs]
          exact untouched_nonceBumped host view _
      · rintro ⟨args',f₃,hpop',hstarts⟩
        cases hpop.symm.trans hpop'
        exact hstopped hstarts
    · cases hsub

/-- A creation whose frame has started leaves the nonce of the new account. -/
theorem create_leaves_nonce {withSalt : Bool} {s₁ s₂ : HostState} {fuel : ℕ}
    (hstart : (startFrame P Z (.create withSalt)).exec (hostHandler P) g (host,view) =
      ((.ok (some sub),f),s₁))
    (hrun : (run P Z fuel sub.frame).run (hostHandler P) s₁ = (.finished result child,s₂))
    (hresume : (resumeFrame sub result child).exec (hostHandler P) f s₂ = ((.ok (),g'),s')) :
    ¬ Untouched (some g.ctx.contract) (host,view) s' := by
  obtain ⟨f₁,hbegin,-⟩ := startFrame_ok hstart
  obtain ⟨args,f₂,-,⟨hnone,-⟩ | ⟨hstarts,initcode,forwarded,hinit,hs,-⟩⟩ := beginCreate_ok hbegin
  · cases hnone
  · subst hs
    obtain ⟨-,hfree⟩ := hstarts.2.2.2 initcode hinit
    generalize creationAddress P view g args initcode = newAddr at hfree hrun
    rw [getAccount_nonceBumped] at hfree
    split at hfree
    · -- the creator's nonce has just been bumped
      exact absurd hfree (UInt64.pos_iff_ne_zero.mp (pos_nonceBumped _))
    · rename_i hother
      intro huntouched
      have hsame := huntouched.nonces newAddr fun heq => hother (Option.some.inj heq).symm
      have hfirst : 0 < ((createPaid view g.ctx.contract newAddr args.value).getAccount newAddr).nonce := by
        unfold createPaid
        rw [getAccount_nonceBumped, if_pos rfl]
        exact pos_nonceBumped _
      have hafter := run_nonce (P := P) (run P Z fuel sub.frame)
        (host,createPaid view g.ctx.contract newAddr args.value) newAddr hfirst
      rw [hrun] at hafter
      have hlast := run_nonce (P := P) ((resumeFrame sub result child) f) s₂ newAddr hafter
      change 0 < ((((resumeFrame sub result child).exec (hostHandler P) f s₂).2).2.getAccount newAddr).nonce
        at hlast
      rw [hresume] at hlast
      dsimp only at hlast hsame
      rw [hsame, hfree] at hlast
      exact absurd hlast (UInt64.lt_irrefl 0)

end Ends

section Failures
variable {P : Platform} {Z : Precompiles} {kind : FrameKind} {f child g g' : ZvmInterpreter} {sub : SubFrame}
  {result : ZvmResult} {s s' : HostState}

theorem untouched_of_unaltered (h : Unaltered s s') : Untouched none s s' := by
  obtain ⟨host,view⟩ := s
  obtain ⟨host',view'⟩ := s'
  obtain ⟨⟨transient,rfl,htransient⟩,storage,rfl,hstorage⟩ := h
  exact ⟨fun _ => rfl,hstorage,fun a key => htransient (a,key),fun _ => rfl,fun _ _ => rfl,rfl,rfl,fun _ => Iff.rfl⟩

theorem run_whole {fuel : ℕ} (hrun : (run P Z fuel f).run (hostHandler P) s = (.finished result child,s')) :
    (whole P Z f).run (hostHandler P) s = (.finished result child,s') := by
  have hmore := run_more (le_max_left fuel (f.gas.toNat + 1)) hrun
  have hsame : whole P Z f = run P Z (max fuel (f.gas.toNat + 1)) f :=
    run_eq (Nat.lt_succ_self _) (Nat.lt_of_succ_le (le_max_right _ _))
  rw [hsame, hmore]

/-- The frame of an idle call ends in the state the call was made in. -/
theorem unaltered_of_idle {kind : ZvmCallKind} {fuel : ℕ} {s₁ s₂ : HostState} (hidle : IdleCall P Z (.call kind) g s)
    (hstart : (startFrame P Z (.call kind)).exec (hostHandler P) g s = ((.ok (some sub),f),s₁))
    (hrun : (run P Z fuel sub.frame).run (hostHandler P) s₁ = (.finished result child,s₂)) : Unaltered s s₂ := by
  obtain ⟨host,view⟩ := s
  obtain ⟨args,f₁,hpop,hvalue,halong⟩ := hidle
  obtain ⟨f₂,hbegin,-⟩ := startFrame_ok hstart
  obtain ⟨args',f₃,hpop',⟨hnone,-⟩ | ⟨-,hs,-⟩⟩ := beginCall_ok hbegin
  · cases hnone
  · cases hpop.symm.trans hpop'
    have hpaid : s₁ = (host,view) := by
      rw [hs, callPaid]
      split
      · rename_i hcall
        rw [sent, hvalue hcall, if_neg (Nat.lt_irrefl 0)]
      · rfl
    have hall := unaltered_run (whole P Z sub.frame) s₁ (halong f sub s₁ hstart)
    rwa [run_whole hrun, hpaid] at hall

theorem starts_of_returns {s₁ : HostState}
    (hstart : (startFrame P Z kind).exec (hostHandler P) g s = ((.ok (some sub),f),s₁)) : Starts P kind g s := by
  obtain ⟨host,view⟩ := s
  obtain ⟨f₁,hbegin,-⟩ := startFrame_ok hstart
  cases kind with
  | call kind =>
    obtain ⟨args,f₂,hpop,⟨hnone,-⟩ | ⟨hstarts,-⟩⟩ := beginCall_ok hbegin
    · cases hnone
    · exact ⟨args,f₂,hpop,hstarts⟩
  | create withSalt =>
    obtain ⟨args,f₂,hpop,⟨hnone,-⟩ | ⟨hstarts,-⟩⟩ := beginCreate_ok hbegin
    · cases hnone
    · exact ⟨args,f₂,hpop,hstarts⟩

/-- An opcode that pushes 0 leaves no trace if it starts no frame, or is an idle call; a
creation leaves none only if it starts no frame. -/
theorem failed_call_untouched (P : Platform) (Z : Precompiles) (kind : FrameKind) (g g' : ZvmInterpreter)
    (s s' : HostState) (h : Fails P Z kind g s g' s') :
    (¬ Starts P kind g s ∨ IdleCall P Z kind g s → Untouched (kind.exempt g) s s') ∧
      ∀ withSalt, kind = .create withSalt → Untouched (kind.exempt g) s s' → ¬ Starts P kind g s := by
  obtain ⟨host,view⟩ := s
  cases h.1 with
  | stops hstart =>
    obtain ⟨huntouched,hstopped⟩ := untouched_of_stops hstart
    exact ⟨fun _ => huntouched,fun _ _ _ => hstopped⟩
  | @returns f child sub result fuel s₁ s₂ hstart hrun hresume =>
    have hstarts := starts_of_returns hstart
    cases kind with
    | call kind =>
      obtain rfl : s' = s₂ := resumeFrame_call (startFrame_funds hstart).1 hresume
      refine ⟨?_,fun _ hcreate => by cases hcreate⟩
      rintro (hstopped | hidle)
      · exact absurd hstarts hstopped
      · exact untouched_of_unaltered (unaltered_of_idle hidle hstart hrun)
    | create withSalt =>
      refine ⟨?_,fun _ _ huntouched => absurd huntouched (create_leaves_nonce hstart hrun hresume)⟩
      rintro (hstopped | hidle)
      · exact absurd hstarts hstopped
      · exact hidle.elim

end Failures

section RevertingCallee

def callingFrame (depth : ℕ) : ZvmInterpreter :=
  { ZvmInterpreter.new
      { bytecode := [0xF1]
        calldata := []
        caller := 1
        contract := 9
        value := 0
        gasLimit := 100000
        blockNumber := 1
        blockTimestamp := 0
        baseFee := 0
        blobBaseFee := 1
        chainId := 8989
        isStatic := false
        aaSender := none
        zbxPriceUsd := 0
        origin := 1 } with
    stack := ⟨[50000,32,0,0,0,0,0],by decide⟩
    depth := depth }

/-- Account 32 stores 1 in slot 2 and reverts. -/
def revertingState : HostState :=
  (.new (.fromHeader (plainBlock 1 0).header),
    (ExecView.new.seedAccount 32 { AccountState.fresh with codeHash := 6, vm := .zvm }).seedCode 6
      [0x60,0x01,0x60,0x02,0x55,0x5F,0x5F,0xFD])

/-- Account 32 reads slot 2 and reverts. -/
def readingState : HostState :=
  (.new (.fromHeader (plainBlock 1 0).header),
    (ExecView.new.seedAccount 32 { AccountState.fresh with codeHash := 6, vm := .zvm }).seedCode 6
      [0x60,0x02,0x54,0x5F,0x5F,0xFD])

/-- The call without a value runs its frame, which changes nothing, and answers 0. -/
def readingCallFails : Bool :=
  match (startFrame .integers noPrecompiles (.call .call)).exec (hostHandler .integers)
      (callingFrame 0) readingState with
  | ((.ok (some sub),f),s₁) =>
    decide ((whole .integers noPrecompiles sub.frame).Along (hostHandler .integers) (fun c t => ¬ Alters c t) s₁) &&
      match (run .integers noPrecompiles 20 sub.frame).run (hostHandler .integers) s₁ with
      | (.finished result child,s₂) =>
        match (resumeFrame sub result child).exec (hostHandler .integers) f s₂ with
        | ((.ok (),g'),_) => decide (g'.stack.inner.head? = some 0)
        | _ => false
      | _ => false
  | _ => false

/-- A call that reads and reverts leaves no trace. -/
theorem failed_call_untouched_reading : ∃ g' s',
    Fails .integers noPrecompiles (.call .call) (callingFrame 0) readingState g' s' ∧
      Untouched none readingState s' := by
  have hok : readingCallFails = true := by decide +kernel
  have hvalue : (popCall .call (callingFrame 0)).1.toOption.map CallArgs.value = some 0 := by decide +kernel
  unfold readingCallFails at hok
  split at hok
  · rename_i sub f s₁ hstart
    rw [Bool.and_eq_true, decide_eq_true_eq] at hok
    obtain ⟨halong,hok⟩ := hok
    split at hok
    · rename_i result child s₂ hrun
      split at hok
      · rename_i g' s' hresume
        have hfails : Fails .integers noPrecompiles (.call .call) (callingFrame 0) readingState g' s' :=
          ⟨.returns hstart hrun hresume,of_decide_eq_true hok⟩
        refine ⟨g',s',hfails,(failed_call_untouched _ _ _ _ _ _ _ hfails).1 (Or.inr ?_)⟩
        rcases hpop : popCall .call (callingFrame 0) with ⟨e | args,f₁⟩
        · rw [hpop] at hvalue
          cases hvalue
        · rw [hpop] at hvalue
          refine ⟨args,f₁,hpop,fun _ => Option.some.inj hvalue,?_⟩
          intro f' sub' s₃ hstart'
          cases hstart.symm.trans hstart'
          exact halong
      · cases hok
    · cases hok
  · cases hok

def revertedCallStored : Bool :=
  match (startFrame .integers noPrecompiles (.call .call)).exec (hostHandler .integers)
      (callingFrame 0) revertingState with
  | ((.ok (some sub),f),s₁) => match (run .integers noPrecompiles 20 sub.frame).run
      (hostHandler .integers) s₁ with
    | (.finished result child,s₂) => match (resumeFrame sub result child).exec
        (hostHandler .integers) f s₂ with
      | ((.ok (),g'),s') => decide (g'.stack.inner.head? = some 0 ∧
          s'.2.state.getStorage 32 2 ≠ revertingState.2.state.getStorage 32 2)
      | _ => false
    | _ => false
  | _ => false

/-- What a reverted frame stored stays. -/
theorem reverted_call_stores : ¬ ∀ (P : Platform) (Z : Precompiles) (kind : FrameKind)
    (g g' : ZvmInterpreter) (s s' : HostState),
    Fails P Z kind g s g' s' → Untouched (kind.exempt g) s s' := by
  intro hclaim
  have hok : revertedCallStored = true := by decide +kernel
  unfold revertedCallStored at hok
  split at hok
  · rename_i sub f s₁ hstart
    split at hok
    · rename_i result child s₂ hrun
      split at hok
      · rename_i g' s' hresume
        obtain ⟨hzero,hstored⟩ := of_decide_eq_true hok
        exact hstored ((hclaim _ _ _ _ _ _ _ ⟨.returns hstart hrun hresume,hzero⟩).storage 32 2)
      · cases hok
    · cases hok
  · cases hok

end RevertingCallee

end ZbxChain.Zvm
