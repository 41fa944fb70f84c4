import ZbxChain.Evm.Rounds

/-! # Every run ends, and no run creates gas

A round takes gas from its frame or moves it forward in its code, and a frame that it starts
has less gas than it had. So the gas of a frame and what is left of its code bound its run,
those of the frames below it included, whatever the host does.
-/
namespace ZbxChain.Evm

section Fuel
variable {σ : Type} {h : Host σ} {P : Platform} {Z : Precompiles} {s s' : σ} {f f' : EVMInterpreter}

theorem round_more {run run' : EVMInterpreter → Program EvmCall.Reply RunEnd}
    (hrun : ∀ f s, ((run f).run h s).1 ≠ .outOfFuel → (run' f).run h s = (run f).run h s)
    (hround : ((round P Z run f).run h s).1 ≠ none) :
    (round P Z run' f).run h s = (round P Z run f).run h s := by
  unfold round at hround ⊢
  rw [Program.run_bind] at hround
  rw [Program.run_bind, Program.run_bind]
  rcases hstep : (step P Z f).run h s with ⟨f₁ | ⟨f₁,sub⟩ | ⟨status,f₁⟩ | _,s₁⟩
  · rfl
  · rw [hstep] at hround
    dsimp only at hround ⊢
    rw [Program.run_bind] at hround
    have hsub : ((run sub.frame).run h s₁).1 ≠ .outOfFuel := by
      intro hout
      rw [hout] at hround
      exact hround rfl
    rw [Program.run_bind, Program.run_bind, hrun sub.frame s₁ hsub]
  · rfl
  · rfl

theorem run_succ {n : ℕ} (hends : ((run P Z n f).run h s).1 ≠ .outOfFuel) :
    (run P Z (n + 1) f).run h s = (run P Z n f).run h s := by
  induction n generalizing f s with
  | zero => exact absurd rfl hends
  | succ n ih =>
    have hround : ((round P Z (run P Z n) f).run h s).1 ≠ none := by
      intro hnone
      rw [run, Program.run_bind, hnone] at hends
      exact hends rfl
    rw [run, Program.run_bind, round_more (fun f s hf => ih hf) hround]
    rw [run, Program.run_bind] at hends
    conv_rhs => rw [run, Program.run_bind]
    rcases hnext : (round P Z (run P Z n) f).run h s with ⟨_ | f₁ | ⟨f₁,sub⟩ | ⟨status,f₁⟩ | _,s₁⟩
    · rfl
    · rw [hnext] at hends
      exact ih hends
    · rfl
    · rfl
    · rfl

theorem run_more {n m : ℕ} (hle : n ≤ m) (hends : ((run P Z n f).run h s).1 ≠ .outOfFuel) :
    (run P Z m f).run h s = (run P Z n f).run h s := by
  induction m, hle using Nat.le_induction with
  | base => rfl
  | succ m hle ih =>
    rw [← ih]
    apply run_succ
    rwa [ih]

theorem round_ends (hf : f.memory.Valid) (hsub : ∀ f' s', f'.memory.Valid →
      f'.gasRemaining.toNat < f.gasRemaining.toNat → ∃ n, ((run P Z n f').run h s').1 ≠ .outOfFuel) (s : σ) :
    ∃ n, ((round P Z (run P Z n) f).run h s).1 ≠ none := by
  have hstep := step_spec (P := P) (Z := Z) (c := False) (Journalled.free h) hf False.elim s
  unfold Program.Gives at hstep
  rcases hstepped : (step P Z f).run h s with ⟨f₁ | ⟨f₁,sub⟩ | ⟨status,f₁⟩ | _,s₁⟩
  · refine ⟨0,?_⟩
    rw [round, Program.run_bind, hstepped]
    rintro ⟨⟩
  · rw [hstepped] at hstep
    obtain ⟨kind,paid,-,hpositive,henough,henters⟩ := hstep
    have hpaid := toNat_paid henough
    have hless := toNat_pos_of_lt hpositive
    have hle : paid.toNat ≤ f.gasRemaining.toNat := UInt64.le_iff_toNat_le.mp henough
    have hshare := henters.share
    dsimp only at hshare
    obtain ⟨n,hn⟩ := hsub sub.frame s₁ henters.memory (by omega)
    refine ⟨n,?_⟩
    rw [round, Program.run_bind, hstepped]
    dsimp only
    rw [Program.run_bind]
    rcases hdone : (run P Z n sub.frame).run h s₁ with ⟨⟨status,child⟩ | _ | _,s₂⟩
    · dsimp only [comeBack]
      rw [Program.run_bind]
      rintro ⟨⟩
    · rintro ⟨⟩
    · rw [hdone] at hn
      exact absurd rfl hn
  · refine ⟨0,?_⟩
    rw [round, Program.run_bind, hstepped]
    rintro ⟨⟩
  · refine ⟨0,?_⟩
    rw [round, Program.run_bind, hstepped]
    rintro ⟨⟩

theorem run_ends (hf : f.memory.Valid) (s : σ) : ∃ n, ((run P Z n f).run h s).1 ≠ .outOfFuel := by
  generalize hgas : f.gasRemaining.toNat = gas
  induction gas using Nat.strong_induction_on generalizing f s with
  | _ gas ihgas =>
    generalize hleft : f.code.length - f.pc = left
    induction left using Nat.strong_induction_on generalizing f s with
    | _ left ihleft =>
      obtain ⟨n,hn⟩ := round_ends (P := P) (Z := Z) hf (fun f' s' hf' hless => ihgas _ (hgas ▸ hless) hf' s' rfl) s
      have hround := round_free (P := P) (Z := Z) (h := h) n hf s
      unfold Program.Gives at hround
      rcases hrounded : (round P Z (run P Z n) f).run h s with ⟨_ | f₁ | ⟨f₁,sub⟩ | ⟨status,f₁⟩ | _,s₁⟩
      · rw [hrounded] at hn
        exact absurd rfl hn
      · rw [hrounded] at hround
        have hnext : ∃ m, ((run P Z m f₁).run h s₁).1 ≠ .outOfFuel := by
          rcases hround.progress with hless | ⟨hforward,hinside⟩
          · exact ihgas _ (hgas ▸ hless) hround.valid s₁ rfl
          · rcases hround.gas.lt_or_eq with hless | hequal
            · exact ihgas _ (hgas ▸ hless) hround.valid s₁ rfl
            · refine ihleft _ ?_ hround.valid s₁ (hequal.trans hgas) rfl
              rw [hround.code]
              omega
        obtain ⟨m,hm⟩ := hnext
        refine ⟨max n m + 1,?_⟩
        have hagain : (round P Z (run P Z (max n m)) f).run h s = (some (.next f₁),s₁) := by
          rw [← hrounded]
          apply round_more (fun f s hends => run_more (Nat.le_max_left n m) hends)
          rw [hrounded]
          rintro ⟨⟩
        rw [run, Program.run_bind, hagain]
        dsimp only
        rwa [run_more (Nat.le_max_right n m) hm]
      · rw [hrounded] at hround
        exact hround.elim
      · refine ⟨n + 1,?_⟩
        rw [run, Program.run_bind, hrounded]
        rintro ⟨⟩
      · refine ⟨n + 1,?_⟩
        rw [run, Program.run_bind, hrounded]
        rintro ⟨⟩

end Fuel

section Limit
variable {σ : Type} {h : Host σ} {P : Platform} {Z : Precompiles}

theorem gasUsed_add {f : EVMInterpreter} (hle : f.gasRemaining.toNat ≤ f.ctx.gasLimit.toNat) :
    f.gasUsed.toNat + f.gasRemaining.toNat = f.ctx.gasLimit.toNat := by
  unfold EVMInterpreter.gasUsed
  rw [toNat_saturatingSub64]
  omega

/-- Under any host, the run of a frame ends the same whatever fuel it has beyond what it
needs, with no more gas than its limit; and each opcode that starts a frame costs its own
frame gas, whatever comes of it. -/
theorem run_ends_within_limit (P : Platform) (Z : Precompiles) (h : Host σ) (ctx : EVMContext) (code : List UInt8) (s : σ) :
    (∃ n, ((run P Z n (.new ctx code)).run h s).1 ≠ .outOfFuel ∧
      ∀ m, n ≤ m → (run P Z m (.new ctx code)).run h s = (run P Z n (.new ctx code)).run h s) ∧
    (∀ n status f s', (run P Z n (.new ctx code)).run h s = (.finished status f,s') →
      f.ctx = ctx ∧ f.gasUsed ≤ ctx.gasLimit ∧ f.gasUsed.toNat + f.gasRemaining.toNat = ctx.gasLimit.toNat) ∧
    ∀ f s₁ f' s₂ n kind, Reaches P Z h (.new ctx code) s f s₁ → f.frameKind = some kind →
      (round P Z (run P Z n) f).run h s₁ = (some (.next f'),s₂) → f'.gasRemaining < f.gasRemaining := by
  refine ⟨?_,?_,?_⟩
  · obtain ⟨n,hn⟩ := run_ends (P := P) (Z := Z) (h := h) (f := .new ctx code) Memory.valid_new s
    exact ⟨n,hn,fun m hle => run_more hle hn⟩
  · intro n status f s' hrun
    have hspec := run_spec (P := P) (Z := Z) (f := .new ctx code) (Journalled.free h) n Memory.valid_new s
    unfold Program.Gives at hspec
    rw [hrun] at hspec
    have hctx : f.ctx = ctx := hspec.ctx
    have hlimit : f.gasRemaining.toNat ≤ f.ctx.gasLimit.toNat := hctx ▸ hspec.gas
    have hsum := gasUsed_add hlimit
    rw [hctx] at hsum
    exact ⟨hctx,UInt64.le_iff_toNat_le.mpr (by omega),hsum⟩
  · intro f s₁ f' s₂ n kind hreaches hkind hround
    have hspec := round_free (P := P) (Z := Z) (h := h) n (hreaches.valid Memory.valid_new) s₁
    unfold Program.Gives at hspec
    rw [hround] at hspec
    exact UInt64.lt_iff_toNat_lt.mpr (hspec.closes kind hkind).1

end Limit

end ZbxChain.Evm
