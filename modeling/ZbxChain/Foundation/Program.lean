import Mathlib.Data.Nat.Notation
import Mathlib.Logic.Basic

/-! # Programs that make calls

A program is a tree: it is done, or it makes a call and goes on with the reply. A handler
answers the calls from a state of its own. What each single call keeps, a whole run keeps; and
two handlers that answer alike every call a run makes let the run come to the same result.

A framed program works on a frame of its own and may end with a fault. What it leaves under a
host is an answer or a fault, its frame and the state of the host; rules about that are composed
as the program is.
-/
namespace ZbxChain

/-- Programs with calls `ι`, a call `i` being answered by a `ρ i`. -/
inductive Program {ι : Type} (ρ : ι → Type) (α : Type) where
  | done (a : α)
  | call (i : ι) (next : ρ i → Program ρ α)

namespace Program
variable {ι κ α β σ τ : Type} {ρ : ι → Type} {θ : κ → Type}

def bind : Program ρ α → (α → Program ρ β) → Program ρ β
  | done a, f => f a
  | call i next, f => call i (fun r => (next r).bind f)

instance : Monad (Program ρ) where
  pure := done
  bind := bind

def request (i : ι) : Program ρ (ρ i) := call i done

/-- A handler over a state. -/
abbrev Handler (ρ : ι → Type) (σ : Type) := (i : ι) → σ → ρ i × σ

def run (h : Handler ρ σ) : Program ρ α → σ → α × σ
  | done a, s => (a,s)
  | call i next, s => run h (next (h i s).1) (h i s).2

/-- The program in which every call is answered by a program of other calls, with a state
that is passed along. -/
def interpret (h : (i : ι) → τ → Program θ (ρ i × τ)) : Program ρ α → τ → Program θ (α × τ)
  | done a, t => done (a,t)
  | call i next, t => (h i t).bind (fun r => interpret h (next r.1) r.2)

/-- The handler of the calls of an interpreted program, over both states. -/
def stacked (h : (i : ι) → τ → Program θ (ρ i × τ)) (g : Handler θ σ) : Handler ρ (τ × σ) :=
  fun i s => (((h i s.1).run g s.2).1.1,((h i s.1).run g s.2).1.2,((h i s.1).run g s.2).2)

def recorded (h : Handler ρ σ) : Handler ρ (σ × List (Σ i, ρ i)) :=
  fun i s => ((h i s.1).1,(h i s.1).2,s.2 ++ [⟨i,(h i s.1).1⟩])

def tally (h : Handler ρ σ) (cost : ι → σ → ℕ) : Program ρ α → σ → ℕ
  | done _, _ => 0
  | call i next, s => cost i s + tally h cost (next (h i s).1) (h i s).2

def both (h : Handler ρ σ) (g : Handler ρ τ) : Handler ρ (σ × τ) :=
  fun i s => ((h i s.1).1,(h i s.1).2,(g i s.2).2)

def Along (h : Handler ρ σ) (allowed : ι → σ → Prop) : Program ρ α → σ → Prop
  | done _, _ => True
  | call i next, s => allowed i s ∧ Along h allowed (next (h i s).1) (h i s).2

/-- Whatever the replies, the calls are allowed ones and the result satisfies `Q`. -/
def Within (allowed : ι → Prop) (Q : α → Prop) : Program ρ α → Prop
  | done a => Q a
  | call i next => allowed i ∧ ∀ r, Within allowed Q (next r)

/-- `R` holds of the result of a run and the state it leaves. -/
def Gives (h : Handler ρ σ) (p : Program ρ α) (s : σ) (R : α → σ → Prop) : Prop := R (p.run h s).1 (p.run h s).2

instance decidableAlong (h : Handler ρ σ) (allowed : ι → σ → Prop)
    [∀ i s, Decidable (allowed i s)] : (p : Program ρ α) → (s : σ) → Decidable (Along h allowed p s)
  | done _, _ => .isTrue trivial
  | call i next, s =>
    have := decidableAlong h allowed (next (h i s).1) (h i s).2
    inferInstanceAs (Decidable (_ ∧ _))

section Runs
variable {h : Handler ρ σ} {g : Handler ρ τ} {p : Program ρ α} {s : σ} {t : τ}

@[simp] theorem run_done (a : α) : (done a : Program ρ α).run h s = (a,s) := rfl

@[simp] theorem run_pure (a : α) : (pure a : Program ρ α).run h s = (a,s) := rfl

@[simp] theorem run_request (i : ι) : (request i).run h s = h i s := rfl

@[simp] theorem run_bind (p : Program ρ α) (f : α → Program ρ β) (s : σ) :
    (p >>= f).run h s = (f (p.run h s).1).run h (p.run h s).2 := by
  induction p generalizing s with
  | done a => rfl
  | call i next ih => exact ih (h i s).1 (h i s).2

@[simp] theorem run_ite {c : Prop} [Decidable c] (p q : Program ρ α) (s : σ) :
    (if c then p else q).run h s = if c then p.run h s else q.run h s := by
  split
  · rfl
  · rfl

@[simp] theorem along_bind {allowed : ι → σ → Prop} (p : Program ρ α) (f : α → Program ρ β) (s : σ) :
    Along h allowed (p >>= f) s ↔
      Along h allowed p s ∧ Along h allowed (f (p.run h s).1) (p.run h s).2 := by
  induction p generalizing s with
  | done a => exact (and_iff_right trivial).symm
  | call i next ih =>
    have hrest := ih (h i s).1 (h i s).2
    constructor
    · rintro ⟨hcall,halong⟩
      obtain ⟨hfirst,hthen⟩ := hrest.mp halong
      exact ⟨⟨hcall,hfirst⟩,hthen⟩
    · rintro ⟨⟨hcall,hfirst⟩,hthen⟩
      exact ⟨hcall,hrest.mpr ⟨hfirst,hthen⟩⟩

theorem run_keeps {I : σ → Prop} (hstep : ∀ i s, I s → I (h i s).2) (p : Program ρ α) (s : σ)
    (hs : I s) : I (p.run h s).2 := by
  induction p generalizing s with
  | done a => exact hs
  | call i next ih => exact ih _ _ (hstep i s hs)

/-- What the allowed calls keep, a run that makes no others keeps. -/
theorem run_keeps_along {I : σ → Prop} {allowed : ι → σ → Prop}
    (hstep : ∀ i s, allowed i s → I s → I (h i s).2) (p : Program ρ α) (s : σ) (halong : Along h allowed p s)
    (hs : I s) : I (p.run h s).2 := by
  induction p generalizing s with
  | done a => exact hs
  | call i next ih => exact ih _ _ halong.2 (hstep i s halong.1 hs)

/-- Two handlers that agree on every call a run makes, from states that stay related. -/
theorem run_simulates {R : σ → τ → Prop} {allowed : ι → σ × τ → Prop}
    (hstep : ∀ i s t, R s t → allowed i (s,t) → (h i s).1 = (g i t).1 ∧ R (h i s).2 (g i t).2)
    (p : Program ρ α) (s : σ) (t : τ) (hR : R s t) (halong : Along (both h g) allowed p (s,t)) :
    (p.run h s).1 = (p.run g t).1 ∧ R (p.run h s).2 (p.run g t).2 := by
  induction p generalizing s t with
  | done a => exact ⟨rfl,hR⟩
  | call i next ih =>
    obtain ⟨hcall,hrest⟩ := halong
    obtain ⟨hreply,hnext⟩ := hstep i s t hR hcall
    have hrun := ih (h i s).1 (h i s).2 (g i t).2 hnext hrest
    rw [run, run, ← hreply]
    exact hrun

theorem along_of_forall {allowed : ι → σ → Prop} (hall : ∀ i s, allowed i s) (p : Program ρ α)
    (s : σ) : Along h allowed p s := by
  induction p generalizing s with
  | done a => exact trivial
  | call i next ih => exact ⟨hall i s,ih _ _⟩

theorem run_interpret (h : (i : ι) → τ → Program θ (ρ i × τ)) (g : Handler θ σ) (p : Program ρ α)
    (t : τ) (s : σ) : (p.interpret h t).run g s =
      (((p.run (stacked h g) (t,s)).1,(p.run (stacked h g) (t,s)).2.1),
        (p.run (stacked h g) (t,s)).2.2) := by
  induction p generalizing t s with
  | done a => rfl
  | call i next ih =>
    rw [interpret, run]
    exact (run_bind _ _ s).trans (ih _ _ _)

theorem run_tally {T : σ → ℕ} {I : σ → Prop} {cost : ι → σ → ℕ}
    (hstep : ∀ i s, I s → T (h i s).2 + cost i s = T s ∧ I (h i s).2)
    (p : Program ρ α) (s : σ) (hs : I s) :
    T (p.run h s).2 + p.tally h cost s = T s ∧ I (p.run h s).2 := by
  induction p generalizing s with
  | done a => exact ⟨rfl,hs⟩
  | call i next ih =>
    obtain ⟨hcall,hI⟩ := hstep i s hs
    obtain ⟨hrest,hend⟩ := ih (h i s).1 (h i s).2 hI
    refine ⟨?_,hend⟩
    simp only [run, tally]
    omega

end Runs

section Gives
variable {h : Handler ρ σ} {p : Program ρ α} {s : σ} {R R' : α → σ → Prop}

theorem Gives.mono (hp : p.Gives h s R) (hR : ∀ a s', R a s' → R' a s') : p.Gives h s R' := hR _ _ hp

theorem Gives.with_run (hp : p.Gives h s R) : p.Gives h s (fun a s' => p.run h s = (a,s') ∧ R a s') := ⟨rfl,hp⟩

@[simp] theorem gives_pure (a : α) : (pure a : Program ρ α).Gives h s R ↔ R a s := Iff.rfl

theorem gives_bind {f : α → Program ρ β} {R : β → σ → Prop} :
    (p >>= f).Gives h s R ↔ p.Gives h s (fun a s' => (f a).Gives h s' R) := by
  unfold Gives
  rw [run_bind]

end Gives

section Within
variable {allowed allowed' : ι → Prop} {Q R : α → Prop} {p : Program ρ α}

@[simp] theorem within_done (a : α) : (done a : Program ρ α).Within allowed Q ↔ Q a := Iff.rfl

@[simp] theorem within_request (i : ι) {Q : ρ i → Prop} :
    (request i).Within allowed Q ↔ allowed i ∧ ∀ r, Q r := Iff.rfl

theorem Within.mono (h : p.Within allowed Q) (hcalls : ∀ i, allowed i → allowed' i)
    (hresult : ∀ a, Q a → R a) : p.Within allowed' R := by
  induction p with
  | done a => exact hresult a h
  | call i next ih => exact ⟨hcalls i h.1,fun r => ih r (h.2 r)⟩

theorem Within.and (h : p.Within allowed Q) (h' : p.Within allowed' R) :
    p.Within (fun i => allowed i ∧ allowed' i) (fun a => Q a ∧ R a) := by
  induction p with
  | done a => exact ⟨h,h'⟩
  | call i next ih => exact ⟨⟨h.1,h'.1⟩,fun r => ih r (h.2 r) (h'.2 r)⟩

@[simp] theorem within_bind (p : Program ρ α) (f : α → Program ρ β) {Q : β → Prop} :
    (p >>= f).Within allowed Q ↔ p.Within allowed (fun a => (f a).Within allowed Q) := by
  induction p with
  | done a => exact Iff.rfl
  | call i next ih => exact and_congr_right fun _ => forall_congr' ih

/-- A postcondition holds under any handler. -/
theorem Within.result (h : p.Within allowed Q) (handler : Handler ρ σ) (s : σ) :
    Q (p.run handler s).1 := by
  induction p generalizing s with
  | done a => exact h
  | call i next ih => exact ih _ (h.2 _) _

theorem Within.along (h : p.Within allowed Q) (handler : Handler ρ σ) (s : σ) :
    p.Along handler (fun i _ => allowed i) s := by
  induction p generalizing s with
  | done a => exact trivial
  | call i next ih => exact ⟨h.1,ih _ (h.2 _) _⟩

theorem bind_congr_within {f g : α → Program ρ β} (h : p.Within allowed (fun a => f a = g a)) :
    p >>= f = p >>= g := by
  induction p with
  | done a => exact h
  | call i next ih => exact congrArg (call i) (funext fun r => ih r (h.2 r))

end Within

end Program

/-- Programs over a frame `φ` with calls `ρ` and faults `ε`. -/
abbrev Framed {ι : Type} (ρ : ι → Type) (φ ε α : Type) := ExceptT ε (StateT φ (Program ρ)) α

namespace Framed
variable {ι φ ε α β σ : Type} {ρ : ι → Type}

def call (i : ι) : Framed ρ φ ε (ρ i) := fun f => Program.call i (fun r => .done (.ok r,f))

/-- `Q` holds of what the program leaves under a host. -/
def After (h : Program.Handler ρ σ) (p : Framed ρ φ ε α) (f : φ) (s : σ) (Q : Except ε α → φ → σ → Prop) : Prop :=
  Q ((p f).run h s).1.1 ((p f).run h s).1.2 ((p f).run h s).2

section After
variable {h : Program.Handler ρ σ} {p : Framed ρ φ ε α} {q : α → Framed ρ φ ε β} {f : φ} {s : σ}
  {Q Q' : Except ε α → φ → σ → Prop}

theorem After.mono (hp : After h p f s Q) (hQ : ∀ r f' s', Q r f' s' → Q' r f' s') : After h p f s Q' :=
  hQ _ _ _ hp

theorem After.and (hp : After h p f s Q) (hp' : After h p f s Q') :
    After h p f s (fun r f' s' => Q r f' s' ∧ Q' r f' s') := ⟨hp,hp'⟩

@[simp] theorem after_pure {a : α} : After h (pure a : Framed ρ φ ε α) f s Q ↔ Q (.ok a) f s := Iff.rfl

@[simp] theorem after_throw {e : ε} : After h (throw e : Framed ρ φ ε α) f s Q ↔ Q (.error e) f s := Iff.rfl

theorem after_bind {Q : Except ε β → φ → σ → Prop} : After h (p >>= q) f s Q ↔
    After h p f s (fun r f' s' => match r with
      | .ok a => After h (q a) f' s' Q
      | .error e => Q (.error e) f' s') := by
  have hrun : ((p >>= q) f).run h s =
      ((ExceptT.bindCont q ((p f).run h s).1.1) ((p f).run h s).1.2).run h ((p f).run h s).2 :=
    Program.run_bind (p f) _ s
  unfold After
  rw [hrun]
  rcases ((p f).run h s).1 with ⟨e | a,f₁⟩
  · exact Iff.rfl
  · exact Iff.rfl

@[simp] theorem after_get_bind {q : φ → Framed ρ φ ε α} :
    After h ((get : Framed ρ φ ε φ) >>= q) f s Q ↔ After h (q f) f s Q := Iff.rfl

@[simp] theorem after_modify {g : φ → φ} {Q : Except ε Unit → φ → σ → Prop} :
    After h (modify g : Framed ρ φ ε Unit) f s Q ↔ Q (.ok ()) (g f) s := Iff.rfl

@[simp] theorem after_call_bind {i : ι} {q : ρ i → Framed ρ φ ε α} :
    After h (call i >>= q) f s Q ↔ After h (q (h i s).1) f (h i s).2 Q := Iff.rfl

@[simp] theorem after_ite {c : Prop} [Decidable c] {p p' : Framed ρ φ ε α} :
    After h (if c then p else p') f s Q ↔ if c then After h p f s Q else After h p' f s Q := by
  split
  · exact Iff.rfl
  · exact Iff.rfl

end After

/-- If the program answers, `Q` holds of what it leaves. -/
def Yields (h : Program.Handler ρ σ) (p : Framed ρ φ ε α) (f : φ) (s : σ) (Q : α → φ → σ → Prop) : Prop :=
  After h p f s (fun r f' s' => ∀ a, r = .ok a → Q a f' s')

section Yields
variable {h : Program.Handler ρ σ} {p : Framed ρ φ ε α} {q : α → Framed ρ φ ε β} {f : φ} {s : σ}
  {Q Q' : α → φ → σ → Prop}

theorem Yields.mono (hp : Yields h p f s Q) (hQ : ∀ a f' s', Q a f' s' → Q' a f' s') : Yields h p f s Q' :=
  After.mono hp (fun _ f' s' hr a ha => hQ a f' s' (hr a ha))

@[simp] theorem yields_pure {a : α} : Yields h (pure a : Framed ρ φ ε α) f s Q ↔ Q a f s := by
  simp [Yields]

@[simp] theorem yields_throw {e : ε} : Yields h (throw e : Framed ρ φ ε α) f s Q := by
  simp [Yields]

theorem yields_bind {Q : β → φ → σ → Prop} :
    Yields h (p >>= q) f s Q ↔ Yields h p f s (fun a f' s' => Yields h (q a) f' s' Q) := by
  unfold Yields
  rw [after_bind]
  unfold After
  cases ((p f).run h s).1.1 with
  | ok a => simp
  | error e => simp

theorem yields_of_forall (hQ : ∀ a f' s', Q a f' s') : Yields h p f s Q := fun a _ => hQ a _ _

@[simp] theorem yields_call {i : ι} {Q : ρ i → φ → σ → Prop} :
    Yields h (call i : Framed ρ φ ε (ρ i)) f s Q ↔ Q (h i s).1 f (h i s).2 := by
  simp [Yields, After, call, Program.run]

end Yields

/-- From a frame in `G`, the program moves by `R` and ends in `Q`, or with a fault that is
none of the `bad` ones. -/
def Moves (h : Program.Handler ρ σ) (bad : ε → Prop) (R : φ → σ → φ → σ → Prop) (G : φ → Prop)
    (p : Framed ρ φ ε α) (Q : α → φ → Prop) : Prop :=
  ∀ f s, G f → After h p f s (fun r f' s' => R f s f' s' ∧ match r with
    | .ok a => Q a f'
    | .error e => ¬ bad e)

section Moves
variable {h : Program.Handler ρ σ} {bad : ε → Prop} {R : φ → σ → φ → σ → Prop} {G G' : φ → Prop}
  {p : Framed ρ φ ε α} {q : α → Framed ρ φ ε β} {Q Q' : α → φ → Prop} {Q₂ : β → φ → Prop}

theorem Moves.mono (hp : Moves h bad R G p Q) (hG : ∀ f, G' f → G f) (hQ : ∀ a f, Q a f → Q' a f) :
    Moves h bad R G' p Q' := by
  intro f s hf
  refine (hp f s (hG f hf)).mono ?_
  rintro (e | a) f' s' ⟨hmoved,hend⟩
  · exact ⟨hmoved,hend⟩
  · exact ⟨hmoved,hQ a f' hend⟩

theorem Moves.weaken {R' : φ → σ → φ → σ → Prop} (hp : Moves h bad R G p Q)
    (hR : ∀ {f s f₁ s₁}, R f s f₁ s₁ → R' f s f₁ s₁) : Moves h bad R' G p Q :=
  fun f s hf => (hp f s hf).mono fun _ _ _ hr => ⟨hR hr.1,hr.2⟩

/-- Rules compose as relations do; the second part may not be reached. -/
theorem Moves.comp {R₁ R₂ : φ → σ → φ → σ → Prop} (hp : Moves h bad R₁ G p Q)
    (hq : ∀ a, Moves h bad R₂ (Q a) (q a) Q₂)
    (hcomp : ∀ {f s f₁ s₁ f₂ s₂}, R₁ f s f₁ s₁ → R₂ f₁ s₁ f₂ s₂ → R f s f₂ s₂)
    (hstop : ∀ {f s f₁ s₁}, R₁ f s f₁ s₁ → R f s f₁ s₁) : Moves h bad R G (p >>= q) Q₂ := by
  intro f s hf
  rw [after_bind]
  refine (hp f s hf).mono ?_
  rintro (e | a) f₁ s₁ ⟨hmoved,hend⟩
  · exact ⟨hstop hmoved,hend⟩
  · exact (hq a f₁ s₁ hend).mono fun r f' s' h => ⟨hcomp hmoved h.1,h.2⟩

theorem Moves.bind (htrans : ∀ {f s f₁ s₁ f₂ s₂}, R f s f₁ s₁ → R f₁ s₁ f₂ s₂ → R f s f₂ s₂)
    (hp : Moves h bad R G p Q) (hq : ∀ a, Moves h bad R (Q a) (q a) Q₂) : Moves h bad R G (p >>= q) Q₂ :=
  hp.comp hq htrans id

theorem Moves.relax {bad' : ε → Prop} (hp : Moves h bad R G p Q) (hbad : ∀ e, bad' e → bad e) :
    Moves h bad' R G p Q := by
  intro f s hf
  refine (hp f s hf).mono ?_
  rintro (e | a) f' s' ⟨hmoved,hend⟩
  · exact ⟨hmoved,fun he => hend (hbad e he)⟩
  · exact ⟨hmoved,hend⟩

theorem Moves.pure (hrefl : ∀ f s, R f s f s) (a : α) (hQ : ∀ f, G f → Q a f) :
    Moves h bad R G (pure a : Framed ρ φ ε α) Q := fun f s hf => ⟨hrefl f s,hQ f hf⟩

theorem Moves.throw (hrefl : ∀ f s, R f s f s) {e : ε} (he : ¬ bad e) :
    Moves h bad R G (throw e : Framed ρ φ ε α) Q := fun f s _ => ⟨hrefl f s,he⟩

theorem Moves.modify {g : φ → φ} (hg : ∀ f s, G f → R f s (g f) s) {Q : Unit → φ → Prop}
    (hQ : ∀ f, G f → Q () (g f)) : Moves h bad R G (modify g : Framed ρ φ ε Unit) Q :=
  fun f s hf => ⟨hg f s hf,hQ f hf⟩

theorem Moves.call {i : ι} (hcall : ∀ f s, R f s f (h i s).2) {Q : ρ i → φ → Prop} (hQ : ∀ r f, G f → Q r f) :
    Moves h bad R G (call i) Q := fun f s hf => ⟨hcall f s,hQ _ f hf⟩

theorem Moves.ite {c : Prop} [Decidable c] {p p' : Framed ρ φ ε α} (hp : c → Moves h bad R G p Q)
    (hp' : ¬ c → Moves h bad R G p' Q) : Moves h bad R G (if c then p else p') Q := by
  split
  · rename_i hc
    exact hp hc
  · rename_i hc
    exact hp' hc

end Moves

end Framed

end ZbxChain
