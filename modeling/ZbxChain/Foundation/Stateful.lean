import Mathlib.Order.Defs.Unbundled

/-! # Computations over a state, which can fail and keep what they have done

A relation between states that holds over every change of the state holds over a whole
computation, whether it fails or not. What a computation ends with is found by rules that
follow its text. It can be watched by a log beside its state, which does not change what it does.
-/
namespace ZbxChain

/-- Computations over a state `σ` that can fail with an `ε`. -/
abbrev Stateful (ε σ α : Type) := ExceptT ε (StateM σ) α

namespace Stateful
variable {ε σ α β : Type}

def exec (m : Stateful ε σ α) (s : σ) : Except ε α × σ := m s

/-- The computation, its failure being ignored. -/
def ignoring (m : Stateful ε σ α) : Stateful ε σ Unit := fun s => (.ok (),(m.exec s).2)

section Runs
variable (s : σ)

@[simp] theorem exec_pure (a : α) : (pure a : Stateful ε σ α).exec s = (.ok a,s) := rfl
@[simp] theorem exec_throw (e : ε) : (throw e : Stateful ε σ α).exec s = (.error e,s) := rfl
@[simp] theorem exec_get : (get : Stateful ε σ σ).exec s = (.ok s,s) := rfl
@[simp] theorem exec_modify (f : σ → σ) : (modify f : Stateful ε σ Unit).exec s = (.ok (),f s) := rfl

theorem exec_bind (m : Stateful ε σ α) (f : α → Stateful ε σ β) :
    (m >>= f).exec s = match m.exec s with
      | (.ok a,s') => (f a).exec s'
      | (.error e,s') => (.error e,s') := by
  change (ExceptT.bindCont f (m s).1) (m s).2 = _
  unfold exec
  rcases m s with ⟨_ | _,_⟩
  · rfl
  · rfl

end Runs

def Keeps (R : σ → σ → Prop) (m : Stateful ε σ α) : Prop := ∀ s, R s (m.exec s).2

namespace Keeps
variable {R : σ → σ → Prop} [Std.Refl R] [IsTrans σ R] {m : Stateful ε σ α} {f : α → Stateful ε σ β}

omit [IsTrans σ R] in
theorem pure (a : α) : Keeps R (Pure.pure a : Stateful ε σ α) := fun s => refl_of R s

omit [IsTrans σ R] in
theorem throw (e : ε) : Keeps R (throw e : Stateful ε σ α) := fun s => refl_of R s

omit [IsTrans σ R] in
theorem get : Keeps R (MonadState.get : Stateful ε σ σ) := fun s => refl_of R s

omit [Std.Refl R] [IsTrans σ R] in
theorem modify {g : σ → σ} (h : ∀ s, R s (g s)) : Keeps R (modify g : Stateful ε σ Unit) := h

omit [Std.Refl R] in
theorem bind (hm : Keeps R m) (hf : ∀ a, Keeps R (f a)) : Keeps R (m >>= f) := by
  intro s
  rw [exec_bind]
  have hfirst := hm s
  rcases hrun : m.exec s with ⟨_ | a,s'⟩
  · rwa [hrun] at hfirst
  · rw [hrun] at hfirst
    exact trans_of R hfirst (hf a s')

omit [Std.Refl R] [IsTrans σ R] in
theorem ignoring (hm : Keeps R m) : Keeps R m.ignoring := hm

theorem guarded {c : Prop} [Decidable c] {e : ε} {rest : PUnit → Stateful ε σ α}
    (h : Keeps R (rest ⟨⟩)) :
    Keeps R (if c then throwThe ε e >>= rest else rest ⟨⟩) := by
  split
  · exact (throw e).bind fun _ => h
  · exact h

theorem mapM (hf : ∀ a, Keeps R (f a)) (l : List α) : Keeps R (l.mapM f) := by
  induction l with
  | nil => exact pure []
  | cons a l ih =>
    rw [List.mapM_cons]
    exact (hf a).bind (fun b => ih.bind (fun bs => pure (b :: bs)))

end Keeps

section Posts

/-- A computation whose answer and state satisfy `Q`, or `E` where it fails. -/
def Ends (m : Stateful ε σ α) (s : σ) (Q : α → σ → Prop) (E : ε → σ → Prop) : Prop :=
  match m.exec s with
  | (.ok a,s') => Q a s'
  | (.error e,s') => E e s'

variable {m : Stateful ε σ α} {s : σ} {Q Q' : α → σ → Prop} {E E' : ε → σ → Prop}

@[simp] theorem ends_pure {a : α} : Ends (pure a) s Q E ↔ Q a s := Iff.rfl
@[simp] theorem ends_throw {e : ε} : Ends (throw e) s Q E ↔ E e s := Iff.rfl
@[simp] theorem ends_get {Q : σ → σ → Prop} : Ends get s Q E ↔ Q s s := Iff.rfl
@[simp] theorem ends_modify {g : σ → σ} {Q : Unit → σ → Prop} : Ends (modify g) s Q E ↔ Q () (g s) := Iff.rfl

/-- The rule of sequences, by which programs are taken apart. -/
@[simp] theorem ends_bind {f : α → Stateful ε σ β} {Q : β → σ → Prop} :
    Ends (m >>= f) s Q E ↔ Ends m s (fun a s' => Ends (f a) s' Q E) E := by
  unfold Ends
  rw [exec_bind]
  rcases m.exec s with ⟨_ | _,_⟩
  · rfl
  · rfl

@[simp] theorem ends_ignoring {Q : Unit → σ → Prop} :
    Ends m.ignoring s Q E ↔ Ends m s (fun _ => Q ()) (fun _ => Q ()) := by
  unfold Ends
  change Q () (m.exec s).2 ↔ _
  rcases m.exec s with ⟨_ | _,_⟩
  · rfl
  · rfl

theorem ends_ite {c : Prop} [Decidable c] {m' : Stateful ε σ α} :
    Ends (if c then m else m') s Q E ↔ if c then Ends m s Q E else Ends m' s Q E := by
  split
  · rfl
  · rfl

theorem Ends.imp (h : Ends m s Q E) (hQ : ∀ a s, Q a s → Q' a s) (hE : ∀ e s, E e s → E' e s) :
    Ends m s Q' E' := by
  unfold Ends at h ⊢
  rcases hrun : m.exec s with ⟨e | a,s'⟩
  · rw [hrun] at h
    exact hE e s' h
  · rw [hrun] at h
    exact hQ a s' h

theorem ends_trivial : Ends m s (fun _ _ => True) (fun _ _ => True) := by
  unfold Ends
  split
  · trivial
  · trivial

theorem Ends.of_ok {a : α} {s' : σ} (h : Ends m s Q E) (hrun : m.exec s = (.ok a,s')) : Q a s' := by
  unfold Ends at h
  rw [hrun] at h
  exact h

theorem Ends.of_error {e : ε} {s' : σ} (h : Ends m s Q E) (hrun : m.exec s = (.error e,s')) : E e s' := by
  unfold Ends at h
  rw [hrun] at h
  exact h

theorem Ends.state {R : σ → Prop} (h : Ends m s (fun _ => R) (fun _ => R)) : R (m.exec s).2 := by
  unfold Ends at h
  rcases hrun : m.exec s with ⟨e | a,s'⟩
  · rw [hrun] at h
    exact h
  · rw [hrun] at h
    exact h

theorem Ends.and (h : Ends m s Q E) (h' : Ends m s Q' E') :
    Ends m s (fun a s => Q a s ∧ Q' a s) (fun e s => E e s ∧ E' e s) := by
  unfold Ends at h h' ⊢
  rcases hrun : m.exec s with ⟨e | a,s'⟩
  · rw [hrun] at h h'
    exact ⟨h,h'⟩
  · rw [hrun] at h h'
    exact ⟨h,h'⟩

/-- The rule of loops: the invariant speaks of the elements still to come. -/
theorem Ends.mapM {J : List α → σ → Prop} {f : α → Stateful ε σ β} {l : List α} (hs : J l s)
    (h : ∀ a l s, J (a :: l) s → Ends (f a) s (fun _ => J l) E) :
    Ends (l.mapM f) s (fun _ => J []) E := by
  induction l generalizing s with
  | nil => exact hs
  | cons a l ih =>
    rw [List.mapM_cons]
    simp only [ends_bind, ends_pure]
    exact (h a l s hs).imp (fun _ s' hs' => ih hs') (fun _ _ he => he)

end Posts

section Logs
variable {ω : Type}

/-- The computation, with a log that it does not write to. -/
def logged (m : Stateful ε σ α) : Stateful ε (σ × List ω) α := fun s => ((m.exec s.1).1,(m.exec s.1).2,s.2)

/-- An entry in the log, made from the state. -/
def tell (w : σ → ω) : Stateful ε (σ × List ω) Unit := modify (fun s => (s.1,s.2 ++ [w s.1]))

@[simp] theorem exec_logged (m : Stateful ε σ α) (s : σ × List ω) :
    (m.logged : Stateful ε (σ × List ω) α).exec s = ((m.exec s.1).1,(m.exec s.1).2,s.2) := rfl

@[simp] theorem exec_tell (w : σ → ω) (s : σ × List ω) :
    (tell w : Stateful ε (σ × List ω) Unit).exec s = (.ok (),s.1,s.2 ++ [w s.1]) := rfl

@[simp] theorem ends_logged {m : Stateful ε σ α} {s : σ × List ω} {Q : α → σ × List ω → Prop}
    {E : ε → σ × List ω → Prop} :
    Ends m.logged s Q E ↔ Ends m s.1 (fun a s' => Q a (s',s.2)) (fun e s' => E e (s',s.2)) := by
  unfold Ends
  rw [exec_logged]
  rcases m.exec s.1 with ⟨_ | _,_⟩
  · rfl
  · rfl

@[simp] theorem ends_tell {w : σ → ω} {s : σ × List ω} {Q : Unit → σ × List ω → Prop}
    {E : ε → σ × List ω → Prop} : Ends (tell w) s Q E ↔ Q () (s.1,s.2 ++ [w s.1]) := Iff.rfl

/-- Without its log, the one computation is the other. -/
def Erases (m' : Stateful ε (σ × List ω) α) (m : Stateful ε σ α) : Prop :=
  ∀ s, ((m'.exec s).1,(m'.exec s).2.1) = m.exec s.1

namespace Erases
variable {m' : Stateful ε (σ × List ω) α} {m : Stateful ε σ α} {f' : α → Stateful ε (σ × List ω) β}
  {f : α → Stateful ε σ β}

theorem logged (m : Stateful ε σ α) : Erases (m.logged : Stateful ε (σ × List ω) α) m := fun _ => rfl

theorem pure (a : α) : Erases (Pure.pure a : Stateful ε (σ × List ω) α) (Pure.pure a) := fun _ => rfl

theorem bind (hm : Erases m' m) (hf : ∀ a, Erases (f' a) (f a)) : Erases (m' >>= f') (m >>= f) := by
  intro s
  have hfirst := hm s
  rw [exec_bind, exec_bind, ← hfirst]
  rcases m'.exec s with ⟨e | a,s'⟩
  · rfl
  · exact hf a s'

theorem mapM (hf : ∀ a, Erases (f' a) (f a)) (l : List α) : Erases (l.mapM f') (l.mapM f) := by
  induction l with
  | nil => exact pure []
  | cons a l ih =>
    rw [List.mapM_cons, List.mapM_cons]
    exact (hf a).bind fun b => ih.bind fun bs => pure (b :: bs)

theorem tell_then {w : σ → ω} (hm : Erases m' m) : Erases (tell w >>= fun _ => m') m := fun s =>
  hm (s.1,s.2 ++ [w s.1])

end Erases

end Logs

end Stateful

end ZbxChain
