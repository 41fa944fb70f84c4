import Mathlib.Algebra.GroupWithZero.Nat
import Mathlib.Data.List.Induction
import Mathlib.Logic.Function.Iterate

/-! # Runs of deterministic machines and of networks of them

A machine is a step function `σ → α → σ × ω`: in a state it takes a call and
answers with the next state and an output. A run is recorded as its history, the
list of calls in the order they were made, each with the state it met and the
output it got. A network is a family of machines of which every delivery moves
one; the history of each party inside a network run is a run of that party alone.
-/
namespace ZbxChain.Machine

variable {σ α ω : Type*} (step : σ → α → σ × ω)

structure Entry (σ α ω : Type*) where
  before : σ
  call : α
  output : ω

def final (s : σ) (calls : List α) : σ := calls.foldl (fun s a => (step s a).1) s

def history : σ → List α → List (Entry σ α ω)
  | _, [] => []
  | s, a :: rest => ⟨s,a,(step s a).2⟩ :: history (step s a).1 rest

@[simp] theorem final_nil (s : σ) : final step s [] = s := rfl
@[simp] theorem final_cons (s : σ) (a : α) (rest : List α) :
    final step s (a :: rest) = final step (step s a).1 rest := rfl
@[simp] theorem history_nil (s : σ) : history step s [] = [] := rfl
@[simp] theorem history_cons (s : σ) (a : α) (rest : List α) :
    history step s (a :: rest) = ⟨s,a,(step s a).2⟩ :: history step (step s a).1 rest := rfl

theorem final_append (s : σ) (xs ys : List α) :
    final step s (xs ++ ys) = final step (final step s xs) ys := List.foldl_append

theorem final_replicate (s : σ) (a : α) (n : ℕ) :
    final step s (List.replicate n a) = (fun s => (step s a).1)^[n] s := by
  induction n generalizing s with
  | zero => rfl
  | succ n ih => rw [List.replicate_succ, final_cons, ih, Function.iterate_succ_apply]

theorem history_append (s : σ) (xs ys : List α) :
    history step s (xs ++ ys) = history step s xs ++ history step (final step s xs) ys := by
  induction xs generalizing s with
  | nil => rfl
  | cons a xs ih => simp [ih]

/-- What a recorded call answers is what the step answers in the state before it. -/
theorem output_eq {s : σ} {calls : List α} {e : Entry σ α ω} (he : e ∈ history step s calls) :
    e.output = (step e.before e.call).2 := by
  induction calls generalizing s with
  | nil => simp at he
  | cons a rest ih =>
    rcases List.mem_cons.mp he with rfl | he
    · rfl
    · exact ih he

theorem map_call (s : σ) (calls : List α) : (history step s calls).map Entry.call = calls := by
  induction calls generalizing s with
  | nil => rfl
  | cons a rest ih => simp [ih]

theorem call_mem {s : σ} {calls : List α} {e : Entry σ α ω} (he : e ∈ history step s calls) :
    e.call ∈ calls := by
  rw [← map_call step s calls]
  exact List.mem_map_of_mem he

/-- A recorded call stands between those before it and those after it. -/
theorem history_split {s : σ} {calls : List α} {e : Entry σ α ω} (he : e ∈ history step s calls) :
    ∃ xs ys, calls = xs ++ e.call :: ys ∧ e.before = final step s xs := by
  induction calls generalizing s with
  | nil => simp at he
  | cons a rest ih =>
    rcases List.mem_cons.mp he with rfl | he
    · exact ⟨[],rest,rfl,rfl⟩
    · obtain ⟨xs,ys,hsplit,hbefore⟩ := ih he
      exact ⟨a :: xs,ys,by simp [hsplit],hbefore⟩

/-- A past of the history is the history of a prefix of the calls. -/
theorem history_cut {s : σ} {calls : List α} {past rest : List (Entry σ α ω)} {e : Entry σ α ω}
    (h : history step s calls = past ++ e :: rest) :
    ∃ xs, past = history step s xs ∧ e.before = final step s xs ∧ e.output = (step e.before e.call).2 := by
  induction calls generalizing s past with
  | nil => simp at h
  | cons a calls ih =>
    rw [history_cons] at h
    cases past with
    | nil =>
      obtain ⟨rfl,-⟩ := List.cons.inj h
      exact ⟨[],rfl,rfl,rfl⟩
    | cons first past =>
      obtain ⟨rfl,htail⟩ := List.cons.inj h
      obtain ⟨xs,rfl,hbefore,hout⟩ := ih htail
      exact ⟨a :: xs,rfl,hbefore,hout⟩

/-- A measure that each step changes by what it adds and takes balances over a run. -/
theorem balance_history {measure : σ → ℕ} {added taken : Entry σ α ω → ℕ} {s : σ} {calls : List α}
    (h : ∀ e ∈ history step s calls,
      measure (step e.before e.call).1 + taken e = measure e.before + added e) :
    measure (final step s calls) + ((history step s calls).map taken).sum =
      measure s + ((history step s calls).map added).sum := by
  induction calls generalizing s with
  | nil => rfl
  | cons a rest ih =>
    rw [history_cons] at h
    obtain ⟨hfirst,hrest⟩ := List.forall_mem_cons.mp h
    have htail := ih hrest
    rw [final_cons, history_cons, List.map_cons, List.map_cons, List.sum_cons, List.sum_cons]
    dsimp only at hfirst
    omega

/-- As for equalities, with steps that may keep less than the balance. -/
theorem bounded_history {measure : σ → ℕ} {added taken : Entry σ α ω → ℕ} {s : σ} {calls : List α}
    (h : ∀ e ∈ history step s calls,
      measure (step e.before e.call).1 + taken e ≤ measure e.before + added e) :
    measure (final step s calls) + ((history step s calls).map taken).sum ≤
      measure s + ((history step s calls).map added).sum := by
  induction calls generalizing s with
  | nil => exact Nat.le_refl _
  | cons a rest ih =>
    rw [history_cons] at h
    obtain ⟨hfirst,hrest⟩ := List.forall_mem_cons.mp h
    have htail := ih hrest
    rw [final_cons, history_cons, List.map_cons, List.map_cons, List.sum_cons, List.sum_cons]
    dsimp only at hfirst
    omega

theorem mem_history (s : σ) (xs : List α) (a : α) (ys : List α) :
    ⟨final step s xs,a,(step (final step s xs) a).2⟩ ∈ history step s (xs ++ a :: ys) := by
  rw [history_append, history_cons]
  exact List.mem_append_right _ (List.mem_cons_self ..)

/-- An invariant of the past and the state, kept by each step that meets its condition. -/
theorem past_invariant {G : List (Entry σ α ω) → σ → α → Prop} {J : List (Entry σ α ω) → σ → Prop} {s₀ : σ}
    (hstart : J [] s₀)
    (hstep : ∀ past s a, J past s → G past s a → J (past ++ [⟨s,a,(step s a).2⟩]) (step s a).1)
    (calls : List α)
    (hok : ∀ past e rest, history step s₀ calls = past ++ e :: rest → G past e.before e.call) :
    J (history step s₀ calls) (final step s₀ calls) := by
  induction calls using List.reverseRecOn with
  | nil => exact hstart
  | append_singleton xs a ih =>
    rw [history_append] at hok ⊢
    rw [final_append]
    have hpast := ih (fun past e rest heq => hok past e (rest ++ _) (by rw [heq, List.append_assoc]; rfl))
    exact hstep _ _ a hpast (hok _ ⟨final step s₀ xs,a,_⟩ [] rfl)

theorem trace_invariant {G : σ → α → Prop} {J : List (Entry σ α ω) → σ → Prop} {s₀ : σ}
    (hstart : J [] s₀)
    (hstep : ∀ past s a, J past s → G s a → J (past ++ [⟨s,a,(step s a).2⟩]) (step s a).1)
    (calls : List α) (hok : ∀ e ∈ history step s₀ calls, G e.before e.call) :
    J (history step s₀ calls) (final step s₀ calls) :=
  past_invariant step (G := fun _ => G) hstart hstep calls (fun past e rest heq => hok e (by simp [heq]))

/-- An invariant of the state alone. -/
theorem state_invariant {G : σ → α → Prop} {I : σ → Prop} {s₀ : σ} (hstart : I s₀)
    (hstep : ∀ s a, I s → G s a → I (step s a).1)
    (calls : List α) (hok : ∀ e ∈ history step s₀ calls, G e.before e.call) :
    (∀ e ∈ history step s₀ calls, I e.before) ∧ I (final step s₀ calls) := by
  refine trace_invariant step (J := fun past s => (∀ e ∈ past, I e.before) ∧ I s) ⟨by simp,hstart⟩ ?_
    calls hok
  rintro past s a ⟨hpast,hs⟩ ha
  refine ⟨?_,hstep s a hs ha⟩
  intro e he
  rcases List.mem_append.mp he with he | he
  · exact hpast e he
  · exact (List.mem_singleton.mp he) ▸ hs

/-- A run keeps an invariant exactly if each step meets the condition under which one step does. -/
theorem invariant_iff {G : σ → α → Prop} {I : σ → Prop} {s₀ : σ} (hstart : I s₀)
    (hstep : ∀ s a, I s → (G s a ↔ I (step s a).1)) (calls : List α) :
    (∀ e ∈ history step s₀ calls, G e.before e.call) ↔
      (∀ e ∈ history step s₀ calls, I e.before) ∧ I (final step s₀ calls) := by
  constructor
  · exact state_invariant step hstart (fun s a hs ha => (hstep s a hs).mp ha) calls
  · rintro ⟨hbefore,hfinal⟩ e he
    obtain ⟨xs,ys,rfl,hstate⟩ := history_split step he
    refine (hstep e.before e.call (hbefore e he)).mpr ?_
    rw [hstate]
    cases ys with
    | nil => rwa [final_append] at hfinal
    | cons b ys =>
      have hnext := mem_history step s₀ (xs ++ [e.call]) b ys
      rw [final_append, List.append_assoc] at hnext
      exact hbefore _ hnext

/-- Nothing is announced twice exactly if no two places of the list announce the same. -/
theorem nodup_announced_iff {β : Type*} {announce : α → Option β} {l : List α} :
    (l.filterMap announce).Nodup ↔
      ∀ past a rest, l = past ++ a :: rest → ∀ b, announce a = some b → b ∉ past.filterMap announce := by
  constructor
  · rintro h past a rest rfl b hb hmem
    rw [List.filterMap_append, List.filterMap_cons_some hb, List.nodup_append] at h
    exact h.2.2 b hmem b List.mem_cons_self rfl
  · intro h
    induction l using List.reverseRecOn with
    | nil => simp
    | append_singleton l a ih =>
      have hbefore := ih (fun past a' rest heq => h past a' (rest ++ [a]) (by simp [heq]))
      cases hb : announce a with
      | none => simpa [List.filterMap_append, hb] using hbefore
      | some b =>
        have hfresh := h l a [] rfl b hb
        simp only [List.filterMap_append, List.filterMap_cons_some hb, List.filterMap_nil]
        refine List.nodup_append.mpr ⟨hbefore,by simp,?_⟩
        rintro x hx y hy rfl
        exact hfresh (List.mem_singleton.mp hy ▸ hx)

section Component

variable {τ β ο : Type*} (inner : τ → β → τ × ο) (proj : σ → τ) (calls : σ → α → List β)

def innerCalls (s : σ) (xs : List α) : List β :=
  (history step s xs).flatMap (fun e => calls e.before e.call)

theorem innerCalls_cons (s : σ) (a : α) (xs : List α) :
    innerCalls step calls s (a :: xs) = calls s a ++ innerCalls step calls (step s a).1 xs := rfl

/-- A part of the state that moves by a machine of its own has a history of that machine. -/
theorem history_component (h : ∀ s a, proj (step s a).1 = final inner (proj s) (calls s a))
    (s : σ) (xs : List α) :
    history inner (proj s) (innerCalls step calls s xs) =
      (history step s xs).flatMap (fun e => history inner (proj e.before) (calls e.before e.call)) := by
  induction xs generalizing s with
  | nil => rfl
  | cons a xs ih =>
    rw [innerCalls_cons, history_append, ← h, ih, history_cons, List.flatMap_cons]

end Component

section Network

variable {ι : Type*} [DecidableEq ι]

def netStep (nodes : ι → σ) (d : ι × α) : (ι → σ) × ω :=
  (Function.update nodes d.1 (step (nodes d.1) d.2).1, (step (nodes d.1) d.2).2)

def callsTo (i : ι) (ds : List (ι × α)) : List α :=
  ds.filterMap (fun d => if d.1 = i then some d.2 else none)

theorem mem_callsTo {i : ι} {ds : List (ι × α)} {a : α} : a ∈ callsTo i ds ↔ (i,a) ∈ ds := by
  simp only [callsTo, List.mem_filterMap]
  constructor
  · rintro ⟨⟨j,b⟩,hmem,heq⟩
    split at heq
    · rename_i hj
      cases heq
      exact hj ▸ hmem
    · cases heq
  · intro h
    exact ⟨(i,a),h,by simp⟩

/-- In a network each party is where its own calls have brought it. -/
theorem final_netStep (nodes : ι → σ) (ds : List (ι × α)) (i : ι) :
    final (netStep step) nodes ds i = final step (nodes i) (callsTo i ds) := by
  induction ds generalizing nodes with
  | nil => rfl
  | cons d ds ih =>
    rw [final_cons, ih]
    by_cases h : d.1 = i
    · subst h
      simp [callsTo, netStep]
    · simp [callsTo, netStep, h, Function.update_of_ne (Ne.symm h)]

theorem netStep_entry {nodes : ι → σ} {ds : List (ι × α)} {e : Entry (ι → σ) (ι × α) ω}
    (he : e ∈ history (netStep step) nodes ds) :
    ⟨e.before e.call.1,e.call.2,e.output⟩ ∈
      history step (nodes e.call.1) (callsTo e.call.1 ds) := by
  obtain ⟨xs,ys,hsplit,hbefore⟩ := history_split _ he
  have hout := output_eq _ he
  have hcalls : callsTo e.call.1 ds =
      callsTo e.call.1 xs ++ e.call.2 :: callsTo e.call.1 ys := by
    simp [hsplit, callsTo, List.filterMap_append]
  rw [hcalls, history_append, history_cons, hbefore, final_netStep, hout, hbefore]
  simp [netStep, final_netStep]

/-- A party's own history is in that of the network. -/
theorem entry_netStep {nodes : ι → σ} {ds : List (ι × α)} {i : ι} {e : Entry σ α ω}
    (he : e ∈ history step (nodes i) (callsTo i ds)) :
    ∃ e' ∈ history (netStep step) nodes ds, e'.call = (i,e.call) ∧ e'.before i = e.before := by
  induction ds generalizing nodes with
  | nil => cases he
  | cons d ds ih =>
    obtain ⟨j,a⟩ := d
    by_cases hj : j = i
    · subst hj
      have hcalls : callsTo j ((j,a) :: ds) = a :: callsTo j ds := by simp [callsTo]
      rw [hcalls, history_cons] at he
      rcases List.mem_cons.mp he with rfl | he
      · exact ⟨_,List.mem_cons_self ..,rfl,rfl⟩
      · have hnode : (netStep step nodes (j,a)).1 j = (step (nodes j) a).1 := by simp [netStep]
        rw [← hnode] at he
        obtain ⟨e',he',hcall⟩ := ih he
        exact ⟨e',List.mem_cons_of_mem _ he',hcall⟩
    · have hcalls : callsTo i ((j,a) :: ds) = callsTo i ds := by simp [callsTo, hj]
      have hnode : (netStep step nodes (j,a)).1 i = nodes i := by
        simp [netStep, Function.update_of_ne (Ne.symm hj)]
      rw [hcalls, ← hnode] at he
      obtain ⟨e',he',hcall⟩ := ih he
      exact ⟨e',List.mem_cons_of_mem _ he',hcall⟩

end Network

end ZbxChain.Machine
