import ZbxChain.Execution.Executor

/-! # Views that give the same answers

Two views agree on what a view can be asked: accounts, words, codes, logs. A program run on both
gets the same answers and leaves views that agree again.

What holds of the result from whatever view is a postcondition of a program. What the dispatcher
of the staking calls keeps true of its state, a block keeps true of it.
-/
namespace ZbxChain

section Views

structure SameView (v w : ExecView) : Prop where
  accounts : ∀ addr, v.state.overlay.account? addr = w.state.overlay.account? addr
  toDelete : ∀ addr, addr ∈ v.state.toDelete ↔ addr ∈ w.state.toDelete
  words : ∀ addr slot, v.state.getStorage addr slot = w.state.getStorage addr slot
  codes : ∀ codeHash, v.codes.lookup codeHash = w.codes.lookup codeHash
  logs : v.logs = w.logs

variable {u v w : ExecView}

theorem SameView.refl (v : ExecView) : SameView v v :=
  ⟨fun _ => rfl,fun _ => Iff.rfl,fun _ _ => rfl,fun _ => rfl,rfl⟩

theorem SameView.trans (h : SameView u v) (h' : SameView v w) : SameView u w :=
  ⟨fun addr => (h.accounts addr).trans (h'.accounts addr),
    fun addr => (h.toDelete addr).trans (h'.toDelete addr),
    fun addr slot => (h.words addr slot).trans (h'.words addr slot),
    fun codeHash => (h.codes codeHash).trans (h'.codes codeHash),h.logs.trans h'.logs⟩

theorem getAccount_eq_account? (view : StateView) (addr : Address) :
    view.getAccount addr = (view.overlay.account? addr).getD .fresh := by
  unfold StateView.getAccount
  by_cases hdeleted : addr ∈ view.toDelete
  · rw [if_pos hdeleted, Overlay.account?_of_mem hdeleted]
    rfl
  · rw [if_neg hdeleted, Overlay.account?_of_not_mem hdeleted]
    dsimp only [StateView.overlay]
    cases view.accounts.lookup addr with
    | some state => rfl
    | none => rfl

theorem account?_setAccount (view : StateView) (addr a : Address) (state : AccountState) :
    (view.setAccount addr state).overlay.account? a =
      if a = addr then some (if addr ∈ view.toDelete then state else guarded (view.getAccount addr) state)
      else view.overlay.account? a := by
  obtain ⟨hbase,-,hdelete,haccounts⟩ := view.setAccount_eq addr state
  by_cases ha : a = addr
  · subst ha
    have hlive : a ∉ (view.setAccount a state).overlay.toDelete := by
      dsimp only [StateView.overlay]
      rw [hdelete]
      simp
    rw [Overlay.account?_of_not_mem hlive, if_pos rfl]
    dsimp only [StateView.overlay]
    rw [haccounts, AList.lookup_insert, Option.some_or]
  · rw [if_neg ha]
    refine Overlay.account?_congr ?_ ?_ ?_
    · dsimp only [StateView.overlay]
      rw [hdelete]
      simp [ha]
    · dsimp only [StateView.overlay]
      rw [haccounts, AList.lookup_insert_ne ha]
    · dsimp only [StateView.overlay]
      rw [hbase]

theorem account?_selfdestruct (view : StateView) (addr a : Address) :
    (view.selfdestruct addr).overlay.account? a = if a = addr then none else view.overlay.account? a := by
  by_cases ha : a = addr
  · subst ha
    rw [if_pos rfl]
    exact Overlay.account?_of_mem List.mem_insert_self
  · rw [if_neg ha]
    refine Overlay.account?_congr ?_ (AList.lookup_erase_ne ha) rfl
    exact ⟨fun hmem => (List.mem_insert_iff.mp hmem).resolve_left ha,List.mem_insert_of_mem⟩

theorem SameView.getAccount_eq (h : SameView v w) (addr : Address) : v.getAccount addr = w.getAccount addr := by
  rw [ExecView.getAccount, getAccount_eq_account?, h.accounts, ← getAccount_eq_account?]
  rfl

theorem SameView.getCode_eq (h : SameView v w) (addr : Address) : v.getCode addr = w.getCode addr := by
  simp only [ExecView.getCode]
  rw [h.getAccount_eq addr, h.codes]

theorem SameView.setAccount (h : SameView v w) (addr : Address) (state : AccountState) :
    SameView { v with state := v.state.setAccount addr state }
      { w with state := w.state.setAccount addr state } := by
  obtain ⟨-,hwords,hdelete,-⟩ := v.state.setAccount_eq addr state
  obtain ⟨-,hwords',hdelete',-⟩ := w.state.setAccount_eq addr state
  have hprior : v.state.getAccount addr = w.state.getAccount addr := h.getAccount_eq addr
  refine ⟨?_,?_,?_,h.codes,h.logs⟩
  · intro a
    dsimp only
    rw [account?_setAccount, account?_setAccount, hprior, h.accounts]
    simp only [h.toDelete]
  · intro a
    dsimp only
    rw [hdelete, hdelete', List.mem_filter, List.mem_filter, h.toDelete]
  · intro a slot
    dsimp only [StateView.getStorage]
    rw [hwords, hwords']
    exact h.words a slot

theorem SameView.setStorage (h : SameView v w) (addr : Address) (slot value : U256) :
    SameView { v with state := v.state.setStorage addr slot value }
      { w with state := w.state.setStorage addr slot value } := by
  refine ⟨h.accounts,h.toDelete,?_,h.codes,h.logs⟩
  intro a r
  have hword := h.words a r
  dsimp only [StateView.getStorage, StateView.setStorage] at hword ⊢
  rw [readSlot_writeSlot, readSlot_writeSlot, hword]

theorem SameView.seedCode (h : SameView v w) (codeHash : H256) (code : List UInt8) :
    SameView (v.seedCode codeHash code) (w.seedCode codeHash code) := by
  refine ⟨h.accounts,h.toDelete,h.words,?_,h.logs⟩
  intro c
  dsimp only [ExecView.seedCode]
  by_cases hc : c = codeHash
  · subst hc
    rw [AList.lookup_insert, AList.lookup_insert]
  · rw [AList.lookup_insert_ne hc, AList.lookup_insert_ne hc, h.codes]

theorem SameView.selfdestruct (h : SameView v w) (addr : Address) :
    SameView { v with state := v.state.selfdestruct addr }
      { w with state := w.state.selfdestruct addr } := by
  refine ⟨?_,?_,?_,h.codes,h.logs⟩
  · intro a
    dsimp only
    rw [account?_selfdestruct, account?_selfdestruct, h.accounts]
  · intro a
    dsimp only [StateView.selfdestruct]
    rw [List.mem_insert_iff, List.mem_insert_iff, h.toDelete]
  · intro a slot
    have hword := h.words a slot
    dsimp only [StateView.selfdestruct, StateView.getStorage] at hword ⊢
    rw [readSlot_erase, readSlot_erase, hword]

/-- One access cannot tell two views of the same state apart. -/
theorem SameView.step (h : SameView v w) (access : StateAccess) :
    (ExecView.answer access v).1 = (ExecView.answer access w).1 ∧
      SameView (ExecView.answer access v).2 (ExecView.answer access w).2 := by
  cases access with
  | getAccount addr => exact ⟨h.getAccount_eq addr,h⟩
  | setAccount addr state => exact ⟨rfl,h.setAccount addr state⟩
  | getStorage addr slot => exact ⟨h.words addr slot,h⟩
  | setStorage addr slot value => exact ⟨rfl,h.setStorage addr slot value⟩
  | getCode addr => exact ⟨h.getCode_eq addr,h⟩
  | seedCode codeHash code => exact ⟨rfl,h.seedCode codeHash code⟩
  | emitLog log => exact ⟨rfl,h.accounts,h.toDelete,h.words,h.codes,congrArg (· ++ [log]) h.logs⟩
  | selfdestruct addr => exact ⟨rfl,h.selfdestruct addr⟩
  | isDeleted addr =>
    refine ⟨?_,h⟩
    simp only [ExecView.answer, ExecView.isDeleted, h.toDelete]
  | logCount => exact ⟨congrArg List.length h.logs,h⟩
  | drainLogs start =>
    exact ⟨congrArg (List.drop start) h.logs,h.accounts,h.toDelete,h.words,h.codes,
      congrArg (List.take start) h.logs⟩
  | persistProposalRegistry => exact ⟨rfl,h.accounts,h.toDelete,h.words,h.codes,h.logs⟩

/-- Nor can a program of accesses. -/
theorem SameView.run {α : Type} (h : SameView v w) (p : StateProgram α) :
    (p.run ExecView.answer v).1 = (p.run ExecView.answer w).1 ∧
      SameView (p.run ExecView.answer v).2 (p.run ExecView.answer w).2 :=
  Program.run_simulates (R := SameView)
    (fun access _ _ hsame _ => hsame.step access) p v w h
    (Program.along_of_forall (fun _ _ => trivial) p (v,w))

end Views

section Runs
variable {α β : Type} {v w : ExecView}

/-- Two runs both end with an error, or both end well and in related views. -/
def Parallel : Except ExecutionError α × ExecView → Except ExecutionError β × ExecView → Prop
  | (.ok _,v), (.ok _,w) => SameView v w
  | (.error _,_), (.error _,_) => True
  | _, _ => False

def TxProgram.runOn (p : TxProgram α) (view : ExecView) : Except ExecutionError α × ExecView :=
  p.run.run ExecView.answer view

theorem TxProgram.runOn_bind (p : TxProgram α) (f : α → TxProgram β) (view : ExecView) :
    TxProgram.runOn (p >>= f) view = match TxProgram.runOn p view with
      | (.ok a,view) => TxProgram.runOn (f a) view
      | (.error e,view) => (.error e,view) := by
  unfold TxProgram.runOn
  rw [ExceptT.run_bind, Program.run_bind]
  rcases p.run.run ExecView.answer view with ⟨e | a,after⟩
  · rfl
  · rfl

theorem TxProgram.runOn_lift (p : StateProgram α) (view : ExecView) :
    TxProgram.runOn (liftM p) view = (.ok (p.run ExecView.answer view).1,(p.run ExecView.answer view).2) := by
  have hlift : (liftM p : TxProgram α).run = p >>= fun a => pure (.ok a) := rfl
  rw [runOn, hlift, Program.run_bind, Program.run_pure]

theorem TxProgram.runOn_pure (a : α) (view : ExecView) :
    TxProgram.runOn (pure a : TxProgram α) view = (.ok a,view) := rfl

theorem TxProgram.runOn_throw (e : ExecutionError) (view : ExecView) :
    TxProgram.runOn (throw e : TxProgram α) view = (.error e,view) := rfl

theorem TxProgram.runOn_ite {c : Prop} [Decidable c] (p q : TxProgram α) (view : ExecView) :
    (if c then p else q).runOn view = if c then p.runOn view else q.runOn view := by
  split
  · rfl
  · rfl

theorem parallel_of_eq {x y : Except ExecutionError α × ExecView} (hresult : x.1 = y.1)
    (hviews : SameView x.2 y.2) : Parallel x y := by
  obtain ⟨_ | _,v⟩ := x
  · obtain ⟨_ | _,w⟩ := y
    · trivial
    · cases hresult
  · obtain ⟨_ | _,w⟩ := y
    · cases hresult
    · exact hviews

/-- Nor can a transaction, whose errors are the same too. -/
theorem SameView.runOn (h : SameView v w) (p : TxProgram α) : Parallel (p.runOn v) (p.runOn w) :=
  parallel_of_eq (h.run p.run).1 (h.run p.run).2

theorem Parallel.ok_iff {x : Except ExecutionError α × ExecView} {y : Except ExecutionError β × ExecView}
    (h : Parallel x y) : (∃ a, x.1 = .ok a) ↔ ∃ b, y.1 = .ok b := by
  obtain ⟨_ | _,v⟩ := x
  · obtain ⟨_ | _,w⟩ := y
    · exact iff_of_false nofun nofun
    · exact h.elim
  · obtain ⟨_ | _,w⟩ := y
    · exact h.elim
    · exact iff_of_true ⟨_,rfl⟩ ⟨_,rfl⟩

theorem Parallel.trans {x : Except ExecutionError α × ExecView} {γ : Type}
    {y : Except ExecutionError β × ExecView} {z : Except ExecutionError γ × ExecView}
    (hxy : Parallel x y) (hyz : Parallel y z) : Parallel x z := by
  obtain ⟨_ | _,v⟩ := x <;> obtain ⟨_ | _,w⟩ := y <;> obtain ⟨_ | _,u⟩ := z
  all_goals first | trivial | exact hxy.elim | exact hyz.elim | exact SameView.trans hxy hyz

end Runs

variable {α β : Type}

/-- What a program that ends well returns, from whatever view. -/
def TxProgram.Yields (p : TxProgram α) (Q : α → Prop) : Prop :=
  ∀ view a view', p.runOn view = (.ok a,view') → Q a

theorem TxProgram.Yields.bind {p : TxProgram α} {f : α → TxProgram β} {Q : α → Prop} {R : β → Prop}
    (hp : p.Yields Q) (hf : ∀ a, Q a → (f a).Yields R) : (p >>= f).Yields R := by
  intro view b view' h
  rw [TxProgram.runOn_bind] at h
  rcases hrun : p.runOn view with ⟨e | a,after⟩
  · rw [hrun] at h
    cases h
  · rw [hrun] at h
    exact hf a (hp view a after hrun) after b view' h

theorem TxProgram.Yields.pure {a : α} {Q : α → Prop} (h : Q a) :
    TxProgram.Yields (Pure.pure a : TxProgram α) Q := by
  intro view b view' hrun
  cases hrun
  exact h

theorem TxProgram.Yields.throw {e : ExecutionError} {Q : α → Prop} :
    TxProgram.Yields (MonadExcept.throw e : TxProgram α) Q := by
  intro view b view' hrun
  cases hrun

theorem TxProgram.Yields.throw_bind {e : ExecutionError} {f : β → TxProgram α} {Q : α → Prop} :
    TxProgram.Yields ((MonadExcept.throw e : TxProgram β) >>= f) Q := by
  intro view b view' hrun
  cases hrun

theorem TxProgram.Yields.any {p : TxProgram α} : p.Yields (fun _ => True) := fun _ _ _ _ => trivial

theorem TxProgram.Yields.and {p : TxProgram α} {Q R : α → Prop} (hQ : p.Yields Q) (hR : p.Yields R) :
    p.Yields (fun a => Q a ∧ R a) :=
  fun view a view' h => ⟨hQ view a view' h,hR view a view' h⟩

theorem TxProgram.Yields.lift {p : StateProgram α} {Q : α → Prop}
    (h : ∀ view, Q (p.run ExecView.answer view).1) : TxProgram.Yields (liftM p) Q := by
  intro view a view' hrun
  rw [TxProgram.runOn_lift] at hrun
  cases hrun
  exact h view

theorem yields_debitSender (tx : SignedTransaction) (header : BlockHeader) :
    (debitSender tx header).Yields fun charge =>
      charge = ⟨tx.effectiveGasPrice header.baseFeePerGas,tx.tx.maxFeePerGas.toNat * tx.tx.gasLimit.toNat,
          tx.tx.valueU128,tx.tx.intrinsicGas⟩ ∧
        tx.tx.intrinsicGas ≤ tx.tx.gasLimit := by
  unfold debitSender
  refine .bind .any fun sender _ => ?_
  split
  · exact .throw_bind
  · dsimp only
    split
    · exact .throw_bind
    · split
      · exact .throw_bind
      · rename_i hlimit
        split
        · exact .throw
        · exact .bind .any fun _ _ => .pure ⟨rfl,UInt64.not_lt.mp hlimit⟩

section Kept
variable {V K : Type} {P : Platform} {M : Machines} {S : StakingPrecompile V K} {C : Commitments}

/-- The dispatcher keeps `I` of its state, whether the call is accepted or refused. -/
def StakingPrecompile.Keeps (S : StakingPrecompile V K) (I : V → Prop) : Prop :=
  ∀ call sender value height state view, I state →
    I ((S.dispatch call sender value height state).run ExecView.answer view).1.1

variable {I : V → Prop}

theorem kept_executeStakingTx (hkeeps : S.Keeps I) (tx : SignedTransaction) (header : BlockHeader)
    (state : V) (hstate : I state) : (executeStakingTx S tx header state).Yields fun r => I r.1 := by
  unfold executeStakingTx
  refine .bind .any fun charge _ => .bind (Q := fun r => I r.1) (.lift fun view => ?_) ?_
  · cases S.decode tx.tx.data with
    | none => exact hstate
    | some call =>
      dsimp only
      split
      · exact hstate
      · exact hkeeps call _ _ _ state view hstate
  · rintro ⟨after,dispatched⟩ hafter
    refine .bind .any fun _ _ => ?_
    split
    · split
      · exact .bind .any fun _ _ => .pure hafter
      · exact .pure hafter
    · exact .bind .any fun _ _ => .pure hafter

theorem kept_executeAny (hkeeps : S.Keeps I) (tx : SignedTransaction) (header : BlockHeader)
    (state : V) (hstate : I state) :
    (executeAny P M S tx header (some state)).Yields fun r => ∃ after, r.1 = some after ∧ I after := by
  unfold executeAny
  dsimp only
  split
  · exact .bind (kept_executeStakingTx hkeeps tx header state hstate) fun r hr => .pure ⟨r.1,rfl,hr⟩
  · exact .bind .any fun _ _ => .pure ⟨state,rfl,hstate⟩

/-- The state of the dispatcher in the middle of a block. -/
def Progress.Has (I : V → Prop) (progress : Progress V) : Prop :=
  ∃ state, progress.validators = some state ∧ I state

theorem has_executeOne (hkeeps : S.Keeps I) (block : Block) (progress : Progress V)
    (hprogress : progress.Has I) (tx : SignedTransaction) :
    (executeOne P M S C block progress tx).Yields (Progress.Has I) := by
  obtain ⟨state,hsome,hstate⟩ := hprogress
  unfold executeOne
  rw [hsome]
  refine .bind (kept_executeAny hkeeps tx block.header state hstate) ?_
  rintro ⟨validators,result⟩ hvalidators
  exact .bind .any fun _ _ => .pure hvalidators

theorem has_executeAll (hkeeps : S.Keeps I) (block : Block) (txs : List SignedTransaction)
    (progress : Progress V) (hprogress : progress.Has I) :
    (executeAll P M S C block progress txs).Yields (Progress.Has I) := by
  induction txs generalizing progress with
  | nil => exact .pure hprogress
  | cons tx rest ih =>
    unfold executeAll
    exact .bind (has_executeOne hkeeps block progress hprogress tx) fun after hafter => ih after hafter

/-- What every access keeps holds wherever a block stops. -/
theorem has_runBlock (hkeeps : S.Keeps I) (block : Block) (state : V) (hstate : I state) :
    (runBlock P M S C block (some state)).Yields (Progress.Has I) := by
  unfold runBlock
  split
  · exact .throw_bind
  · refine .bind (has_executeAll hkeeps block _ _ ⟨state,rfl,hstate⟩) fun progress hprogress => ?_
    dsimp only
    split
    · exact .bind .any fun _ _ => .pure hprogress
    · exact .pure hprogress

/-- How far the loop over the transactions comes before one is refused. -/
def progressReached (P : Platform) (M : Machines) (S : StakingPrecompile V K) (C : Commitments)
    (block : Block) : Progress V → List SignedTransaction → ExecView → Progress V
  | progress, [], _ => progress
  | progress, tx :: rest, view =>
    match (executeOne P M S C block progress tx).runOn view with
    | (.ok progress,view) => progressReached P M S C block progress rest view
    | (.error _,_) => progress

end Kept

end ZbxChain
