import ZbxChain.State.StateDb

/-! # `zbx_execution::executor::StateView`, and where it agrees with `StateDB` -/
namespace ZbxChain

/-- The diffs are fields of the view. -/
structure StateView where
  base : Accounts
  accounts : Accounts
  storage : Storage
  deleted : List Address
  toDelete : AddressSet

namespace StateView

def new : StateView := ⟨∅,∅,∅,[],[]⟩

def seedAccount (view : StateView) (addr : Address) (state : AccountState) : StateView :=
  { view with base := view.base.insert addr state }

def selfdestruct (view : StateView) (addr : Address) : StateView :=
  { view with
    accounts := view.accounts.erase addr
    storage := view.storage.erase addr
    deleted := view.deleted ++ [addr]
    toDelete := view.toDelete.insert addr }

def getAccount (view : StateView) (addr : Address) : AccountState :=
  if addr ∈ view.toDelete then .fresh
  else (view.accounts.lookup addr).getD ((view.base.lookup addr).getD .fresh)

def setAccount (view : StateView) (addr : Address) (state : AccountState) : StateView :=
  if addr ∈ view.toDelete then
    { view with
      toDelete := view.toDelete.filter (fun a => decide (a ≠ addr))
      deleted := view.deleted.filter (fun a => decide (a ≠ addr))
      accounts := view.accounts.insert addr state }
  else
    let prior := (view.accounts.lookup addr).getD ((view.base.lookup addr).getD .fresh)
    { view with accounts := view.accounts.insert addr (guarded prior state) }

def getStorage (view : StateView) (addr : Address) (slot : H256) : H256 :=
  readSlot view.storage addr slot

def setStorage (view : StateView) (addr : Address) (slot value : H256) : StateView :=
  { view with storage := writeSlot view.storage addr slot value }

/-- What `state_root` hands to `compute_state_root_filtered`. -/
def overlay (view : StateView) : Overlay := ⟨view.base,view.accounts,view.storage,view.toDelete⟩

def stateRoot (P : Platform) (view : StateView) : Except Fault H256 :=
  computeStateRootFiltered P view.base view.accounts view.storage view.toDelete

end StateView

inductive StateOp where
  | setAccount (addr : Address) (state : AccountState)
  | setStorage (addr : Address) (slot value : H256)
  | selfdestruct (addr : Address)
  deriving DecidableEq

def StateDb.apply (db : StateDb) : StateOp → StateDb
  | .setAccount addr state => db.setAccount addr state
  | .setStorage addr slot value => db.setStorage addr slot value
  | .selfdestruct addr => db.selfdestruct addr

def StateView.apply (view : StateView) : StateOp → StateView
  | .setAccount addr state => view.setAccount addr state
  | .setStorage addr slot value => view.setStorage addr slot value
  | .selfdestruct addr => view.selfdestruct addr

def StateDb.after (seeds : List (Address × AccountState)) (ops : List StateOp) : StateDb :=
  ops.foldl StateDb.apply (seeds.foldl (fun db e => db.seedAccount e.1 e.2) .new)

def StateView.after (seeds : List (Address × AccountState)) (ops : List StateOp) : StateView :=
  ops.foldl StateView.apply (seeds.foldl (fun view e => view.seedAccount e.1 e.2) .new)

section Agreement

/-- The guards of `set_account` let the account through as it is. -/
def Respects (db : StateDb) : StateOp → Prop
  | .setAccount addr state =>
    ¬ state.nonce < (db.prior addr).nonce ∧
      ((db.prior addr).isContract = true →
        state.codeHash = (db.prior addr).codeHash ∨ state.codeHash = emptyCodeHash)
  | _ => True

/-- The steps that the two overlays take alike: only an account without a past in the base
and without words is destroyed; and an account is set where both slot maps have entries
or neither has, or its leaf does not depend on that. -/
def Alike (db : StateDb) (view : StateView) : StateOp → Prop
  | .setAccount addr state =>
    db.overlay.noEntries addr = view.overlay.noEntries addr ∨
      state.isEmpty = false ∧ state.storageRoot = emptyStorageRoot
  | .setStorage _ _ _ => True
  | .selfdestruct addr =>
    (db.baseAccounts.lookup addr).getD .fresh = .fresh ∧ ∀ slot, db.getStorage addr slot = 0

/-- Both overlays hold one state, with slot maps that make no difference to the leaves. -/
structure Agree (db : StateDb) (view : StateView) : Prop where
  base : db.baseAccounts = view.base
  dirty : ∀ addr, db.dirtyAccounts.lookup addr = view.accounts.lookup addr
  tombstones : ∀ addr, addr ∈ db.toDelete ↔ addr ∈ view.toDelete
  destroyed : ∀ addr ∈ db.toDelete, db.getAccount addr = .fresh
  words : ∀ addr slot, db.getStorage addr slot = view.getStorage addr slot
  maps : ∀ addr state, db.overlay.account? addr = some state →
    db.overlay.noEntries addr = view.overlay.noEntries addr ∨
      state.isEmpty = false ∧ state.storageRoot = emptyStorageRoot

variable {db : StateDb} {view : StateView}

theorem guarded_eq {prior state : AccountState} (hnonce : ¬ state.nonce < prior.nonce)
    (hcode : prior.isContract = true → state.codeHash = prior.codeHash ∨ state.codeHash = emptyCodeHash) :
    guarded prior state = state := by
  unfold guarded
  rw [if_neg hnonce]
  split
  · rfl
  · rename_i hcontract
    rcases hcode (by simpa using hcontract) with hsame | hempty
    · rw [if_pos hsame]
    · rw [if_pos hempty]
      split
      · rfl
      · rfl

theorem Agree.getAccount_eq (h : Agree db view) (addr : Address) :
    db.getAccount addr = view.getAccount addr := by
  unfold StateView.getAccount
  split
  · rename_i hdeleted
    exact h.destroyed addr ((h.tombstones addr).mpr hdeleted)
  · unfold StateDb.getAccount
    rw [h.dirty, h.base]

theorem Agree.account?_eq (h : Agree db view) (addr : Address) :
    db.overlay.account? addr = view.overlay.account? addr :=
  Overlay.account?_congr (h.tombstones addr) (h.dirty addr)
    (congrArg (fun accounts => AList.lookup addr accounts) h.base)

theorem Agree.sameState (h : Agree db view) : Overlay.SameState db.overlay view.overlay := by
  intro addr
  refine ⟨?_,h.words addr⟩
  unfold Overlay.account
  rw [h.account?_eq]

theorem Agree.aligned (h : Agree db view) : Overlay.Aligned db.overlay view.overlay := by
  intro addr
  have hmaps := h.maps addr
  unfold Overlay.hasLeaf Overlay.inherited Overlay.account
  rw [← h.account?_eq]
  cases haccount : db.overlay.account? addr with
  | none => exact ⟨rfl,nofun⟩
  | some state =>
    rcases hmaps state haccount with hsame | ⟨hsome,hroot⟩
    · rw [hsame]
      exact ⟨rfl,fun _ => rfl⟩
    · simp only [hsome, Bool.false_and, Option.getD_some, hroot, ite_self]
      exact ⟨trivial,fun _ => trivial⟩

theorem agree_setStorage (h : Agree db view) (addr : Address) (slot value : H256) :
    Agree (db.setStorage addr slot value) (view.setStorage addr slot value) where
  base := h.base
  dirty := h.dirty
  tombstones := h.tombstones
  destroyed := h.destroyed
  words := by
    intro a r
    have hword := h.words a r
    unfold StateDb.getStorage StateView.getStorage at hword ⊢
    rw [StateDb.setStorage, StateView.setStorage, readSlot_writeSlot, readSlot_writeSlot, hword]
  maps := by
    intro a state haccount
    have hmaps := h.maps a state haccount
    unfold Overlay.noEntries StateDb.overlay StateView.overlay at hmaps ⊢
    dsimp only [StateDb.setStorage, StateView.setStorage] at hmaps ⊢
    rw [cacheIsEmpty_writeSlot, cacheIsEmpty_writeSlot]
    by_cases ha : a = addr
    · rw [if_pos ha, if_pos ha]
      exact Or.inl rfl
    · rwa [if_neg ha, if_neg ha]

theorem agree_selfdestruct (h : Agree db view) {addr : Address}
    (hfresh : (db.baseAccounts.lookup addr).getD .fresh = .fresh)
    (hwords : ∀ slot, db.getStorage addr slot = 0) :
    Agree (db.selfdestruct addr) (view.selfdestruct addr) where
  base := h.base
  dirty := by
    intro a
    dsimp only [StateDb.selfdestruct, StateView.selfdestruct]
    by_cases ha : a = addr
    · subst ha
      rw [AList.lookup_erase, AList.lookup_erase]
    · rw [AList.lookup_erase_ne ha, AList.lookup_erase_ne ha, h.dirty]
  tombstones := by
    intro a
    dsimp only [StateDb.selfdestruct, StateView.selfdestruct]
    rw [List.mem_insert_iff, List.mem_insert_iff, h.tombstones]
  destroyed := by
    intro a hdeleted
    dsimp only [StateDb.selfdestruct] at hdeleted
    unfold StateDb.getAccount
    dsimp only [StateDb.selfdestruct]
    by_cases ha : a = addr
    · subst ha
      rw [AList.lookup_erase]
      exact hfresh
    · rw [AList.lookup_erase_ne ha]
      exact h.destroyed a ((List.mem_insert_iff.mp hdeleted).resolve_left ha)
  words := by
    intro a r
    have hword := h.words a r
    unfold StateDb.getStorage StateView.getStorage at hword ⊢
    dsimp only [StateDb.selfdestruct, StateView.selfdestruct]
    rw [readSlot_erase]
    by_cases ha : a = addr
    · subst ha
      rw [if_pos rfl]
      exact hwords r
    · rw [if_neg ha, hword]
  maps := by
    intro a state haccount
    by_cases ha : a = addr
    · subst ha
      have hdeleted : a ∈ (db.selfdestruct a).overlay.toDelete := List.mem_insert_self
      rw [Overlay.account?_of_mem hdeleted] at haccount
      cases haccount
    · have hkept : a ∈ db.toDelete.insert addr ↔ a ∈ db.toDelete :=
        ⟨fun hmem => (List.mem_insert_iff.mp hmem).resolve_left ha,List.mem_insert_of_mem⟩
      have hsame : (db.selfdestruct addr).overlay.account? a = db.overlay.account? a :=
        Overlay.account?_congr hkept (AList.lookup_erase_ne ha) rfl
      have hmaps := h.maps a state (hsame ▸ haccount)
      unfold Overlay.noEntries StateDb.overlay StateView.overlay at hmaps ⊢
      dsimp only [StateDb.selfdestruct, StateView.selfdestruct]
      rwa [AList.lookup_erase_ne ha]

theorem StateView.setAccount_eq (view : StateView) (addr : Address) (state : AccountState) :
    (view.setAccount addr state).base = view.base ∧ (view.setAccount addr state).storage = view.storage ∧
      (view.setAccount addr state).toDelete = view.toDelete.filter (fun a => decide (a ≠ addr)) ∧
      (view.setAccount addr state).accounts = view.accounts.insert addr
        (if addr ∈ view.toDelete then state else guarded (view.getAccount addr) state) := by
  unfold setAccount getAccount
  by_cases hdeleted : addr ∈ view.toDelete
  · rw [if_pos hdeleted, if_pos hdeleted]
    exact ⟨rfl,rfl,rfl,rfl⟩
  · rw [if_neg hdeleted, if_neg hdeleted, if_neg hdeleted]
    refine ⟨rfl,rfl,?_,rfl⟩
    refine (List.filter_eq_self.mpr (fun a ha => ?_)).symm
    exact decide_eq_true (fun heq => hdeleted (heq ▸ ha))

theorem setAccount_view_eq (h : Agree db view) {addr : Address} {state : AccountState}
    (hguards : Respects db (.setAccount addr state)) :
    (view.setAccount addr state).base = view.base ∧
      (view.setAccount addr state).storage = view.storage ∧
      (view.setAccount addr state).accounts = view.accounts.insert addr state ∧
      ∀ a, a ∈ (view.setAccount addr state).toDelete ↔ a ∈ view.toDelete ∧ a ≠ addr := by
  obtain ⟨hbase,hstorage,hdelete,haccounts⟩ := view.setAccount_eq addr state
  refine ⟨hbase,hstorage,?_,fun a => ?_⟩
  · rw [haccounts]
    by_cases hdeleted : addr ∈ view.toDelete
    · rw [if_pos hdeleted]
    · have hlive : addr ∉ db.toDelete := fun hmem => hdeleted ((h.tombstones addr).mp hmem)
      have hprior : db.prior addr = view.getAccount addr := by
        rw [StateDb.prior, if_neg hlive, StateDb.getAccount, h.dirty, h.base, StateView.getAccount,
          if_neg hdeleted]
      obtain ⟨hnonce,hcode⟩ := hguards
      rw [hprior] at hnonce hcode
      rw [if_neg hdeleted, guarded_eq hnonce hcode]
  · rw [hdelete, List.mem_filter, decide_eq_true_eq]

theorem agree_setAccount (h : Agree db view) {addr : Address} {state : AccountState}
    (hguards : Respects db (.setAccount addr state)) (halike : Alike db view (.setAccount addr state)) :
    Agree (db.setAccount addr state) (view.setAccount addr state) := by
  have hstored : guarded (db.prior addr) state = state := guarded_eq hguards.1 hguards.2
  obtain ⟨hbase,hstorage,haccounts,htombstones⟩ := setAccount_view_eq h hguards
  have hdb : db.setAccount addr state =
      { db with
        toDelete := db.toDelete.filter (fun a => decide (a ≠ addr))
        dirtyAccounts := db.dirtyAccounts.insert addr state } := by
    rw [StateDb.setAccount, hstored]
  have hmem : ∀ a, a ∈ db.toDelete.filter (fun a => decide (a ≠ addr)) ↔ a ∈ db.toDelete ∧ a ≠ addr := by
    intro a
    rw [List.mem_filter, decide_eq_true_eq]
  rw [hdb]
  constructor
  · rw [hbase]
    exact h.base
  · intro a
    rw [haccounts]
    by_cases ha : a = addr
    · subst ha
      rw [AList.lookup_insert, AList.lookup_insert]
    · rw [AList.lookup_insert_ne ha, AList.lookup_insert_ne ha, h.dirty]
  · intro a
    rw [htombstones, hmem, h.tombstones]
  · intro a hdeleted
    obtain ⟨hdeleted,hne⟩ := (hmem a).mp hdeleted
    unfold StateDb.getAccount
    rw [AList.lookup_insert_ne hne]
    exact h.destroyed a hdeleted
  · intro a r
    unfold StateView.getStorage
    rw [hstorage]
    exact h.words a r
  · intro a st haccount
    have hview : (view.setAccount addr state).overlay.noEntries a = view.overlay.noEntries a := by
      unfold Overlay.noEntries StateView.overlay
      rw [hstorage]
    rw [hview]
    by_cases ha : a = addr
    · subst ha
      rw [Overlay.account?_of_not_mem (fun hdeleted => ((hmem a).mp hdeleted).2 rfl)] at haccount
      have hset : (db.dirtyAccounts.insert a state).lookup a = some state := AList.lookup_insert _
      unfold StateDb.overlay at haccount
      dsimp only at haccount
      rw [hset, Option.some_or] at haccount
      cases haccount
      exact halike
    · have hsame : ({ db with
            toDelete := db.toDelete.filter (fun a => decide (a ≠ addr))
            dirtyAccounts := db.dirtyAccounts.insert addr state } : StateDb).overlay.account? a =
          db.overlay.account? a :=
        Overlay.account?_congr ((hmem a).trans (and_iff_left ha)) (AList.lookup_insert_ne ha) rfl
      exact h.maps a st (hsame ▸ haccount)

theorem agree_step (h : Agree db view) {op : StateOp} (hguards : Respects db op)
    (halike : Alike db view op) : Agree (db.apply op) (view.apply op) := by
  cases op with
  | setAccount addr state => exact agree_setAccount h hguards halike
  | setStorage addr slot value => exact agree_setStorage h addr slot value
  | selfdestruct addr => exact agree_selfdestruct h halike.1 halike.2

theorem agree_seeds (seeds : List (Address × AccountState)) :
    Agree (StateDb.after seeds []) (StateView.after seeds []) := by
  have hseeds : ∀ (db : StateDb) (view : StateView), Agree db view → db.storageCache = ∅ →
      view.storage = ∅ → db.toDelete = [] →
      Agree (seeds.foldl (fun db e => db.seedAccount e.1 e.2) db)
        (seeds.foldl (fun view e => view.seedAccount e.1 e.2) view) := by
    induction seeds with
    | nil => exact fun _ _ h _ _ _ => h
    | cons e seeds ih =>
      intro db view h hdb hview hlive
      apply ih (db.seedAccount e.1 e.2) (view.seedAccount e.1 e.2) ?_ hdb hview hlive
      constructor
      · rw [StateDb.seedAccount, StateView.seedAccount, h.base]
      · exact h.dirty
      · exact h.tombstones
      · intro a ha
        rw [StateDb.seedAccount, hlive] at ha
        cases ha
      · exact h.words
      · intro a state _
        unfold Overlay.noEntries StateDb.overlay StateView.overlay
        dsimp only [StateDb.seedAccount, StateView.seedAccount]
        rw [hdb, hview]
        exact Or.inl rfl
  refine hseeds .new .new ⟨rfl,fun _ => rfl,fun _ => Iff.rfl,nofun,fun _ _ => rfl,?_⟩ rfl rfl rfl
  exact fun _ _ _ => Or.inl rfl

theorem agree_run {seeds : List (Address × AccountState)} {ops : List StateOp}
    (hops : ∀ past op rest, ops = past ++ op :: rest →
      Respects (StateDb.after seeds past) op ∧
        Alike (StateDb.after seeds past) (StateView.after seeds past) op) :
    Agree (StateDb.after seeds ops) (StateView.after seeds ops) := by
  induction ops using List.reverseRecOn with
  | nil => exact agree_seeds seeds
  | append_singleton ops op ih =>
    have hpast := ih (fun past op' rest heq => hops past op' (rest ++ [op]) (by rw [heq]; simp))
    obtain ⟨hguards,halike⟩ := hops ops op [] rfl
    have hstep := agree_step hpast hguards halike
    unfold StateDb.after StateView.after at hstep ⊢
    rwa [List.foldl_append, List.foldl_append]

/-- In a run whose steps the two overlays take alike, they never disagree. -/
theorem stateDb_stateView_agree {P P' : Platform} (hhash : P'.keccak256 = P.keccak256)
    (seeds : List (Address × AccountState)) (ops : List StateOp)
    (hguards : ∀ past op rest, ops = past ++ op :: rest → Respects (StateDb.after seeds past) op)
    (halike : ∀ past op rest, ops = past ++ op :: rest →
      Alike (StateDb.after seeds past) (StateView.after seeds past) op)
    (hkeccak : ∀ past, past <+: ops → Safe P
      {b | b ∈ (StateDb.after seeds past).overlay.hashed P ++
        (StateView.after seeds past).overlay.hashed P'}) :
    ∀ past, past <+: ops →
      (∀ addr, (StateDb.after seeds past).getAccount addr = (StateView.after seeds past).getAccount addr) ∧
      (∀ addr slot, (StateDb.after seeds past).getStorage addr slot =
        (StateView.after seeds past).getStorage addr slot) ∧
      (StateDb.after seeds past).stateRoot P = (StateView.after seeds past).stateRoot P' := by
  rintro past ⟨later,rfl⟩
  have hagree : Agree (StateDb.after seeds past) (StateView.after seeds past) := by
    apply agree_run
    intro past' op rest heq
    have hsplit : past ++ later = past' ++ op :: (rest ++ later) := by rw [heq]; simp
    exact ⟨hguards past' op _ hsplit,halike past' op _ hsplit⟩
  refine ⟨hagree.getAccount_eq,hagree.words,?_⟩
  exact Overlay.stateRoot_eq_of_aligned hhash hagree.sameState (hkeccak past (List.prefix_append _ _))
    hagree.aligned

/-- A word of a seeded account is written, the account is set, and an absent one destroyed. -/
def demoSeeds : List (Address × AccountState) := [(1,{ AccountState.fresh with nonce := 1 })]

def demoOps : List StateOp :=
  [.setStorage 1 5 7,.setAccount 1 { AccountState.fresh with nonce := 2 },.selfdestruct 3]

theorem stateDb_stateView_agree_three_ops :
    (StateDb.after demoSeeds demoOps).getAccount 1 = (StateView.after demoSeeds demoOps).getAccount 1 ∧
    (StateDb.after demoSeeds demoOps).getStorage 1 5 =
      (StateView.after demoSeeds demoOps).getStorage 1 5 ∧
    (StateDb.after demoSeeds demoOps).stateRoot .integersEmptyRoot =
      (StateView.after demoSeeds demoOps).stateRoot .integersEmptyRoot := by
  have hsplit : ∀ past op rest, demoOps = past ++ op :: rest →
      (past = [] ∧ op = .setStorage 1 5 7) ∨
      (past = demoOps.take 1 ∧ op = .setAccount 1 { AccountState.fresh with nonce := 2 }) ∨
      (past = demoOps.take 2 ∧ op = .selfdestruct 3) := by
    intro past op rest heq
    have hpast : past = demoOps.take past.length := by rw [heq, List.take_left]
    have hop : demoOps[past.length]? = some op := by rw [heq]; simp
    have hlength : past.length < 3 := by
      have hcount := congrArg List.length heq
      simp only [demoOps, List.length_append, List.length_cons, List.length_nil] at hcount
      omega
    rw [hpast]
    generalize past.length = n at hop hlength
    match n, hlength with
    | 0, _ => exact Or.inl ⟨rfl,(Option.some.inj hop).symm⟩
    | 1, _ => exact Or.inr (Or.inl ⟨rfl,(Option.some.inj hop).symm⟩)
    | 2, _ => exact Or.inr (Or.inr ⟨rfl,(Option.some.inj hop).symm⟩)
  have hguards : ∀ past op rest, demoOps = past ++ op :: rest →
      Respects (StateDb.after demoSeeds past) op := by
    intro past op rest heq
    rcases hsplit past op rest heq with ⟨rfl,rfl⟩ | ⟨rfl,rfl⟩ | ⟨rfl,rfl⟩
    · trivial
    · exact ⟨by decide,by decide⟩
    · trivial
  have halike : ∀ past op rest, demoOps = past ++ op :: rest →
      Alike (StateDb.after demoSeeds past) (StateView.after demoSeeds past) op := by
    intro past op rest heq
    rcases hsplit past op rest heq with ⟨rfl,rfl⟩ | ⟨rfl,rfl⟩ | ⟨rfl,rfl⟩
    · trivial
    · exact Or.inl (by decide)
    · exact ⟨by decide,fun _ => rfl⟩
  have hkeccak : ∀ past, past <+: demoOps → Safe .integersEmptyRoot
      {b | b ∈ (StateDb.after demoSeeds past).overlay.hashed .integersEmptyRoot ++
        (StateView.after demoSeeds past).overlay.hashed .integersEmptyRoot} := by
    intro past hpast
    have hinits : past ∈ [[],demoOps.take 1,demoOps.take 2,demoOps] := (List.mem_inits _ _).mpr hpast
    simp only [List.mem_cons, List.not_mem_nil, or_false] at hinits
    rcases hinits with rfl | rfl | rfl | rfl
    all_goals
      exact safe_of_list (by decide +kernel) (by decide +kernel) (by decide +kernel) (by decide +kernel)
  obtain ⟨haccounts,hwords,hroots⟩ := stateDb_stateView_agree rfl demoSeeds demoOps hguards halike
    hkeccak demoOps (List.prefix_refl demoOps)
  exact ⟨haccounts 1,hwords 1 5,hroots⟩

/-- The tombstone of an account hides it from a view only. -/
theorem selfdestruct_disagrees :
    (StateDb.after [(1,{ AccountState.fresh with nonce := 5 })] [.selfdestruct 1]).getAccount 1 ≠
      (StateView.after [(1,{ AccountState.fresh with nonce := 5 })] [.selfdestruct 1]).getAccount 1 := by
  decide

end Agreement

end ZbxChain
