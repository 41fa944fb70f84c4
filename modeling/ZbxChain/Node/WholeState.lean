import ZbxChain.Node.Committed

/-! # The header's state root and the accounts in the database

The root in a header is that of the view of one block. It covers the whole database just
when all that the view does not have is empty, and the words written make no difference to
the storage roots.
-/
namespace ZbxChain
open MutableTrie (Denotes)

def ChainDb.nonEmpty (db : ChainDb) : Accounts := db.accounts.retain (fun _ state => !state.isEmpty)

/-- The root of `compute_state_root` over the whole database. -/
def ChainDb.canonicalRoot (P : Platform) (db : ChainDb) : Except Fault H256 :=
  computeStateRoot P db.nonEmpty ∅

/-- The last header has the root of the whole database. -/
def HeaderCommits (P : Platform) (db : ChainDb) : Prop :=
  ∃ b, db.chain.getBlockByNumber db.chain.head = some b ∧
    db.canonicalRoot P = .ok b.header.stateRoot

/-- The view has every account of the database that is not empty, and words were written
only at accounts that are not empty and whose storage root stays what it is. -/
structure Covered (P : Platform) (db : ChainDb) (view : StateView) : Prop where
  accounts : ∀ addr, view.overlay.account? addr = none → (db.getAccount addr).isEmpty = true
  words : ∀ addr state, view.overlay.account? addr = some state → view.overlay.noEntries addr = false →
    state.isEmpty = false ∧ rootInDb P view.storage db.adapter addr state = .ok state.storageRoot

theorem roots_eq_iff {P : Platform} {accounts accounts' : Accounts} {storage storage' : Storage}
    {db : ZbxDbTrieAdapter} {root : H256}
    (hroot : (computeStateRootWithDb P accounts storage db).2 = .ok root)
    (hkeccak : Safe P
      {b | b ∈ stateHashedWithDb P accounts storage db ++ stateHashed P accounts' storage'}) :
    computeStateRoot P accounts' storage' = .ok root ↔
      leafOf (rootInDb P storage db) accounts storage =
        leafOf (rootInMemory P storage') accounts' storage' := by
  have hE : ∀ b ∈ stateHashedWithDb P accounts storage db,
      b ∈ {b | b ∈ stateHashedWithDb P accounts storage db ++ stateHashed P accounts' storage'} :=
    fun b hb => List.mem_append_left _ hb
  have hE' : ∀ b ∈ stateHashed P accounts' storage',
      b ∈ {b | b ∈ stateHashedWithDb P accounts storage db ++ stateHashed P accounts' storage'} :=
    fun b hb => List.mem_append_right _ hb
  obtain ⟨hfirst,m,hm,hover⟩ := computeStateRootWithDb_of_roots hkeccak
    (fun _ _ haccount => rootInDb_of_computed hroot haccount) hE
  obtain ⟨hsecond,m',hm',hover'⟩ := computeStateRoot_spec hkeccak hE'
  have heq : root = (accountTrieWithDb P accounts storage db).1.root :=
    Except.ok.inj (hroot.symm.trans hfirst)
  rw [hsecond, heq, Except.ok.injEq]
  constructor
  · intro hsame
    have hcontents := hm.contents_eq hkeccak hm' hsame.symm
    subst hcontents
    have hinj : Set.InjOn (addressKey P) {s | s ∈ accounts.keys ∨ s ∈ accounts'.keys} := by
      refine addressKey_injOn hkeccak ?_
      rintro s (hs | hs)
      · refine hE _ (List.mem_append_left _ (List.mem_append_left _ (List.mem_cons_of_mem _ ?_)))
        exact List.mem_map_of_mem hs
      · refine hE' _ (List.mem_append_left _ (List.mem_append_left _ (List.mem_cons_of_mem _ ?_)))
        exact List.mem_map_of_mem hs
    exact hover.eq_of_same hinj hover' (fun _ h => mem_keys_of_leafOf h) (fun _ h => mem_keys_of_leafOf h)
  · intro hleaves
    rw [← hleaves] at hover'
    have hcontents : m = m' := by
      refine hover.ext hover' (fun s hs => ⟨mem_keys_of_leafOf hs,?_⟩)
      rw [hleaves] at hs
      exact mem_keys_of_leafOf hs
    subst hcontents
    exact hm'.root_eq rfl hm

section Leaves
variable {P : Platform} {db stored : ChainDb} {view : StateView} {addr : Address}

theorem leaf_nonEmpty (P : Platform) (db : ChainDb) (addr : Address) :
    leafOf (rootInMemory P ∅) db.nonEmpty ∅ addr =
      if (db.getAccount addr).isEmpty then none
      else some (encodeAccountRlp (db.getAccount addr) (db.getAccount addr).storageRoot) := by
  unfold leafOf ChainDb.nonEmpty ChainDb.getAccount
  cases hlookup : db.accounts.lookup addr with
  | none =>
    have hnone : (db.accounts.retain (fun _ state => !state.isEmpty)).lookup addr = none := by
      rw [Option.eq_none_iff_forall_ne_some]
      intro state hstate
      rw [AList.lookup_retain, hlookup] at hstate
      cases hstate.1
    rw [hnone]
    rfl
  | some state =>
    cases hempty : state.isEmpty with
    | true =>
      have hnone : (db.accounts.retain (fun _ state => !state.isEmpty)).lookup addr = none := by
        rw [Option.eq_none_iff_forall_ne_some]
        intro state' hstate
        obtain ⟨hlook,hkept⟩ := AList.lookup_retain.mp hstate
        rw [hlookup] at hlook
        cases hlook
        rw [hempty] at hkept
        cases hkept
      rw [hnone, Option.getD_some, hempty]
      rfl
    | false =>
      have hsome : (db.accounts.retain (fun _ state => !state.isEmpty)).lookup addr = some state :=
        AList.lookup_retain.mpr ⟨hlookup,by rw [hempty]; rfl⟩
      rw [hsome, Option.getD_some, Option.bind_some, hempty]
      rfl

theorem leaf_eq_iff_covered
    (hroots : ∀ addr state, view.overlay.account? addr = some state →
      ∃ root, rootInDb P view.storage db.adapter addr state = .ok root)
    (hstored : ∀ addr, stored.getAccount addr = (view.overlay.account? addr).getD (db.getAccount addr))
    (addr : Address) :
    leafOf (rootInDb P view.storage db.adapter) (view.visible P) view.storage addr =
        leafOf (rootInMemory P ∅) stored.nonEmpty ∅ addr ↔
      (view.overlay.account? addr = none → (db.getAccount addr).isEmpty = true) ∧
      (∀ state, view.overlay.account? addr = some state → view.overlay.noEntries addr = false →
        state.isEmpty = false ∧ rootInDb P view.storage db.adapter addr state = .ok state.storageRoot) := by
  rw [leaf_nonEmpty, hstored]
  cases haccount : view.overlay.account? addr with
  | none =>
    have hvisible : (view.visible P).lookup addr = none := by rw [view.lookup_visible, haccount]
    rw [leafOf, hvisible, Option.bind_none, Option.getD_none]
    cases (db.getAccount addr).isEmpty with
    | true => simp
    | false => simp
  | some state =>
    have hvisible : (view.visible P).lookup addr = some state := by rw [view.lookup_visible, haccount]
    obtain ⟨root,hroot⟩ := hroots addr state haccount
    have hcache : cacheIsEmpty (view.storage.lookup addr) = view.overlay.noEntries addr := rfl
    rw [leafOf_of_lookup hvisible hroot, hcache, Option.getD_some]
    simp only [reduceCtorEq, false_implies, true_and, Option.some.injEq, forall_eq']
    cases hentries : view.overlay.noEntries addr with
    | true =>
      -- without entries the root is the account's own
      have hown : root = state.storageRoot :=
        Except.ok.inj (hroot.symm.trans (rootInDb_of_cacheIsEmpty state hentries))
      rw [Bool.and_true, hown]
      exact iff_of_true rfl (fun h => absurd h Bool.true_eq_false.mp)
    | false =>
      rw [Bool.and_false, if_neg Bool.false_ne_true]
      cases hempty : state.isEmpty with
      | true =>
        simp
      | false =>
        rw [if_neg Bool.false_ne_true, Option.some.injEq]
        constructor
        · intro hleaf _
          exact ⟨rfl,by rw [hroot, encodeAccountRlp_inj hleaf]⟩
        · intro hkept
          rw [Except.ok.inj (hroot.symm.trans (hkept rfl).2)]

end Leaves

section Steps
variable {V K : Type} (P : Platform) (M : Machines) (S : StakingNode V K) (C : Commitments)

def commitStep (db : ChainDb) (call : Faults × Block) : ChainDb × Except String Block :=
  let outcome := db.executeAndCommit P M S C call.1 call.2
  (db.applyAll outcome.writes,outcome.result)

def finalView (db : ChainDb) (faults : Faults) (block : Block) : StateView :=
  match prepare P M S C db faults none block with
  | .ok ready => ready.view.state
  | .error _ => .new

def rootsHashed (db : ChainDb) (call : Faults × Block) : List (List UInt8) :=
  let view := finalView P M S C db call.1 call.2
  stateHashedWithDb P (view.visible P) view.storage db.adapter ++
    stateHashed P (commitStep P M S C db call).1.nonEmpty ∅

variable {P M S C}

/-- One commit makes a header that commits to the whole database just when its view covers
the database. -/
theorem headerCommits_commitStep {db : ChainDb} {call : Faults × Block} {b : Block}
    (hok : (commitStep P M S C db call).2 = .ok b)
    (hkeccak : Safe P {b | b ∈ rootsHashed P M S C db call}) :
    HeaderCommits P (commitStep P M S C db call).1 ↔
      Covered P db (finalView P M S C db call.1 call.2) := by
  obtain ⟨faults,block⟩ := call
  obtain ⟨ready,view,progress,hprepare,hprepared,hb,hwrites⟩ := executeAndCommit_ok hok
  have hview : finalView P M S C db faults block = ready.view.state := by
    rw [finalView, hprepare]
  have hstored : (commitStep P M S C db (faults,block)).1 = beforeRewards P S db faults block ready :=
    hwrites
  have hhead : (db.chain.putBlock (ready.output.patch block)).getBlockByNumber
      (db.chain.putBlock (ready.output.patch block)).head = some (ready.output.patch block) :=
    ZbxDb.head_block_putBlock hprepared.head
  rw [rootsHashed, hstored, hview] at hkeccak
  rw [hstored, hview, HeaderCommits, hprepared.chain_beforeRewards, hhead]
  have hroots : ∀ addr state, ready.view.state.overlay.account? addr = some state →
      ∃ root, rootInDb P ready.view.state.storage db.adapter addr state = .ok root := by
    intro addr state haccount
    rw [← ready.view.state.lookup_visible P] at haccount
    exact rootInDb_of_computed hprepared.root haccount
  have hleaves := leaf_eq_iff_covered hroots hprepared.getAccount_beforeRewards
  have hsame := roots_eq_iff hprepared.root hkeccak
  constructor
  · rintro ⟨_,⟨⟩,hcommits⟩
    have heq := hsame.mp hcommits
    exact ⟨fun addr => ((hleaves addr).mp (congrFun heq addr)).1,
      fun addr => ((hleaves addr).mp (congrFun heq addr)).2⟩
  · intro hcovered
    refine ⟨_,rfl,hsame.mpr (funext fun addr => ?_)⟩
    exact (hleaves addr).mpr ⟨hcovered.accounts addr,hcovered.words addr⟩

end Steps

/-- In a chain of commits every header commits to the whole database just when the view of
every block covers the database that it met. -/
theorem header_commits_iff {V K : Type} (P : Platform) (M : Machines) (S : StakingNode V K)
    (C : Commitments) (genesis : ChainDb) (calls : List (Faults × Block))
    (hok : ∀ e ∈ Machine.history (commitStep P M S C) genesis calls, ∃ b, e.output = .ok b)
    (hkeccak : ∀ e ∈ Machine.history (commitStep P M S C) genesis calls,
      Safe P {b | b ∈ rootsHashed P M S C e.before e.call}) :
    (∀ e ∈ Machine.history (commitStep P M S C) genesis calls,
        HeaderCommits P (commitStep P M S C e.before e.call).1) ↔
      ∀ e ∈ Machine.history (commitStep P M S C) genesis calls,
        Covered P e.before (finalView P M S C e.before e.call.1 e.call.2) := by
  refine forall₂_congr (fun e he => ?_)
  obtain ⟨b,hb⟩ := hok e he
  rw [Machine.output_eq _ he] at hb
  exact headerCommits_commitStep hb (hkeccak e he)

theorem covered_of_keys {P : Platform} {db : ChainDb} {view : StateView}
    (hwords : view.storage.entries = [])
    (hkeys : db.accounts.keys.all (fun addr => (view.overlay.account? addr).isSome) = true) :
    Covered P db view where
  accounts := by
    intro addr hnone
    have hmissing : db.accounts.lookup addr = none := by
      by_contra hfound
      obtain ⟨state,hstate⟩ := Option.ne_none_iff_exists'.mp hfound
      have hpresent := List.all_eq_true.mp hkeys addr (AList.mem_keys_of_lookup hstate)
      rw [hnone] at hpresent
      cases hpresent
    rw [ChainDb.getAccount, hmissing]
    rfl
  words := by
    intro addr state _ hentries
    have hempty : view.storage = ∅ := AList.ext hwords
    rw [Overlay.noEntries, StateView.overlay, hempty] at hentries
    cases hentries

def strangerDb : ChainDb := plainDb 0 ((∅ : Accounts).insert 1 { AccountState.fresh with nonce := 1 })

/-- The only account pays another one. -/
theorem header_commits_payment :
    HeaderCommits .integersEmptyRoot (commitStep .integersEmptyRoot idleMachines idleStaking
      zeroCommitments payerDb (.none,paymentBlock)).1 := by
  have hsome : (commitStep .integersEmptyRoot idleMachines idleStaking zeroCommitments payerDb
      (.none,paymentBlock)).2.toOption.isSome = true := by decide +kernel
  have hkeccak : Safe .integersEmptyRoot {b | b ∈ rootsHashed .integersEmptyRoot idleMachines
      idleStaking zeroCommitments payerDb (.none,paymentBlock)} :=
    safe_of_list (by decide +kernel) (by decide +kernel) (by decide +kernel) (by decide +kernel)
  have hcovered : Covered .integersEmptyRoot payerDb (finalView .integersEmptyRoot idleMachines
      idleStaking zeroCommitments payerDb .none paymentBlock) :=
    covered_of_keys (by decide +kernel) (by decide +kernel)
  rcases hresult : (commitStep .integersEmptyRoot idleMachines idleStaking zeroCommitments payerDb
    (.none,paymentBlock)).2 with e | b
  · rw [hresult] at hsome
    cases hsome
  · exact (header_commits_iff .integersEmptyRoot idleMachines idleStaking zeroCommitments payerDb
      [(.none,paymentBlock)] (List.forall_mem_singleton.mpr ⟨b,hresult⟩)
      (List.forall_mem_singleton.mpr hkeccak)).mpr (List.forall_mem_singleton.mpr hcovered) _
      (List.mem_singleton_self _)

/-- An account that no block names is not in the root of the header. -/
theorem untouched_account_missed :
    (commitStep .integersEmptyRoot idleMachines idleStaking zeroCommitments strangerDb
        (.none,plainBlock 1 0)).2.toOption.isSome = true ∧
      ¬ HeaderCommits .integersEmptyRoot (commitStep .integersEmptyRoot idleMachines idleStaking
        zeroCommitments strangerDb (.none,plainBlock 1 0)).1 := by
  have hsome : (commitStep .integersEmptyRoot idleMachines idleStaking zeroCommitments strangerDb
      (.none,plainBlock 1 0)).2.toOption.isSome = true := by decide +kernel
  have hroots : ((commitStep .integersEmptyRoot idleMachines idleStaking zeroCommitments strangerDb
      (.none,plainBlock 1 0)).1.chain.getBlockByNumber 1).map (fun b => decide
        ((commitStep .integersEmptyRoot idleMachines idleStaking zeroCommitments strangerDb
          (.none,plainBlock 1 0)).1.canonicalRoot .integersEmptyRoot = .ok b.header.stateRoot)) =
      some false := by decide +kernel
  have hhead : (commitStep .integersEmptyRoot idleMachines idleStaking zeroCommitments strangerDb
      (.none,plainBlock 1 0)).1.chain.head = 1 := by decide +kernel
  refine ⟨hsome,?_⟩
  rintro ⟨b,hb,hroot⟩
  rw [hhead] at hb
  rw [hb, Option.map_some, Option.some.injEq, decide_eq_false_iff_not] at hroots
  exact hroots hroot

end ZbxChain
