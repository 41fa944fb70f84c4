import ZbxChain.Execution.SignedFields
import ZbxChain.Node.Commit

/-! # What a commit has read and written once it returns a block

The view starts as the database at the addresses a block names. A commit that returns a
block has written the accounts of the view, the block, and at the end of an interval the
escrow account; it never writes a word or a code.
-/
namespace ZbxChain

section Attempts
variable {ops : List (Option String × List DbWrite)}

theorem attempt_of_silent (h : ∀ op ∈ ops, op.1 = none) : attempt ops = (ops.flatMap Prod.snd,none) := by
  induction ops with
  | nil => rfl
  | cons op ops ih =>
    obtain ⟨err,writes⟩ := op
    have hfirst : err = none := h _ List.mem_cons_self
    subst hfirst
    rw [attempt, ih (fun op hop => h op (List.mem_cons_of_mem _ hop)), List.flatMap_cons]

theorem silent_of_attempt (h : (attempt ops).2 = none) : ∀ op ∈ ops, op.1 = none := by
  induction ops with
  | nil => exact nofun
  | cons op ops ih =>
    obtain ⟨err,writes⟩ := op
    cases err with
    | some e => cases h
    | none => exact List.forall_mem_cons.mpr ⟨rfl,ih h⟩

end Attempts

namespace DbWrite

def account? : DbWrite → Option (Σ _ : Address, AccountState)
  | account addr state => some ⟨addr,state⟩
  | _ => none

def block? : DbWrite → Option Block
  | block b => some b
  | _ => none

end DbWrite

namespace ChainDb
variable {db : ChainDb} {writes : List DbWrite}

theorem applyAll_append (db : ChainDb) (writes later : List DbWrite) :
    db.applyAll (writes ++ later) = (db.applyAll writes).applyAll later := List.foldl_append

theorem accounts_applyAll (db : ChainDb) (writes : List DbWrite) :
    (db.applyAll writes).accounts = db.accounts.insertAll (writes.filterMap DbWrite.account?) := by
  induction writes generalizing db with
  | nil => rfl
  | cons write writes ih =>
    rw [applyAll, List.foldl_cons]
    refine (ih (db.apply write)).trans ?_
    cases write <;> rfl

theorem chain_applyAll (db : ChainDb) (writes : List DbWrite) :
    (db.applyAll writes).chain = (writes.filterMap DbWrite.block?).foldl ZbxDb.putBlock db.chain := by
  induction writes generalizing db with
  | nil => rfl
  | cons write writes ih =>
    rw [applyAll, List.foldl_cons]
    refine (ih (db.apply write)).trans ?_
    cases write <;> rfl

theorem unwritten_applyAll (db : ChainDb) (writes : List DbWrite) :
    (db.applyAll writes).words = db.words ∧ (db.applyAll writes).codes = db.codes ∧
      (db.applyAll writes).receiptGas = db.receiptGas := by
  induction writes generalizing db with
  | nil => exact ⟨rfl,rfl,rfl⟩
  | cons write writes ih =>
    rw [applyAll, List.foldl_cons]
    obtain ⟨hwords,hcodes,hreceipts⟩ := ih (db.apply write)
    have hfirst : (db.apply write).words = db.words ∧ (db.apply write).codes = db.codes ∧
        (db.apply write).receiptGas = db.receiptGas := by
      cases write <;> exact ⟨rfl,rfl,rfl⟩
    exact ⟨hwords.trans hfirst.1,hcodes.trans hfirst.2.1,hreceipts.trans hfirst.2.2⟩

end ChainDb

theorem ZbxDb.head_block_putBlock {chain : ZbxDb} {block : Block}
    (h : chain.head = saturatingSub64 block.number 1) :
    (chain.putBlock block).getBlockByNumber (chain.putBlock block).head = some block := by
  have hfound : (chain.putBlock block).getBlockByNumber block.number = some block :=
    AList.lookup_insert _
  have hhead : (chain.putBlock block).head = block.number := by
    by_cases hzero : block.number = 0
    · rw [hzero] at h
      have hempty : chain.head = 0 := h
      unfold ZbxDb.head at hempty ⊢
      cases hlatest : chain.latestHeight with
      | none => simp [ZbxDb.putBlock, hlatest]
      | some height =>
        rw [hlatest, Option.getD_some] at hempty
        simp [ZbxDb.putBlock, hlatest, hempty, hzero]
    · apply ZbxDb.head_putBlock
      have hpos : block.number.toNat ≠ 0 := fun hnat => hzero (UInt64.toNat_inj.mp hnat)
      have hsize : block.number.toNat - 1 < UInt64.size :=
        lt_of_le_of_lt (Nat.sub_le _ 1) block.number.toNat_lt
      have hone : (1 : UInt64).toNat = 1 := rfl
      rw [h, saturatingSub64, hone, UInt64.lt_iff_toNat_lt, UInt64.toNat_ofNat_of_lt' hsize]
      omega
  rw [hhead, hfound]

section Seeds

/-- The view holds the accounts of the database at some addresses, and nothing else. -/
structure Seeded (db : ChainDb) (addrs : List Address) (view : ExecView) : Prop where
  base : ∀ addr, view.state.base.lookup addr = if addr ∈ addrs then some (db.getAccount addr) else none
  codes : ∀ codeHash code, view.codes.lookup codeHash = some code → code = db.getCode codeHash
  accounts : view.state.accounts = ∅
  storage : view.state.storage = ∅
  toDelete : view.state.toDelete = []
  logs : view.logs = []
  proposalsStored : view.proposalsStored = false

variable {db : ChainDb} {faults : Faults} {view view' : ExecView} {addr : Address}
  {addrs done : List Address}

theorem seeded_new (db : ChainDb) : Seeded db [] .new :=
  ⟨fun _ => rfl,fun _ _ h => (nomatch h),rfl,rfl,rfl,rfl,rfl⟩

theorem Seeded.seed (h : Seeded db done view) (hok : seed db faults view addr = .ok view') :
    Seeded db (addr :: done) view' := by
  have hinsert : ∀ a, (view.state.base.insert addr (db.getAccount addr)).lookup a =
      if a ∈ addr :: done then some (db.getAccount a) else none := by
    intro a
    by_cases ha : a = addr
    · subst ha
      rw [AList.lookup_insert, if_pos List.mem_cons_self]
    · rw [AList.lookup_insert_ne ha, h.base]
      simp only [List.mem_cons, ha, false_or]
  unfold ZbxChain.seed at hok
  split at hok
  · cases hok
  · dsimp only at hok
    split at hok
    · split at hok
      · cases hok
      · cases hok
        refine ⟨hinsert,?_,h.accounts,h.storage,h.toDelete,h.logs,h.proposalsStored⟩
        intro codeHash code hlook
        rcases AList.lookup_insert_some hlook with ⟨rfl,rfl⟩ | ⟨-,hold⟩
        · rfl
        · exact h.codes codeHash code hold
    · cases hok
      exact ⟨hinsert,h.codes,h.accounts,h.storage,h.toDelete,h.logs,h.proposalsStored⟩

theorem Seeded.congr (h : Seeded db done view) (hmem : ∀ a, a ∈ done ↔ a ∈ addrs) :
    Seeded db addrs view :=
  ⟨fun a => by rw [h.base]; simp only [hmem],h.codes,h.accounts,h.storage,h.toDelete,h.logs,
    h.proposalsStored⟩

theorem Seeded.seedAll (h : Seeded db done view) {seen : AddressSet} (hseen : ∀ a, a ∈ seen ↔ a ∈ done)
    (hok : seedAll db faults addrs seen view = .ok view') : Seeded db (done ++ addrs) view' := by
  induction addrs generalizing done seen view with
  | nil =>
    cases hok
    rwa [List.append_nil]
  | cons addr addrs ih =>
    rw [ZbxChain.seedAll] at hok
    split at hok
    · rename_i hmem
      refine (ih h hseen hok).congr (fun a => ?_)
      have hdone := (hseen addr).mp hmem
      simp only [List.mem_append, List.mem_cons]
      grind
    · split at hok
      · cases hok
      · rename_i next hseed
        have hinsert : ∀ a, a ∈ seen.insert addr ↔ a ∈ addr :: done := fun a => by
          rw [List.mem_insert_iff, hseen, List.mem_cons]
        refine (ih (h.seed hseed) hinsert hok).congr (fun a => ?_)
        simp only [List.mem_append, List.mem_cons]
        grind

theorem seedAll_silent (h : faults.Silent) (db : ChainDb) (addrs : List Address) (seen : AddressSet)
    (view : ExecView) : seedAll db faults addrs seen view = seedAll db .none addrs seen view ∧
      ∃ view', seedAll db .none addrs seen view = .ok view' := by
  have hseed : ∀ (view : ExecView) addr, ZbxChain.seed db faults view addr = ZbxChain.seed db .none view addr ∧
      ∃ view', ZbxChain.seed db .none view addr = .ok view' := by
    intro view addr
    unfold ZbxChain.seed
    rw [h.getAccount, Faults.silent_none.getAccount]
    dsimp only
    rw [h.getCode, Faults.silent_none.getCode]
    refine ⟨rfl,?_⟩
    split
    · exact ⟨_,rfl⟩
    · exact ⟨_,rfl⟩
  induction addrs generalizing seen view with
  | nil => exact ⟨rfl,view,rfl⟩
  | cons addr addrs ih =>
    unfold ZbxChain.seedAll
    by_cases hmem : addr ∈ seen
    · rw [if_pos hmem, if_pos hmem]
      exact ih seen view
    · rw [if_neg hmem, if_neg hmem, (hseed view addr).1]
      obtain ⟨next,hnext⟩ := (hseed view addr).2
      rw [hnext]
      exact ih (seen.insert addr) next

/-- What was seeded is what is seeded without a fault. -/
theorem seedAll_of_ok {addrs : List Address} {seen : AddressSet} {view view' : ExecView}
    (h : seedAll db faults addrs seen view = .ok view') : seedAll db .none addrs seen view = .ok view' := by
  have hseed : ∀ {addr view view'}, ZbxChain.seed db faults view addr = .ok view' →
      ZbxChain.seed db .none view addr = .ok view' := by
    intro addr view view' hok
    unfold ZbxChain.seed at hok ⊢
    rw [Faults.silent_none.getAccount]
    split at hok
    · cases hok
    · dsimp only at hok ⊢
      rw [Faults.silent_none.getCode]
      split at hok
      · rename_i hcontract
        rw [if_pos hcontract]
        split at hok
        · cases hok
        · exact hok
      · rename_i hplain
        rw [if_neg hplain]
        exact hok
  induction addrs generalizing seen view with
  | nil => exact h
  | cons addr addrs ih =>
    unfold ZbxChain.seedAll at h ⊢
    split at h
    · rename_i hmem
      rw [if_pos hmem]
      exact ih h
    · rename_i hnew
      rw [if_neg hnew]
      rcases hfirst : ZbxChain.seed db faults view addr with e | next
      · rw [hfirst] at h
        cases h
      · rw [hfirst] at h
        rw [hseed hfirst]
        exact ih h

end Seeds

section Visible

theorem StateView.lookup_visible (P : Platform) (view : StateView) (addr : Address) :
    (view.visible P).lookup addr = view.overlay.account? addr := by
  have hnodup : ∀ accounts : Accounts, ((P.iterOrder accounts.entries).filter
      (fun e => decide (e.1 ∉ view.toDelete))).NodupKeys :=
    fun accounts => ((List.perm_nodupKeys (P.iterOrder_perm _)).mpr accounts.nodupKeys).sublist
      List.filter_sublist
  have hkept : ∀ accounts : Accounts, ((P.iterOrder accounts.entries).filter
      (fun e => decide (e.1 ∉ view.toDelete))).dlookup addr =
        if addr ∈ view.toDelete then none else accounts.lookup addr := by
    intro accounts
    rw [AList.dlookup_filter (fun a => decide (a ∉ view.toDelete)), List.perm_dlookup addr
      ((List.perm_nodupKeys (P.iterOrder_perm _)).mpr accounts.nodupKeys) (P.iterOrder_perm _)]
    by_cases hdeleted : addr ∈ view.toDelete
    · simp [hdeleted]
    · simp [hdeleted, AList.lookup]
  rw [visible, AList.lookup_insertAll (hnodup _),
    AList.lookup_insertAll (hnodup _), hkept, hkept]
  by_cases hdeleted : addr ∈ view.toDelete
  · rw [if_pos hdeleted, if_pos hdeleted, Overlay.account?_of_mem hdeleted]
    rfl
  · rw [if_neg hdeleted, if_neg hdeleted, Overlay.account?_of_not_mem hdeleted]
    simp [overlay]

end Visible

section Stored
variable {V K : Type} {P : Platform} {M : Machines} {S : StakingNode V K} {C : Commitments}
  {db : ChainDb} {faults : Faults} {vs : Option V} {block b : Block} {ready : Ready V}

/-- A block that goes on to be stored was executed on a seeded view, and its root was found. -/
structure Prepared (P : Platform) (M : Machines) (S : StakingNode V K) (C : Commitments) (db : ChainDb)
    (faults : Faults) (vs : Option V) (block : Block) (ready : Ready V) (view : ExecView)
    (progress : Progress V) : Prop where
  seeds : seedAll db faults block.referenced [] .new = .ok view
  ran : (runBlock P M S.toStakingPrecompile C block vs).run.run ExecView.answer view =
    (.ok progress,ready.view)
  root : (computeStateRootWithDb P (ready.view.state.visible P) ready.view.state.storage
    db.adapter).2 = .ok ready.output.newStateRoot
  validators : ready.validators = progress.validators
  adapter : ready.adapter = db.adapter
  head : db.chain.head = saturatingSub64 block.number 1
  early : ready.early = if ready.view.proposalsStored then [.proposals] else []

theorem adapter_executeInner (trieRead : Option String) (view : ExecView) (adapter : ZbxDbTrieAdapter) :
    (executeInner P M S C trieRead block view adapter vs).adapter = adapter := by
  unfold executeInner
  rcases (runBlock P M S.toStakingPrecompile C block vs).run.run ExecView.answer view
    with ⟨e | progress,after⟩
  · rfl
  · cases trieRead with
    | some e => rfl
    | none =>
      have hdb := db_computeStateRootWithDb P (after.state.visible P) after.state.storage adapter
      dsimp only
      rcases hroot : computeStateRootWithDb P (after.state.visible P) after.state.storage adapter
        with ⟨kept,fault | root⟩
      · rw [hroot] at hdb
        exact hdb
      · rw [hroot] at hdb
        exact hdb

theorem executeInner_ok {trieRead : Option String} {view : ExecView} {adapter : ZbxDbTrieAdapter}
    {output : ExecOutput} {validators : Option V}
    (h : (executeInner P M S C trieRead block view adapter vs).result = .ok (output,validators)) :
    ∃ progress, (runBlock P M S.toStakingPrecompile C block vs).run.run ExecView.answer view =
        (.ok progress,(executeInner P M S C trieRead block view adapter vs).view) ∧
      (computeStateRootWithDb P
        ((executeInner P M S C trieRead block view adapter vs).view.state.visible P)
        (executeInner P M S C trieRead block view adapter vs).view.state.storage adapter).2 =
        .ok output.newStateRoot ∧
      validators = progress.validators := by
  rcases hrun : (runBlock P M S.toStakingPrecompile C block vs).run.run ExecView.answer view
    with ⟨e | progress,after⟩
  · simp only [executeInner, hrun] at h
    cases h
  · cases hread : trieRead with
    | some e =>
      simp only [executeInner, hrun, hread] at h
      cases h
    | none =>
      rcases hroot : computeStateRootWithDb P (after.state.visible P) after.state.storage adapter
        with ⟨kept,fault | root⟩
      · simp only [executeInner, hrun, hread, hroot] at h
        cases h
      · simp only [executeInner, hrun, hread, hroot] at h ⊢
        cases h
        exact ⟨progress,rfl,rfl,rfl⟩

theorem prepare_ok (h : prepare P M S C db faults vs block = .ok ready) :
    ∃ view progress, Prepared P M S C db faults vs block ready view progress := by
  unfold prepare at h
  dsimp only at h
  split at h
  · cases h
  · rename_i view hseeds
    split at h
    · cases h
    · rename_i output validators hresult
      obtain ⟨progress,hrun,hroot,hvalidators⟩ := executeInner_ok hresult
      split at h
      · cases h
      · rename_i hhead
        cases h
        refine ⟨view,progress,hseeds,hrun,hroot,hvalidators,adapter_executeInner _ _ _,not_not.mp hhead,?_⟩
        have hsame : db.adapter.trieNodes = db.trieNodes := rfl
        dsimp only
        rw [Executed.early, adapter_executeInner, if_pos hsame, List.nil_append]

/-- The writes after those of the accounts: trie nodes, the block, the staking delta. -/
def laterWrites (S : StakingNode V K) (block : Block) (ready : Ready V) : List DbWrite :=
  (if ready.adapter.pending.isEmpty then [] else [.trieNodes ready.adapter.commit.trieNodes]) ++
    .block (ready.output.patch block) ::
      if ready.validators.all S.deltaIsEmpty then [] else [.stakingDelta]

theorem account?_laterWrites : (laterWrites S block ready).filterMap DbWrite.account? = [] := by
  unfold laterWrites
  split <;> split <;> rfl

theorem block?_laterWrites :
    (laterWrites S block ready).filterMap DbWrite.block? = [ready.output.patch block] := by
  unfold laterWrites
  split <;> split <;> rfl

theorem written_persistSteps : (persistSteps P S faults block ready).flatMap Prod.snd =
    (P.iterOrder ready.view.state.accounts.entries).map (fun e => .account e.1 e.2) ++
      laterWrites S block ready := by
  unfold persistSteps laterWrites
  rw [List.flatMap_append, List.flatMap_append, List.flatMap_map, List.append_assoc,
    List.map_eq_flatMap]
  congr 1
  rw [List.flatMap_cons, List.flatMap_singleton, List.append_assoc]
  congr 1
  rw [List.singleton_append]
  split <;> rfl

theorem account?_persistSteps : ((persistSteps P S faults block ready).flatMap Prod.snd).filterMap
    DbWrite.account? = P.iterOrder ready.view.state.accounts.entries := by
  rw [written_persistSteps, List.filterMap_append, List.filterMap_map, account?_laterWrites,
    List.append_nil]
  exact List.filterMap_some

theorem block?_persistSteps : ((persistSteps P S faults block ready).flatMap Prod.snd).filterMap
    DbWrite.block? = [ready.output.patch block] := by
  rw [written_persistSteps, List.filterMap_append, List.filterMap_map, block?_laterWrites,
    List.append_left_eq_self]
  exact List.filterMap_eq_nil_iff.mpr (fun _ _ => rfl)

def beforeRewards (P : Platform) (S : StakingNode V K) (db : ChainDb) (faults : Faults) (block : Block)
    (ready : Ready V) : ChainDb :=
  db.applyAll (ready.early ++ (persistSteps P S faults block ready).flatMap Prod.snd ++
    (governanceStep faults).2)

theorem persist_ok (h : (persist P S db faults vs block ready).result = .ok b) :
    b = ready.output.patch block ∧ (∀ op ∈ persistSteps P S faults block ready, op.1 = none) ∧
      (governanceStep faults).1 = none ∧
      db.applyAll (persist P S db faults vs block ready).writes =
        (beforeRewards P S db faults block ready).applyAll
          (rewardStep S (beforeRewards P S db faults block ready) faults (ready.output.patch block) vs
            ready.validators).1 := by
  rcases hsteps : attempt (persistSteps P S faults block ready) with ⟨writes,_ | e⟩
  · have hsilent := silent_of_attempt (congrArg Prod.snd hsteps)
    rw [attempt_of_silent hsilent] at hsteps
    cases hsteps
    rcases hgov : governanceStep faults with ⟨_ | e,swept⟩
    · simp only [persist, attempt_of_silent hsilent, hgov, attempt, List.append_nil] at h ⊢
      cases h
      refine ⟨rfl,hsilent,trivial,?_⟩
      rw [ChainDb.applyAll_append, beforeRewards, hgov]
    · simp only [persist, attempt_of_silent hsilent, hgov, attempt] at h
      cases h
  · simp only [persist, hsteps] at h
    cases h

theorem silent_persistSteps (hsilent : faults.SpareWrites) :
    ∀ op ∈ persistSteps P S faults block ready, op.1 = none := by
  intro op hop
  simp only [persistSteps, hsilent.trieCommit, hsilent.putBlock, hsilent.stakingDelta,
    hsilent.putAccount, Option.map_none, List.mem_append, List.mem_map, List.mem_cons] at hop
  rcases hop with (⟨e,-,rfl⟩ | rfl | rfl | hnil) | hdelta
  · rfl
  · rfl
  · rfl
  · cases hnil
  · split at hdelta
    · cases hdelta
    · rw [List.mem_singleton.mp hdelta]

theorem persist_silent (hsilent : faults.SpareWrites) :
    (persist P S db faults vs block ready).result = .ok (ready.output.patch block) := by
  obtain ⟨changed,hgov⟩ := hsilent.governance
  simp only [persist, attempt_of_silent (silent_persistSteps hsilent), governanceStep, hgov, attempt]

variable {view : ExecView} {progress : Progress V}

theorem Prepared.accounts_beforeRewards
    (h : Prepared P M S C db faults vs block ready view progress) (addr : Address) :
    (beforeRewards P S db faults block ready).accounts.lookup addr =
      (ready.view.state.accounts.lookup addr).or (db.accounts.lookup addr) := by
  have hearly : ready.early.filterMap DbWrite.account? = [] := by
    rw [h.early]
    split <;> rfl
  have hgov : (governanceStep faults).2.filterMap DbWrite.account? = [] := by
    unfold governanceStep
    split
    · rfl
    · split <;> rfl
  have hnodup : (P.iterOrder ready.view.state.accounts.entries).NodupKeys :=
    (List.perm_nodupKeys (P.iterOrder_perm _)).mpr ready.view.state.accounts.nodupKeys
  rw [beforeRewards, ChainDb.accounts_applyAll, List.filterMap_append, List.filterMap_append, hearly,
    hgov, account?_persistSteps, List.nil_append, List.append_nil, AList.lookup_insertAll hnodup,
    List.perm_dlookup addr hnodup (P.iterOrder_perm _)]
  rfl

theorem Prepared.chain_beforeRewards (h : Prepared P M S C db faults vs block ready view progress) :
    (beforeRewards P S db faults block ready).chain = db.chain.putBlock (ready.output.patch block) := by
  have hearly : ready.early.filterMap DbWrite.block? = [] := by
    rw [h.early]
    split <;> rfl
  have hgov : (governanceStep faults).2.filterMap DbWrite.block? = [] := by
    unfold governanceStep
    split
    · rfl
    · split <;> rfl
  rw [beforeRewards, ChainDb.chain_applyAll, List.filterMap_append, List.filterMap_append, hearly,
    hgov, block?_persistSteps]
  rfl

/-- The view of a commit is that of the database at the accounts the block names. -/
theorem Prepared.seeded (h : Prepared P M S C db faults vs block ready view progress) :
    Seeded db block.referenced view :=
  (seeded_new db).seedAll (fun _ => Iff.rfl) h.seeds

theorem Prepared.final (h : Prepared P M S C db faults vs block ready view progress) :
    ready.view.state.base = view.state.base ∧ ready.view.Dropped := by
  have hfresh : view.Dropped := by
    intro addr hdeleted
    rw [h.seeded.toDelete] at hdeleted
    cases hdeleted
  have hfinal := run_answer (runBlock P M S.toStakingPrecompile C block vs).run view hfresh
  rwa [h.ran] at hfinal

/-- After the writes of a commit an account is what the view has, or what was stored. -/
theorem Prepared.getAccount_beforeRewards
    (h : Prepared P M S C db faults vs block ready view progress) (addr : Address) :
    (beforeRewards P S db faults block ready).getAccount addr =
      (ready.view.state.overlay.account? addr).getD (db.getAccount addr) := by
  obtain ⟨hbase,hdropped⟩ := h.final
  rw [ChainDb.getAccount, h.accounts_beforeRewards]
  by_cases hdeleted : addr ∈ ready.view.state.toDelete
  · rw [Overlay.account?_of_mem hdeleted, hdropped addr hdeleted, Option.none_or]
    rfl
  · rw [Overlay.account?_of_not_mem hdeleted]
    dsimp only [StateView.overlay]
    rw [hbase, h.seeded.base]
    cases ready.view.state.accounts.lookup addr with
    | some state => rfl
    | none =>
      by_cases hnamed : addr ∈ block.referenced
      · rw [if_pos hnamed]
        rfl
      · rw [if_neg hnamed]
        rfl

theorem executeAndCommit_ok (h : (db.executeAndCommit P M S C faults block).result = .ok b) :
    ∃ ready view progress, prepare P M S C db faults none block = .ok ready ∧
      Prepared P M S C db faults none block ready view progress ∧ b = ready.output.patch block ∧
      db.applyAll (db.executeAndCommit P M S C faults block).writes =
        beforeRewards P S db faults block ready := by
  unfold ChainDb.executeAndCommit executeAndCommitInner at h ⊢
  rcases hprepare : prepare P M S C db faults none block with ⟨early,e⟩ | ready
  · simp only [hprepare] at h
    cases h
  · obtain ⟨view,progress,hprepared⟩ := prepare_ok hprepare
    simp only [hprepare] at h ⊢
    obtain ⟨hb,-,-,hwrites⟩ := persist_ok h
    exact ⟨ready,view,progress,rfl,hprepared,hb,hwrites⟩

end Stored

section Samples

def idleMachines : Machines :=
  { callPrecompile := fun _ _ _ => none
    runEvm := fun _ _ => (.succeeded,0,[])
    runZvm := fun _ => .done (.success,0) }

def idleStaking : StakingNode Unit Unit :=
  { decode := fun _ => none
    isFileAppeal := fun _ => false
    dispatch := fun _ _ _ _ vs => pure (vs,none)
    deltaIsEmpty := fun _ => true
    distributeBlockReward := fun vs _ _ _ => vs }

def zeroCommitments : Commitments := ⟨fun _ => 0,fun _ => 0,fun _ => 0,fun _ => 0⟩

/-- A block without transactions and with no field filled in but its number, its parent and
its coinbase. -/
def plainBlock (number : UInt64) (parentHash : H256) : Block :=
  { header :=
      { parentHash := parentHash
        uncleHash := 0
        coinbase := 7
        stateRoot := 0
        transactionsRoot := 0
        receiptsRoot := 0
        logsBloom := 0
        difficulty := 0
        number := number
        gasLimit := 0
        gasUsed := 0
        timestamp := 0
        extraData := []
        mixHash := 0
        nonce := 0
        baseFeePerGas := 0
        committeeSignature := []
        epoch := 0
        epochSeed := none }
    body := ⟨[],[]⟩ }

def plainDb (number : UInt64) (accounts : Accounts) : ChainDb :=
  { chain := ZbxDb.empty.putBlock (plainBlock number 0)
    accounts := accounts
    codes := ∅
    words := ∅
    receiptGas := ∅
    trieNodes := [] }

/-- Account 1 pays 5 wei to account 7. -/
def paymentBlock : Block :=
  { header := { (plainBlock 1 0).header with gasLimit := 30000 }
    body := ⟨[⟨legacyTransfer 3 [],⟨0,5,6⟩,1,77⟩],[]⟩ }

def payerDb : ChainDb := plainDb 0 ((∅ : Accounts).insert 1 { AccountState.fresh with balance := 1000000000 })

end Samples

end ZbxChain
