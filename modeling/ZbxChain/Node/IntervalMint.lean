import ZbxChain.Node.StakingCommit
import ZbxChain.Node.SyncPath
import ZbxChain.Staking.EscrowMoney

/-! # The money of a window of commits

Execution pays the reward and the tips of every block to its coinbase, and at the end of an
interval the same rewards and tips are minted once more into the escrow account. The total of
all balances is followed through a whole run of commits.
-/
namespace ZbxChain

section Totals

def ChainDb.wei (db : ChainDb) (addr : Address) : ℕ := (db.getAccount addr).balance.toNat

@[irreducible] def ChainDb.total (db : ChainDb) : ℕ := ∑ addr : Address, db.wei addr

/-- What accounts held that the block does not name and its execution has written: it took
them for empty. -/
def overwritten (db : ChainDb) (block : Block) (view : StateView) : ℕ :=
  ((view.accounts.keys.filter (fun addr => addr ∉ block.referenced ∧ addr ∉ view.toDelete)).map db.wei).sum

/-- What accounts hold that the execution has deleted and the database keeps. -/
def revived (db : ChainDb) (block : Block) (view : StateView) : ℕ :=
  ((view.toDelete.dedup.filter (fun addr => addr ∈ block.referenced)).map db.wei).sum

variable {db : ChainDb} {block : Block} {view : StateView}

theorem wei_le_total_db (db : ChainDb) (addr : Address) : db.wei addr ≤ db.total := by
  unfold ChainDb.total
  exact Finset.single_le_sum (fun _ _ => Nat.zero_le _) (Finset.mem_univ addr)

theorem total_eq_stored (db : ChainDb) : db.total = (db.accounts.keys.map db.wei).sum := by
  rw [← sum_ite_mem (AList.keys_nodup db.accounts)]
  unfold ChainDb.total
  refine Finset.sum_congr rfl fun addr _ => ?_
  split
  · rfl
  · rename_i hmissing
    have hnone : db.accounts.lookup addr = none := AList.lookup_eq_none.mpr hmissing
    rw [ChainDb.wei, ChainDb.getAccount, hnone]
    rfl

theorem sum_overwritten : ∑ addr, (if addr ∉ block.referenced ∧ addr ∉ view.toDelete ∧
    (view.accounts.lookup addr).isSome then db.wei addr else 0) = overwritten db block view := by
  unfold overwritten
  rw [← sum_ite_mem ((AList.keys_nodup view.accounts).filter _)]
  have hcase : ∀ addr, addr ∉ block.referenced ∧ addr ∉ view.toDelete ∧ (view.accounts.lookup addr).isSome ↔
      addr ∈ view.accounts.keys.filter (fun addr => addr ∉ block.referenced ∧ addr ∉ view.toDelete) := by
    intro addr
    rw [List.mem_filter, decide_eq_true_eq, AList.lookup_isSome, AList.mem_keys, ← and_assoc, and_comm]
  exact Finset.sum_congr rfl fun addr _ => if_congr (hcase addr) rfl rfl

theorem sum_revived : ∑ addr, (if addr ∈ block.referenced ∧ addr ∈ view.toDelete then db.wei addr else 0) =
    revived db block view := by
  unfold revived
  rw [← sum_ite_mem ((List.nodup_dedup _).filter _)]
  have hcase : ∀ addr, addr ∈ block.referenced ∧ addr ∈ view.toDelete ↔
      addr ∈ view.toDelete.dedup.filter (fun addr => addr ∈ block.referenced) := by
    intro addr
    rw [List.mem_filter, List.mem_dedup, decide_eq_true_eq, and_comm]
  exact Finset.sum_congr rfl fun addr _ => if_congr (hcase addr) rfl rfl

end Totals

section Stored
variable {V K : Type} {P : Platform} {M : Machines} {S : StakingNode V K} {C : Commitments}
  {db : ChainDb} {faults : Faults} {vs : Option V} {block : Block} {ready : Ready V} {view : ExecView}
  {progress : Progress V}

theorem Seeded.wei (h : Seeded db block.referenced view) (addr : Address) :
    view.wei addr = if addr ∈ block.referenced then db.wei addr else 0 := by
  have hlive : addr ∉ view.state.overlay.toDelete := by
    dsimp only [StateView.overlay]
    rw [h.toDelete]
    exact List.not_mem_nil
  unfold ExecView.wei ChainDb.wei ExecView.getAccount
  rw [getAccount_eq_account?, Overlay.account?_of_not_mem hlive]
  dsimp only [StateView.overlay]
  rw [h.accounts, h.base]
  split
  · rfl
  · rfl

theorem Seeded.total_le (h : Seeded db block.referenced view) : view.total ≤ db.total := by
  unfold ExecView.total ChainDb.total
  refine Finset.sum_le_sum fun addr _ => ?_
  rw [h.wei]
  split
  · rfl
  · exact Nat.zero_le _

/-- An account of the view is stored, any other stays in the database. -/
theorem Prepared.wei_beforeRewards (h : Prepared P M S C db faults vs block ready view progress)
    (addr : Address) :
    (beforeRewards P S db faults block ready).wei addr +
        (if addr ∉ block.referenced ∧ addr ∉ ready.view.state.toDelete ∧
          (ready.view.state.accounts.lookup addr).isSome then db.wei addr else 0) + view.wei addr =
      ready.view.wei addr + db.wei addr +
        (if addr ∈ block.referenced ∧ addr ∈ ready.view.state.toDelete then db.wei addr else 0) := by
  have hbase : ready.view.state.base.lookup addr =
      if addr ∈ block.referenced then some (db.getAccount addr) else none := by
    rw [h.final.1, h.seeded.base]
  rw [h.seeded.wei]
  unfold ChainDb.wei ExecView.wei ExecView.getAccount
  rw [h.getAccount_beforeRewards, getAccount_eq_account?]
  by_cases hdeleted : addr ∈ ready.view.state.toDelete
  · rw [Overlay.account?_of_mem hdeleted]
    have hfresh : (AccountState.fresh).balance.toNat = 0 := rfl
    by_cases hnamed : addr ∈ block.referenced
    · simp only [hdeleted, hnamed, Option.getD_none, not_true, false_and, and_self, if_true, if_false, hfresh]
      omega
    · simp only [hdeleted, hnamed, Option.getD_none, not_true, false_and, and_false, if_false, hfresh]
      omega
  · rw [Overlay.account?_of_not_mem hdeleted]
    dsimp only [StateView.overlay]
    rw [hbase]
    by_cases hnamed : addr ∈ block.referenced
    · cases hlookup : ready.view.state.accounts.lookup addr with
      | some state =>
        simp only [hdeleted, hnamed, not_true, false_and, and_false, if_true, if_false, Option.some_or,
          Option.getD_some]
        omega
      | none =>
        simp only [hdeleted, hnamed, not_true, false_and, and_false, if_true, if_false, Option.none_or,
          Option.getD_some]
        omega
    · cases hlookup : ready.view.state.accounts.lookup addr with
      | some state =>
        simp only [hdeleted, hnamed, not_false_iff, true_and, false_and, if_true, if_false, Option.some_or,
          Option.getD_some, Option.isSome_some]
      | none =>
        have hfresh : (AccountState.fresh).balance.toNat = 0 := rfl
        simp only [hdeleted, hnamed, not_false_iff, true_and, false_and, if_false, Option.none_or,
          Option.getD_none, Option.isSome_none, Bool.false_eq_true, hfresh]
        omega

theorem Prepared.total_beforeRewards (h : Prepared P M S C db faults vs block ready view progress) :
    (beforeRewards P S db faults block ready).total + overwritten db block ready.view.state + view.total =
      ready.view.total + db.total + revived db block ready.view.state := by
  rw [← sum_overwritten, ← sum_revived]
  unfold ChainDb.total ExecView.total
  rw [← Finset.sum_add_distrib, ← Finset.sum_add_distrib, ← Finset.sum_add_distrib,
    ← Finset.sum_add_distrib]
  exact Finset.sum_congr rfl fun addr _ => h.wei_beforeRewards addr

theorem total_account (db : ChainDb) (stored : Address) (state : AccountState) :
    (db.applyAll [.account stored state]).total + db.wei stored = db.total + state.balance.toNat := by
  have hwei : ∀ addr, (db.applyAll [.account stored state]).wei addr =
      if addr = stored then state.balance.toNat else db.wei addr := by
    intro addr
    unfold ChainDb.wei
    rw [getAccount_account]
    split
    · rfl
    · rfl
  have hchange := sum_change (f := db.wei) (g := (db.applyAll [.account stored state]).wei) stored
    fun addr haddr => by rw [hwei, if_neg haddr]
  rw [hwei stored, if_pos rfl] at hchange
  unfold ChainDb.total
  exact hchange

/-- What the rewards of an interval add to the escrow account: the rewards and the tips of its
blocks, up to 128 bits, if the account can be read and written. -/
def escrowMint (db : ChainDb) (faults : Faults) (block : Block) (view : StateView) : ℕ :=
  if faults.escrow.isSome then 0
  else
    let stored := { db with chain := db.chain.putBlock block }
    let escrow := (view.overlay.account? stakingPrecompileAddr).getD (db.getAccount stakingPrecompileAddr)
    saturatingAdd128 escrow.balanceU128 (intervalEscrowMint block.number (accumulatedFees stored block.number)) -
      escrow.balanceU128

theorem Prepared.fees_beforeRewards (h : Prepared P M S C db faults vs block ready view progress)
    (height : UInt64) : accumulatedFees (beforeRewards P S db faults block ready) height =
      accumulatedFees { db with chain := db.chain.putBlock block } height := by
  refine accumulatedFees_congr ?_ ?_ height
  · exact (db.unwritten_applyAll _).2.2
  · exact blocks_beforeRewards h

/-- The escrow account is the only one that the rewards of an interval change. -/
theorem Prepared.total_rewards (state live : V)
    (h : Prepared P M S C db faults vs block ready view progress)
    (hfits : (beforeRewards P S db faults block ready).wei stakingPrecompileAddr ≤ maxU128) :
    ((beforeRewards P S db faults block ready).applyAll (rewardStep S (beforeRewards P S db faults block ready)
        faults (ready.output.patch block) (some state) (some live)).1).total =
      (beforeRewards P S db faults block ready).total + escrowMint db faults block ready.view.state := by
  have hescrow := h.getAccount_beforeRewards stakingPrecompileAddr
  have hbalance : ((beforeRewards P S db faults block ready).getAccount stakingPrecompileAddr).balanceU128 =
      (beforeRewards P S db faults block ready).wei stakingPrecompileAddr := balanceU128_of_small hfits
  have hnumber : (ready.output.patch block).header.number = block.number := rfl
  rw [rewardStep_writes, hnumber, h.fees_beforeRewards, escrowMint]
  dsimp only
  rw [← hescrow, hbalance]
  generalize hmint : intervalEscrowMint block.number (accumulatedFees { db with
    chain := db.chain.putBlock block } block.number) = mint
  have hend : 0 < mint → block.number.toNat % rewardInterval = 0 := by
    intro hpos
    by_contra hinside
    rw [intervalEscrowMint, if_pos hinside] at hmint
    omega
  have hnothing : saturatingAdd128 ((beforeRewards P S db faults block ready).wei stakingPrecompileAddr) 0 =
      (beforeRewards P S db faults block ready).wei stakingPrecompileAddr := min_eq_left hfits
  have hunwritten : (beforeRewards P S db faults block ready).applyAll [] =
      beforeRewards P S db faults block ready := rfl
  cases hfault : faults.escrow with
  | some e =>
    rw [if_neg (fun hall => by cases hall.2.2), Option.isSome_some, if_pos rfl, hunwritten, Nat.add_zero]
  | none =>
    rw [Option.isSome_none, if_neg Bool.false_ne_true]
    by_cases hpos : 0 < mint
    · rw [if_pos ⟨hend hpos,hpos,rfl⟩]
      have hwritten := total_account (beforeRewards P S db faults block ready) stakingPrecompileAddr
        (mintedEscrow (beforeRewards P S db faults block ready) mint)
      have hminted : (mintedEscrow (beforeRewards P S db faults block ready) mint).balance.toNat =
          saturatingAdd128 ((beforeRewards P S db faults block ready).wei stakingPrecompileAddr) mint := by
        rw [mintedEscrow, hbalance]
        exact toNat_setBalanceU128 (min_le_right _ _)
      have hgrows : (beforeRewards P S db faults block ready).wei stakingPrecompileAddr ≤
          saturatingAdd128 ((beforeRewards P S db faults block ready).wei stakingPrecompileAddr) mint :=
        le_min (Nat.le_add_right _ _) hfits
      rw [hminted] at hwritten
      omega
    · obtain rfl : mint = 0 := by omega
      rw [if_neg (fun hall => hpos hall.2.1), hnothing, Nat.sub_self, hunwritten, Nat.add_zero]

end Stored

section Commits
variable {V K : Type} {P : Platform} {M : Machines} {S : StakingNode V K} {C : Commitments}
  {db : ChainDb} {faults : Faults} {state : V} {block b : Block} {view : StateView}

theorem executeAndCommitWithValidatorSet_ok
    (h : (db.executeAndCommitWithValidatorSet P M S C faults state block).result = .ok b) :
    ∃ ready progress live, prepare P M S C db faults (some state) block = .ok ready ∧ ready.validators = some live ∧
      Prepared P M S C db faults (some state) block ready (seededView db block) progress ∧
      db.applyAll (db.executeAndCommitWithValidatorSet P M S C faults state block).writes =
        (beforeRewards P S db faults block ready).applyAll
          (rewardStep S (beforeRewards P S db faults block ready) faults (ready.output.patch block)
            (some state) (some live)).1 := by
  unfold ChainDb.executeAndCommitWithValidatorSet executeAndCommitInner at h ⊢
  rcases hprepare : prepare P M S C db faults (some state) block with ⟨early,e⟩ | ready
  · simp only [hprepare] at h
    cases h
  · obtain ⟨view,progress,hprepared⟩ := prepare_ok hprepare
    simp only [hprepare] at h ⊢
    obtain ⟨-,-,-,hwrites⟩ := persist_ok h
    obtain ⟨live,hlive⟩ := Option.isSome_iff_exists.mp (runBlock_isSome hprepared.ran)
    have hvalidators := hprepared.validators.trans hlive
    rw [hvalidators] at hwrites
    rw [hprepared.view_eq] at hprepared
    exact ⟨ready,progress,live,rfl,hvalidators,hprepared,hwrites⟩

/-- What the execution of a block takes from the balances besides the fees: what is burnt, what
the transactions lose, what does not fit into the balance of the coinbase, and what is
overwritten. -/
def lostBy (P : Platform) (M : Machines) (S : StakingPrecompile V K) (C : Commitments) (db : ChainDb)
    (state : V) (block : Block) : ℕ :=
  let view := seededView db block
  let losses := lossesThrough P M S C block ⟨some state,0,[]⟩ block.body.transactions view
  losses.1 + losses.2 + rewardCutAfter P M S C block (some state) view +
    overwritten db block ((runBlock P M S C block (some state)).runOn view).2.state

/-- What a commit adds to the balances besides the reward of the block: what the database keeps
of deleted accounts, and the mint of an interval. -/
def createdBy (P : Platform) (M : Machines) (S : StakingPrecompile V K) (C : Commitments) (db : ChainDb)
    (faults : Faults) (state : V) (block : Block) : ℕ :=
  let after := ((runBlock P M S C block (some state)).runOn (seededView db block)).2.state
  revived db block after + escrowMint db faults block after

def baseFeesBurned (P : Platform) (M : Machines) (S : StakingPrecompile V K) (C : Commitments) (db : ChainDb)
    (state : V) (block : Block) : ℕ :=
  match (runBlock P M S C block (some state)).runOn (seededView db block) with
  | (.ok progress,_) => feesKept block.header block.body.transactions progress.receipts
  | (.error _,_) => 0

theorem total_commit (hkeeps : S.KeepsTotal) (htotal : db.total < maxU128)
    (h : (db.executeAndCommitWithValidatorSet P M S C faults state block).result = .ok b) :
    (db.applyAll (db.executeAndCommitWithValidatorSet P M S C faults state block).writes).total +
        baseFeesBurned P M S.toStakingPrecompile C db state block +
        lostBy P M S.toStakingPrecompile C db state block =
      db.total + blockRewardAt block.number + createdBy P M S.toStakingPrecompile C db faults state block := by
  obtain ⟨ready,progress,live,-,-,hprepared,hwrites⟩ := executeAndCommitWithValidatorSet_ok h
  have hran : (runBlock P M S.toStakingPrecompile C block (some state)).runOn (seededView db block) =
      (.ok progress,ready.view) := hprepared.ran
  have hview := hprepared.seeded.total_le
  have hwrap : NoWrap block (seededView db block) := Or.inl (hview.trans_lt htotal)
  have hexecuted := total_runBlockAny (fun _ => hkeeps) (hview.trans htotal.le) hwrap hran
  have hstored := hprepared.total_beforeRewards
  have hescrow : (beforeRewards P S db faults block ready).wei stakingPrecompileAddr ≤ maxU128 := by
    unfold ChainDb.wei
    rw [hprepared.getAccount_beforeRewards]
    cases haccount : ready.view.state.overlay.account? stakingPrecompileAddr with
    | none => exact (wei_le_total_db db stakingPrecompileAddr).trans htotal.le
    | some escrow =>
      have hfits := wei_runBlock_le (fun _ => hkeeps) (hview.trans htotal.le) hwrap hran stakingPrecompileAddr
      unfold ExecView.wei ExecView.getAccount at hfits
      rwa [getAccount_eq_account?, haccount] at hfits
  have hrewards := hprepared.total_rewards state live hescrow
  rw [hwrites, hrewards, baseFeesBurned, lostBy, createdBy]
  rw [hran]
  dsimp only
  omega

/-- The call writes no balance that the block does not name, and deletes none that is stored. -/
def keepsStored (db : ChainDb) (block : Block) : StateAccess → Bool
  | .setAccount addr _ => decide (addr ∈ block.referenced ∨ db.wei addr = 0)
  | .selfdestruct addr => decide (addr ∈ block.referenced → db.wei addr = 0)
  | _ => true

/-- The commit has room for the reward, burns nothing and loses no balance. -/
structure Spared (P : Platform) (M : Machines) (S : StakingPrecompile V K) (C : Commitments) (db : ChainDb)
    (state : V) (block : Block) : Prop where
  room : db.total + blockRewardAt block.number < maxU128
  losses : lossesThrough P M S C block ⟨some state,0,[]⟩ block.body.transactions (seededView db block) = (0,0)
  stored : (runBlock P M S C block (some state)).run.Along ExecView.answer
    (fun call _ => keepsStored db block call) (seededView db block)

/-- The interval that ends with the block has rewards or tips, and the escrow account can be written. -/
def EndsInterval (db : ChainDb) (faults : Faults) (block : Block) : Prop :=
  0 < intervalEscrowMint block.number (accumulatedFees { db with chain := db.chain.putBlock block } block.number) ∧
    faults.escrow = none

/-- What `apply_interval_rewards` adds to the balances that the execution of the block has left. -/
def mintedAgain (P : Platform) (M : Machines) (S : StakingNode V K) (C : Commitments) (db : ChainDb)
    (faults : Faults) (state : V) (block : Block) : ℕ :=
  match prepare P M S C db faults (some state) block with
  | .ok ready =>
    let stored := beforeRewards P S db faults block ready
    (stored.applyAll (rewardStep S stored faults (ready.output.patch block) (some state)
      ready.validators).1).total - stored.total
  | .error _ => 0

/-- Only accounts that are empty in the database are written without being named or deleted. -/
def StoredKept (db : ChainDb) (block : Block) (view : StateView) : Prop :=
  (∀ addr ∈ view.accounts, addr ∈ block.referenced ∨ db.wei addr = 0) ∧
    ∀ addr ∈ view.toDelete, addr ∈ block.referenced → db.wei addr = 0

theorem StoredKept.answer {view : ExecView} {call : StateAccess} (hcall : keepsStored db block call)
    (h : StoredKept db block view.state) : StoredKept db block (ExecView.answer call view).2.state := by
  obtain ⟨hwritten,hdeleted⟩ := h
  cases call with
  | setAccount addr account =>
    have hnamed := of_decide_eq_true hcall
    dsimp only [ExecView.answer, StateView.setAccount]
    split
    · refine ⟨fun a ha => ?_,fun a ha => hdeleted a (List.mem_of_mem_filter ha)⟩
      rcases (AList.mem_insert _).mp ha with rfl | hold
      · exact hnamed
      · exact hwritten a hold
    · refine ⟨fun a ha => ?_,hdeleted⟩
      rcases (AList.mem_insert _).mp ha with rfl | hold
      · exact hnamed
      · exact hwritten a hold
  | selfdestruct addr =>
    have hempty := of_decide_eq_true hcall
    refine ⟨fun a ha => hwritten a (AList.mem_erase.mp ha).2,fun a ha => ?_⟩
    rcases List.mem_insert_iff.mp ha with rfl | hold
    · exact hempty
    · exact hdeleted a hold
  | _ => exact ⟨hwritten,hdeleted⟩

theorem StoredKept.sums (h : StoredKept db block view) :
    overwritten db block view = 0 ∧ revived db block view = 0 := by
  unfold overwritten revived
  rw [List.sum_eq_zero_iff, List.sum_eq_zero_iff, List.forall_mem_map, List.forall_mem_map]
  constructor
  · intro addr hmem
    obtain ⟨hkey,hfilter⟩ := List.mem_filter.mp hmem
    exact (h.1 addr (AList.mem_keys.mpr hkey)).resolve_left (of_decide_eq_true hfilter).1
  · intro addr hmem
    obtain ⟨hdeleted,hnamed⟩ := List.mem_filter.mp hmem
    exact h.2 addr (List.mem_dedup.mp hdeleted) (of_decide_eq_true hnamed)

theorem total_le_of_seeded {ready : Ready V} {progress : Progress V} (hkeeps : S.KeepsTotal)
    (htotal : db.total < maxU128)
    (h : Prepared P M S C db faults (some state) block ready (seededView db block) progress) :
    ready.view.total ≤ db.total + blockRewardAt block.number := by
  have hview := h.seeded.total_le
  have hexecuted := total_runBlockAny (fun _ => hkeeps) (hview.trans htotal.le) (Or.inl (hview.trans_lt htotal)) h.ran
  omega

theorem escrowMint_pos_iff (hroom : ((view.overlay.account? stakingPrecompileAddr).getD
    (db.getAccount stakingPrecompileAddr)).balance.toNat < maxU128) :
    0 < escrowMint db faults block view ↔ EndsInterval db faults block := by
  unfold escrowMint EndsInterval
  dsimp only
  rw [balanceU128_of_small hroom.le]
  cases faults.escrow with
  | some e => exact iff_of_false (fun h => by cases h) (fun h => by cases h.2)
  | none =>
    rw [Option.isSome_none, if_neg Bool.false_ne_true, and_iff_left rfl, saturatingAdd128]
    omega

theorem Prepared.escrow_lt {ready : Ready V} {progress : Progress V} (hkeeps : S.KeepsTotal)
    (hroom : db.total + blockRewardAt block.number < maxU128)
    (h : Prepared P M S C db faults (some state) block ready (seededView db block) progress) :
    ((ready.view.state.overlay.account? stakingPrecompileAddr).getD
      (db.getAccount stakingPrecompileAddr)).balance.toNat < maxU128 := by
  cases haccount : ready.view.state.overlay.account? stakingPrecompileAddr with
  | none =>
    have hstored := wei_le_total_db db stakingPrecompileAddr
    exact lt_of_le_of_lt hstored (by omega)
  | some escrow =>
    have hexecuted := total_le_of_seeded hkeeps (by omega) h
    have hheld := wei_le_total ready.view stakingPrecompileAddr
    unfold ExecView.wei ExecView.getAccount at hheld
    rw [getAccount_eq_account?, haccount] at hheld
    exact lt_of_le_of_lt (hheld.trans hexecuted) hroom

/-- A commit that is spared mints again just when it ends an interval, and adds to the balances the
reward and the mint less the base fees. -/
theorem total_spared (hkeeps : S.KeepsTotal) (hspared : Spared P M S.toStakingPrecompile C db state block)
    (h : (db.executeAndCommitWithValidatorSet P M S C faults state block).result = .ok b) :
    (db.applyAll (db.executeAndCommitWithValidatorSet P M S C faults state block).writes).total +
        baseFeesBurned P M S.toStakingPrecompile C db state block =
      db.total + (blockRewardAt block.number + mintedAgain P M S C db faults state block) ∧
    (0 < mintedAgain P M S C db faults state block ↔ EndsInterval db faults block) := by
  have hroom := hspared.room
  have htotal : db.total < maxU128 := by omega
  have hcommit := total_commit hkeeps htotal h
  obtain ⟨ready,progress,live,hready,hlive,hprepared,-⟩ := executeAndCommitWithValidatorSet_ok h
  have hran : (runBlock P M S.toStakingPrecompile C block (some state)).runOn (seededView db block) =
      (.ok progress,ready.view) := hprepared.ran
  have hescrow := hprepared.escrow_lt hkeeps hroom
  have hstored : StoredKept db block ready.view.state := by
    have hseeded := hprepared.seeded
    have hfirst : StoredKept db block (seededView db block).state := by
      unfold StoredKept
      rw [hseeded.accounts, hseeded.toDelete]
      exact ⟨fun addr hmem => absurd hmem (AList.notMem_empty addr),nofun⟩
    have hstep : ∀ call (view : ExecView), keepsStored db block call = true → StoredKept db block view.state →
        StoredKept db block (ExecView.answer call view).2.state :=
      fun _ _ hcall hview => StoredKept.answer hcall hview
    have hkept := Program.run_keeps_along (I := fun v : ExecView => StoredKept db block v.state) hstep _ _
      hspared.stored hfirst
    rw [hprepared.ran] at hkept
    exact hkept
  have hminted : mintedAgain P M S C db faults state block = escrowMint db faults block ready.view.state := by
    have hrewards := hprepared.total_rewards state live (by
      unfold ChainDb.wei
      rw [hprepared.getAccount_beforeRewards]
      exact hescrow.le)
    unfold mintedAgain
    rw [hready]
    dsimp only
    rw [hlive, hrewards, Nat.add_sub_cancel_left]
  rw [hminted]
  refine ⟨?_,escrowMint_pos_iff hescrow⟩
  have hview := hprepared.seeded.total_le
  have hcut := rewardCutAfter_le (fun _ => hkeeps) (hview.trans htotal.le) (Or.inl (hview.trans_lt htotal)) hran
  obtain ⟨hover,hrevived⟩ := hstored.sums
  unfold lostBy createdBy at hcommit
  dsimp only at hcommit
  rw [hspared.losses, hran] at hcommit
  dsimp only at hcommit
  omega

end Commits

namespace Staking
open Machine

/-- A call of `execute_and_commit_with_validator_set`: the storage errors it meets, the staking
state it starts from, and the block. -/
structure CommitCall where
  faults : Faults
  ledger : LedgerFaults
  state : StakingState
  block : Block

section Window
variable (P : Platform) (M : Machines) (C : Commitments) (decode : List UInt8 → Option StakingTx)

def commitNext (db : ChainDb) (call : CommitCall) : ChainDb × Except String Block :=
  let outcome := db.executeAndCommitWithValidatorSet P M (precompile P call.ledger decode) C call.faults
    call.state call.block
  (db.applyAll outcome.writes,outcome.result)

def CommitCall.staking (call : CommitCall) : StakingPrecompile StakingState StakingTx :=
  (precompile P call.ledger decode).toStakingPrecompile

def windowBaseFees (db : ChainDb) (calls : List CommitCall) : ℕ :=
  ((history (commitNext P M C decode) db calls).map fun e =>
    baseFeesBurned P M (e.call.staking P decode) C e.before e.call.state e.call.block).sum

variable {P M C decode}

/-- What spared commits add to the balances besides the rewards. -/
theorem total_window {db : ChainDb} {calls : List CommitCall}
    (hcommitted : ∀ e ∈ history (commitNext P M C decode) db calls, ∃ b, e.output = .ok b)
    (hspared : ∀ e ∈ history (commitNext P M C decode) db calls,
      Spared P M (e.call.staking P decode) C e.before e.call.state e.call.block) :
    (final (commitNext P M C decode) db calls).total + windowBaseFees P M C decode db calls =
      db.total + ((calls.map fun call => blockRewardAt call.block.number).sum +
        ((history (commitNext P M C decode) db calls).map fun e => mintedAgain P M (precompile P e.call.ledger decode)
          C e.before e.call.faults e.call.state e.call.block).sum) := by
  have hstep : ∀ e ∈ history (commitNext P M C decode) db calls,
      (commitNext P M C decode e.before e.call).1.total +
          baseFeesBurned P M (e.call.staking P decode) C e.before e.call.state e.call.block =
        e.before.total + (blockRewardAt e.call.block.number + mintedAgain P M (precompile P e.call.ledger decode)
          C e.before e.call.faults e.call.state e.call.block) := by
    intro e he
    obtain ⟨b,hb⟩ := hcommitted e he
    rw [output_eq _ he] at hb
    exact (total_spared (keepsTotal_precompile P e.call.ledger decode) (hspared e he) hb).1
  have hwindow := balance_history _ hstep
  have hrewards : ((history (commitNext P M C decode) db calls).map fun e =>
      blockRewardAt e.call.block.number) = calls.map fun call => blockRewardAt call.block.number := by
    conv_rhs => rw [← map_call (commitNext P M C decode) db calls]
    rw [List.map_map]
    rfl
  rw [List.sum_map_add, hrewards] at hwindow
  exact hwindow

end Window

/-- In a window of spared commits the balances grow by the block rewards less the base fees, and nothing
is minted again, just when no commit ends an interval with rewards or tips. -/
theorem minted_once_iff (P : Platform) (M : Machines) (C : Commitments)
    (decode : List UInt8 → Option StakingTx) (db : ChainDb) (calls : List CommitCall)
    (hcommitted : ∀ e ∈ history (commitNext P M C decode) db calls, ∃ b, e.output = .ok b)
    (hspared : ∀ e ∈ history (commitNext P M C decode) db calls,
      Spared P M (e.call.staking P decode) C e.before e.call.state e.call.block) :
    ((final (commitNext P M C decode) db calls).total + windowBaseFees P M C decode db calls =
        db.total + (calls.map fun call => blockRewardAt call.block.number).sum ∧
      ∀ e ∈ history (commitNext P M C decode) db calls, mintedAgain P M (precompile P e.call.ledger decode) C
        e.before e.call.faults e.call.state e.call.block = 0) ↔
    ∀ e ∈ history (commitNext P M C decode) db calls, ¬ EndsInterval e.before e.call.faults e.call.block := by
  have hmoney := total_window hcommitted hspared
  have hmint : ∀ e ∈ history (commitNext P M C decode) db calls,
      (mintedAgain P M (precompile P e.call.ledger decode) C e.before e.call.faults e.call.state
        e.call.block = 0 ↔ ¬ EndsInterval e.before e.call.faults e.call.block) := by
    intro e he
    obtain ⟨b,hb⟩ := hcommitted e he
    rw [output_eq _ he] at hb
    rw [← (total_spared (keepsTotal_precompile P e.call.ledger decode) (hspared e he) hb).2, Nat.pos_iff_ne_zero,
      not_not]
  constructor
  · intro h e he
    exact (hmint e he).mp (h.2 e he)
  · intro hnone
    have hnothing := fun e he => (hmint e he).mpr (hnone e he)
    rw [List.sum_eq_zero (List.forall_mem_map.mpr hnothing), Nat.add_zero] at hmoney
    exact ⟨hmoney,hnothing⟩

def idleState : StakingState := ⟨ValidatorSet.new,.new,⟨∅,∅⟩,⟨none,none⟩⟩

def plainWindow (start count : ℕ) : List CommitCall :=
  (List.range' start count).map fun height =>
    ⟨.none,.none,idleState,plainBlock (UInt64.ofNat height) 0⟩

def noPayload : List UInt8 → Option StakingTx := fun _ => none

/-- The first block that comes with no reward. -/
def lastHalving : ℕ := 61 * halvingInterval

/-- A payment at the base fee, and the rest of its interval. -/
def paymentWindow : List CommitCall :=
  ⟨.none,.none,idleState,{ paymentBlock with
    header := { paymentBlock.header with number := UInt64.ofNat (lastHalving + 1), baseFeePerGas := 20 } }⟩ ::
      plainWindow (lastHalving + 2) 99

def paidDb : ChainDb := plainDb (UInt64.ofNat lastHalving) payerDb.accounts

/-- The base fees of a payment, in a window at the end of all rewards. -/
theorem minted_once_payment :
    (final (commitNext .integersEmptyRoot idleMachines zeroCommitments noPayload) paidDb paymentWindow).total +
        windowBaseFees .integersEmptyRoot idleMachines zeroCommitments noPayload paidDb paymentWindow =
      paidDb.total + (paymentWindow.map fun call => blockRewardAt call.block.number).sum := by
  have hrun : (history (commitNext .integersEmptyRoot idleMachines zeroCommitments noPayload) paidDb
      paymentWindow).all (fun e => e.output.isOk && decide ((e.before.accounts.keys.map e.before.wei).sum +
        blockRewardAt e.call.block.number < maxU128) && decide (lossesThrough .integersEmptyRoot idleMachines
          (e.call.staking .integersEmptyRoot noPayload) zeroCommitments e.call.block ⟨some e.call.state,0,[]⟩
          e.call.block.body.transactions (seededView e.before e.call.block) = (0,0)) && decide
        ((runBlock .integersEmptyRoot idleMachines (e.call.staking .integersEmptyRoot noPayload) zeroCommitments
          e.call.block (some e.call.state)).run.Along ExecView.answer
          (fun call _ => keepsStored e.before e.call.block call) (seededView e.before e.call.block)) && decide
        (intervalEscrowMint e.call.block.number (accumulatedFees { e.before with
          chain := e.before.chain.putBlock e.call.block } e.call.block.number) = 0)) = true := by decide +kernel
  refine ((minted_once_iff .integersEmptyRoot idleMachines zeroCommitments noPayload paidDb paymentWindow
    (fun e he => ?_) (fun e he => ?_)).mpr (fun e he hends => ?_)).1
  all_goals
    have hentry := List.all_eq_true.mp hrun e he
    simp only [Bool.and_eq_true, decide_eq_true_eq] at hentry
    obtain ⟨⟨⟨⟨hok,hroom⟩,hlosses⟩,hstored⟩,hmint⟩ := hentry
  · cases hresult : e.output with
    | ok b => exact ⟨b,rfl⟩
    | error message =>
      rw [hresult] at hok
      cases hok
  · rw [← total_eq_stored] at hroom
    exact ⟨hroom,hlosses,hstored⟩
  · exact hends.1.ne' hmint

/-- A hundred empty blocks are rewarded twice. -/
theorem minted_twice : ¬ ∀ (P : Platform) (M : Machines) (C : Commitments)
    (decode : List UInt8 → Option StakingTx) (db : ChainDb) (calls : List CommitCall),
    calls.length = rewardInterval →
    (∀ e ∈ history (commitNext P M C decode) db calls, ∃ b, e.output = .ok b) →
    (final (commitNext P M C decode) db calls).total + windowBaseFees P M C decode db calls =
      db.total + (calls.map fun call => blockRewardAt call.block.number).sum := by
  intro hclaim
  have hwindow := hclaim .integersEmptyRoot idleMachines zeroCommitments noPayload (plainDb 0 ∅)
    (plainWindow 1 100) (by decide) ?_
  · have hafter : (final (commitNext .integersEmptyRoot idleMachines zeroCommitments noPayload) (plainDb 0 ∅)
        (plainWindow 1 100)).total = 400 * 10 ^ 18 := by
      rw [total_eq_stored]
      decide +kernel
    have hbefore : (plainDb 0 ∅).total = 0 := by
      rw [total_eq_stored]
      decide +kernel
    have hrewards : ((plainWindow 1 100).map fun call => blockRewardAt call.block.number).sum =
        200 * 10 ^ 18 := by decide +kernel
    omega
  · have hrun : (history (commitNext .integersEmptyRoot idleMachines zeroCommitments noPayload) (plainDb 0 ∅)
        (plainWindow 1 100)).all (fun e => e.output.isOk) = true := by decide +kernel
    intro e he
    have hentry := List.all_eq_true.mp hrun e he
    cases hresult : e.output with
    | ok b => exact ⟨b,rfl⟩
    | error message =>
      rw [hresult] at hentry
      cases hentry

end Staking

end ZbxChain
