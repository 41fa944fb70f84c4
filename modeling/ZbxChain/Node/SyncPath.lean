import ZbxChain.Execution.SameView
import ZbxChain.Node.Committed

/-! # The path of validators and the path of syncing nodes

Both execute a block in the same way but for the calls to the staking precompile, and only
validators add the rewards of an interval. The two executions are compared turn by turn.
-/
namespace ZbxChain

section Turns
variable {V K : Type} (P : Platform) (M : Machines) (S : StakingPrecompile V K)

def turn (header : BlockHeader) (validators : Option V) (tx : SignedTransaction) :
    TxProgram (Option V × TxResult) := do
  let (validators,result) ← executeAny P M S tx header validators
  credit header.coinbase (validatorFee header result)
  pure (validators,result)

/-- Every transaction to the staking precompile, in the state it meets, leaves the same
accounts whether it is dispatched or executed like any other, or is refused both ways. -/
def StakingAlike (header : BlockHeader) :
    Option V → ExecView → List SignedTransaction → Prop
  | _, _, [] => True
  | validators, view, tx :: rest =>
    (isStakingDestination tx.tx.recipient = true →
      Parallel ((turn P M S header validators tx).runOn view) ((turn P M S header none tx).runOn view)) ∧
    match (turn P M S header validators tx).runOn view with
    | (.ok (validators,_),view) => StakingAlike header validators view rest
    | (.error _,_) => True

variable {P M S} {C : Commitments} {block : Block} {progress : Progress V} {validators : Option V}
  {tx : SignedTransaction} {view : ExecView}

theorem executeOne_runOn :
    (executeOne P M S C block progress tx).runOn view =
      match (turn P M S block.header progress.validators tx).runOn view with
      | (.ok (validators,result),view) => (.ok ⟨validators,progress.cumulativeGas + result.gasUsed,
          progress.receipts ++ [receiptOf P C block progress.receipts.length tx
            (progress.cumulativeGas + result.gasUsed) result]⟩,view)
      | (.error e,view) => (.error e,view) := by
  unfold executeOne turn
  rw [TxProgram.runOn_bind, TxProgram.runOn_bind]
  rcases (executeAny P M S tx block.header progress.validators).runOn view with ⟨e | ⟨after,result⟩,view'⟩
  · rfl
  · dsimp only
    rw [TxProgram.runOn_bind, TxProgram.runOn_bind, TxProgram.runOn_lift]
    rfl

/-- A turn in which the transaction is executed, not dispatched. -/
theorem turn_runOn_executeTx {header : BlockHeader}
    (h : validators = none ∨ isStakingDestination tx.tx.recipient = false) :
    (turn P M S header validators tx).runOn view =
      match (executeTx P M tx header).runOn view with
      | (.ok result,view) => (.ok (validators,result),
          ((credit header.coinbase (validatorFee header result)).run ExecView.answer view).2)
      | (.error e,view) => (.error e,view) := by
  have hplain : ∀ kept : Option V,
      (do let result ← executeTx P M tx header
          pure (kept,result) : TxProgram (Option V × TxResult)).runOn view =
        match (executeTx P M tx header).runOn view with
        | (.ok result,view) => (.ok (kept,result),view)
        | (.error e,view) => (.error e,view) := by
    intro kept
    rw [TxProgram.runOn_bind]
    rcases (executeTx P M tx header).runOn view with ⟨e | result,view'⟩
    · rfl
    · rfl
  have hany : (executeAny P M S tx header validators).runOn view =
      match (executeTx P M tx header).runOn view with
      | (.ok result,view) => (.ok (validators,result),view)
      | (.error e,view) => (.error e,view) := by
    cases validators with
    | none => exact hplain none
    | some state =>
      have hdestination := h.resolve_left nofun
      unfold executeAny
      simp only [hdestination, Bool.false_eq_true, if_false]
      exact hplain (some state)
  unfold turn
  rw [TxProgram.runOn_bind, hany]
  rcases (executeTx P M tx header).runOn view with ⟨e | result,view'⟩
  · rfl
  · dsimp only
    rw [TxProgram.runOn_bind, TxProgram.runOn_lift]
    rfl

theorem turn_of_not_staking {header : BlockHeader}
    (h : isStakingDestination tx.tx.recipient = false) :
    Parallel ((turn P M S header validators tx).runOn view) ((turn P M S header none tx).runOn view) := by
  rw [turn_runOn_executeTx (Or.inr h), turn_runOn_executeTx (Or.inl rfl)]
  rcases (executeTx P M tx header).runOn view with ⟨e | result,view'⟩
  · trivial
  · exact SameView.refl _

theorem executeAll_parallel {txs : List SignedTransaction} {v w : ExecView} (h : SameView v w)
    {progress progress' : Progress V} (hnone : progress'.validators = none)
    (hstaking : StakingAlike P M S block.header progress.validators v txs) :
    Parallel ((executeAll P M S C block progress txs).runOn v)
      ((executeAll P M S C block progress' txs).runOn w) := by
  induction txs generalizing v w progress progress' with
  | nil => exact h
  | cons tx rest ih =>
    obtain ⟨hturn,hrest⟩ := hstaking
    have hfirst : Parallel ((turn P M S block.header progress.validators tx).runOn v)
        ((turn P M S block.header none tx).runOn w) := by
      refine Parallel.trans ?_ (h.runOn _)
      cases hdestination : isStakingDestination tx.tx.recipient with
      | true => exact hturn hdestination
      | false => exact turn_of_not_staking hdestination
    have hkept : ∀ after result view', (turn P M S block.header none tx).runOn w =
        (.ok (after,result),view') → after = none := by
      intro after result view' hrun
      rw [turn_runOn_executeTx (Or.inl rfl)] at hrun
      rcases hcall : (executeTx P M tx block.header).runOn w with ⟨e | r,w'⟩
      · rw [hcall] at hrun
        cases hrun
      · rw [hcall] at hrun
        cases hrun
        rfl
    rw [executeAll, executeAll, TxProgram.runOn_bind, TxProgram.runOn_bind, executeOne_runOn,
      executeOne_runOn, hnone]
    rcases hleft : (turn P M S block.header progress.validators tx).runOn v
      with ⟨e | ⟨after,result⟩,v'⟩
    · rcases hright : (turn P M S block.header none tx).runOn w with ⟨e' | ⟨after',result'⟩,w'⟩
      · trivial
      · rw [hleft, hright] at hfirst
        exact hfirst.elim
    · rcases hright : (turn P M S block.header none tx).runOn w with ⟨e' | ⟨after',result'⟩,w'⟩
      · rw [hleft, hright] at hfirst
        exact hfirst.elim
      · rw [hleft, hright] at hfirst
        rw [hleft] at hrest
        have hnext := hkept after' result' w' hright
        subst hnext
        exact ih hfirst rfl hrest

theorem runBlock_parallel {v w : ExecView} (h : SameView v w)
    (hstaking : StakingAlike P M S block.header validators v block.body.transactions) :
    Parallel ((runBlock P M S C block validators).runOn v) ((runBlock P M S C block none).runOn w) := by
  unfold runBlock
  by_cases hlimit : BLOCK_GAS_LIMIT < block.header.gasLimit
  · simp only [if_pos hlimit]
    trivial
  · simp only [if_neg hlimit]
    have hall : Parallel
        ((executeAll P M S C block ⟨validators,0,[]⟩ block.body.transactions).runOn v)
        ((executeAll P M S C block ⟨none,0,[]⟩ block.body.transactions).runOn w) :=
      executeAll_parallel h rfl hstaking
    rw [TxProgram.runOn_bind, TxProgram.runOn_bind]
    rcases hleft : (executeAll P M S C block ⟨validators,0,[]⟩ block.body.transactions).runOn v
      with ⟨e | progress,v'⟩
    · rcases hright : (executeAll P M S C block ⟨none,0,[]⟩ block.body.transactions).runOn w
        with ⟨e' | progress',w'⟩
      · trivial
      · rw [hleft, hright] at hall
        exact hall.elim
    · rcases hright : (executeAll P M S C block ⟨none,0,[]⟩ block.body.transactions).runOn w
        with ⟨e' | progress',w'⟩
      · rw [hleft, hright] at hall
        exact hall.elim
      · rw [hleft, hright] at hall
        have hviews : SameView v' w' := hall
        by_cases hreward : 0 < blockRewardAt block.number
        · simp only [if_pos hreward]
          rw [TxProgram.runOn_bind, TxProgram.runOn_bind, TxProgram.runOn_lift, TxProgram.runOn_lift]
          exact (hviews.run (credit block.header.coinbase (blockRewardAt block.number))).2
        · simp only [if_neg hreward]
          exact hviews

theorem turn_isSome {header : BlockHeader} {state : V} {after : Option V} {result : TxResult}
    {view' : ExecView}
    (h : (turn P M S header (some state) tx).runOn view = (.ok (after,result),view')) :
    after.isSome = true := by
  cases hdestination : isStakingDestination tx.tx.recipient with
  | false =>
    rw [turn_runOn_executeTx (Or.inr hdestination)] at h
    rcases hcall : (executeTx P M tx header).runOn view with ⟨e | r,w⟩
    · rw [hcall] at h
      cases h
    · rw [hcall] at h
      cases h
      rfl
  | true =>
    unfold turn executeAny at h
    simp only [hdestination, if_true] at h
    rw [TxProgram.runOn_bind, TxProgram.runOn_bind] at h
    rcases hcall : (executeStakingTx S tx header state).runOn view with ⟨e | ⟨next,r⟩,w⟩
    · rw [hcall] at h
      cases h
    · rw [hcall] at h
      cases h
      rfl

theorem executeAll_isSome {txs : List SignedTransaction} {progress' : Progress V} {view' : ExecView}
    (hsome : progress.validators.isSome = true)
    (h : (executeAll P M S C block progress txs).runOn view = (.ok progress',view')) :
    progress'.validators.isSome = true := by
  induction txs generalizing view progress with
  | nil =>
    cases h
    exact hsome
  | cons tx rest ih =>
    obtain ⟨state,hstate⟩ := Option.isSome_iff_exists.mp hsome
    rw [executeAll, TxProgram.runOn_bind, executeOne_runOn] at h
    rcases hturn : (turn P M S block.header progress.validators tx).runOn view
      with ⟨e | ⟨after,result⟩,next⟩
    · rw [hturn] at h
      cases h
    · rw [hturn] at h
      rw [hstate] at hturn
      exact ih (turn_isSome hturn) h

theorem runBlock_isSome {state : V} {progress' : Progress V} {view' : ExecView}
    (h : (runBlock P M S C block (some state)).runOn view = (.ok progress',view')) :
    progress'.validators.isSome = true := by
  unfold runBlock at h
  by_cases hlimit : BLOCK_GAS_LIMIT < block.header.gasLimit
  · simp only [if_pos hlimit] at h
    cases h
  · simp only [if_neg hlimit] at h
    rw [TxProgram.runOn_bind] at h
    rcases hall : (executeAll P M S C block ⟨some state,0,[]⟩ block.body.transactions).runOn view
      with ⟨e | progress,next⟩
    · rw [hall] at h
      cases h
    · rw [hall] at h
      have hsome := executeAll_isSome rfl hall
      by_cases hreward : 0 < blockRewardAt block.number
      · simp only [if_pos hreward] at h
        rw [TxProgram.runOn_bind, TxProgram.runOn_lift] at h
        cases h
        exact hsome
      · simp only [if_neg hreward] at h
        cases h
        exact hsome

end Turns

section Orders
variable {V K : Type} (P : Platform) (order : {α : Type} → List α → List α)
  (horder : ∀ {α : Type} (l : List α), (order l).Perm l)

def Platform.reordered : Platform :=
  { P with
    iterOrder := order
    iterOrder_perm := horder }

theorem runBlock_reordered (M : Machines) (S : StakingPrecompile V K) (C : Commitments) (block : Block)
    (validators : Option V) :
    runBlock (P.reordered order horder) M S C block validators = runBlock P M S C block validators := by
  have hall : ∀ (txs : List SignedTransaction) (progress : Progress V),
      executeAll (P.reordered order horder) M S C block progress txs =
        executeAll P M S C block progress txs := by
    intro txs
    induction txs with
    | nil => exact fun _ => rfl
    | cons tx rest ih =>
      intro progress
      rw [executeAll, executeAll]
      have hone : executeOne (P.reordered order horder) M S C block progress tx =
          executeOne P M S C block progress tx := rfl
      rw [hone]
      exact congrArg _ (funext ih)
  unfold runBlock
  simp only [hall]

end Orders

section Paths

structure SameState (db db' : ChainDb) : Prop where
  accounts : ∀ addr, (db.getAccount addr).balance = (db'.getAccount addr).balance ∧
    (db.getAccount addr).nonce = (db'.getAccount addr).nonce
  codes : ∀ addr, db.codeAt addr = db'.codeAt addr
  words : ∀ addr slot, db.getStorage addr slot = db'.getStorage addr slot

def seededView (db : ChainDb) (block : Block) : ExecView :=
  match seedAll db .none block.referenced [] .new with
  | .ok view => view
  | .error _ => .new

def RootFound (P : Platform) (db : ChainDb) (view : StateView) : Prop :=
  ∃ root, (computeStateRootWithDb P (view.visible P) view.storage db.adapter).2 = .ok root

/-- No interval ends at this height, or nothing is minted at its end, or the escrow account
has all it can have. -/
def MintsNothing (db : ChainDb) (number : UInt64) : Prop :=
  number.toNat % rewardInterval = 0 → intervalEscrowMint number (accumulatedFees db number) = 0 ∨
    (db.getAccount stakingPrecompileAddr).balance.toNat = maxU128

variable {V K : Type} {P : Platform} {M : Machines} {S : StakingNode V K} {C : Commitments}
  {db : ChainDb} {faults : Faults} {validators : Option V} {block : Block}

theorem prepare_ok_iff (hsilent : faults.Silent) :
    (∃ ready, prepare P M S C db faults validators block = .ok ready) ↔
      (∃ progress, ((runBlock P M S.toStakingPrecompile C block validators).runOn
          (seededView db block)).1 = .ok progress) ∧
        RootFound P db ((runBlock P M S.toStakingPrecompile C block validators).runOn
          (seededView db block)).2.state ∧
        db.chain.head = saturatingSub64 block.header.number 1 := by
  obtain ⟨hseed,view,hview⟩ := seedAll_silent hsilent db block.referenced [] .new
  have hseeded : seededView db block = view := by rw [seededView, hview]
  constructor
  · rintro ⟨ready,hready⟩
    obtain ⟨view',progress,hprepared⟩ := prepare_ok hready
    have hsame : view' = view := by
      rw [← Except.ok.injEq, ← hprepared.seeds, hseed, hview]
    subst hsame
    have hrun : (runBlock P M S.toStakingPrecompile C block validators).runOn view' =
        (.ok progress,ready.view) := hprepared.ran
    rw [hseeded, hrun]
    exact ⟨⟨progress,rfl⟩,⟨_,hprepared.root⟩,hprepared.head⟩
  · rw [hseeded]
    rintro ⟨⟨progress,hprogress⟩,⟨root,hroot⟩,hhead⟩
    rcases hrun : (runBlock P M S.toStakingPrecompile C block validators).runOn view with ⟨_ | _,after⟩
    · rw [hrun] at hprogress
      cases hprogress
    · rw [hrun] at hroot
      dsimp only at hroot
      rcases hcompute : computeStateRootWithDb P (after.state.visible P) after.state.storage db.adapter
        with ⟨adapter,result⟩
      rw [hcompute] at hroot
      cases hroot
      change (runBlock P M S.toStakingPrecompile C block validators).run.run ExecView.answer view = _ at hrun
      simp only [prepare, hseed, hview, executeInner, hrun, hsilent.trieRead, hcompute]
      rw [if_neg (not_not.mpr hhead)]
      exact ⟨_,rfl⟩

theorem prepare_error {early : List DbWrite} {e : String}
    (h : prepare P M S C db faults validators block = .error (early,e)) :
    early.filterMap DbWrite.account? = [] := by
  have hearly : ∀ executed : Executed V, (executed.early db).filterMap DbWrite.account? = [] := by
    intro executed
    unfold Executed.early
    split <;> split <;> rfl
  unfold prepare at h
  dsimp only at h
  split at h
  · cases h
    rfl
  · split at h
    · cases h
      exact hearly _
    · split at h
      · cases h
        exact hearly _
      · cases h

theorem sameState_of_accounts {db db' : ChainDb} (haccounts : ∀ addr, db.getAccount addr = db'.getAccount addr)
    (hwords : db.words = db'.words) (hcodes : db.codes = db'.codes) : SameState db db' where
  accounts := fun addr => by rw [haccounts]; exact ⟨rfl,rfl⟩
  codes := fun addr => by rw [ChainDb.codeAt, haccounts, ChainDb.getCode, hcodes]; rfl
  words := fun addr slot => by rw [ChainDb.getStorage, hwords]; rfl

theorem mintedEscrow_balance {db : ChainDb} {mint : ℕ} (hmint : 0 < mint) :
    (mintedEscrow db mint).balance = (db.getAccount stakingPrecompileAddr).balance ↔
      (db.getAccount stakingPrecompileAddr).balance.toNat = maxU128 := by
  unfold mintedEscrow AccountState.setBalanceU128 AccountState.balanceU128 saturatingAdd128
  dsimp only
  generalize (db.getAccount stakingPrecompileAddr).balance = balance
  have hmax : maxU128 < 2 ^ 256 := by decide
  have hfits : min (min balance.toNat maxU128 + mint) maxU128 < 2 ^ 256 :=
    lt_of_le_of_lt (min_le_right _ _) hmax
  rw [← BitVec.toNat_inj, BitVec.toNat_ofNat, Nat.mod_eq_of_lt hfits]
  omega

theorem accumulatedFees_congr {db db' : ChainDb} (hreceipts : db.receiptGas = db'.receiptGas)
    (hblocks : ∀ h, (db.chain.getBlockByNumber h).map
        (fun b => (b.body.transactions,b.header.baseFeePerGas)) =
      (db'.chain.getBlockByNumber h).map (fun b => (b.body.transactions,b.header.baseFeePerGas)))
    (height : UInt64) : accumulatedFees db height = accumulatedFees db' height := by
  have hfee : ∀ baseFee tx, storedFee db baseFee tx = storedFee db' baseFee tx := by
    intro baseFee tx
    simp only [storedFee, hreceipts]
  unfold accumulatedFees
  congr 1
  funext fees h
  have hblock := hblocks h
  cases hleft : db.chain.getBlockByNumber h with
  | none =>
    rw [hleft, Option.map_none] at hblock
    rw [Option.map_eq_none_iff.mp hblock.symm]
  | some b =>
    rw [hleft, Option.map_some] at hblock
    obtain ⟨b',hright,hpair⟩ := Option.map_eq_some_iff.mp hblock.symm
    obtain ⟨htransactions,hfee'⟩ := Prod.mk.inj hpair
    rw [hright]
    simp only [htransactions, hfee', hfee]

theorem rewardStep_writes (state live : V) :
    (rewardStep S db faults block (some state) (some live)).1 =
      if block.header.number.toNat % rewardInterval = 0 ∧
          0 < intervalEscrowMint block.header.number (accumulatedFees db block.header.number) ∧
          faults.escrow = none then
        [.account stakingPrecompileAddr
          (mintedEscrow db (intervalEscrowMint block.header.number
            (accumulatedFees db block.header.number)))]
      else [] := by
  unfold rewardStep
  by_cases hinterval : block.header.number.toNat % rewardInterval = 0
  · by_cases hmint : 0 < intervalEscrowMint block.header.number (accumulatedFees db block.header.number)
    · cases hescrow : faults.escrow with
      | none => simp only [hinterval, applyIntervalRewards, hmint, hescrow, if_true, and_self]
      | some e =>
        simp only [hinterval, applyIntervalRewards, hmint, hescrow, if_true, if_false, and_false, reduceCtorEq]
    · simp only [hinterval, applyIntervalRewards, hmint, if_true, if_false, and_false, false_and]
  · simp only [hinterval, if_false, false_and]

variable {vs : V} {faults' : Faults} {order : {α : Type} → List α → List α}
  {horder : ∀ {α : Type} (l : List α), (order l).Perm l}

theorem Prepared.view_eq {ready : Ready V} {view : ExecView}
    {progress : Progress V} (h : Prepared P M S C db faults validators block ready view progress) :
    view = seededView db block := by
  rw [seededView, seedAll_of_ok h.seeds]

theorem prepare_both (hsilent : faults.Silent) (hsilent' : faults'.Silent)
    (hstaking : StakingAlike P M S.toStakingPrecompile block.header (some vs) (seededView db block)
      block.body.transactions)
    (hroots : RootFound P db ((runBlock P M S.toStakingPrecompile C block (some vs)).runOn
        (seededView db block)).2.state ↔
      RootFound (P.reordered order horder) db ((runBlock P M S.toStakingPrecompile C block none).runOn
        (seededView db block)).2.state) :
    (∃ ready, prepare P M S C db faults (some vs) block = .ok ready) ↔
      ∃ ready, prepare (P.reordered order horder) M S C db faults' none block = .ok ready := by
  rw [prepare_ok_iff hsilent, prepare_ok_iff hsilent', runBlock_reordered, hroots]
  refine and_congr_left (fun _ => ?_)
  exact (runBlock_parallel (C := C) (SameView.refl (seededView db block)) hstaking).ok_iff

theorem accounts_both
    (hstaking : StakingAlike P M S.toStakingPrecompile block.header (some vs) (seededView db block)
      block.body.transactions)
    {ready ready' : Ready V} {view view' : ExecView} {progress progress' : Progress V}
    (h : Prepared P M S C db faults (some vs) block ready view progress)
    (h' : Prepared (P.reordered order horder) M S C db faults' none block ready' view' progress')
    (addr : Address) : (beforeRewards P S db faults block ready).getAccount addr =
      (beforeRewards (P.reordered order horder) S db faults' block ready').getAccount addr := by
  have hparallel := runBlock_parallel (C := C) (SameView.refl (seededView db block)) hstaking
  have hran : (runBlock P M S.toStakingPrecompile C block (some vs)).runOn (seededView db block) =
      (.ok progress,ready.view) := by
    rw [← h.view_eq]
    exact h.ran
  have hran' : (runBlock P M S.toStakingPrecompile C block none).runOn (seededView db block) =
      (.ok progress',ready'.view) := by
    rw [← h'.view_eq, ← runBlock_reordered P order horder]
    exact h'.ran
  rw [hran, hran'] at hparallel
  have hviews : SameView ready.view ready'.view := hparallel
  rw [h.getAccount_beforeRewards, h'.getAccount_beforeRewards, hviews.accounts]

theorem getAccount_account (db : ChainDb) (stored addr : Address) (state : AccountState) :
    (db.applyAll [.account stored state]).getAccount addr =
      if addr = stored then state else db.getAccount addr := by
  unfold ChainDb.getAccount ChainDb.applyAll
  dsimp only [List.foldl_cons, List.foldl_nil, ChainDb.apply]
  by_cases haddr : addr = stored
  · rw [if_pos haddr, haddr, AList.lookup_insert]
    rfl
  · rw [if_neg haddr, AList.lookup_insert_ne haddr]

/-- The rewards of an interval set the two databases apart just when they mint something. -/
theorem rewards_agree_iff (hsilent : faults.Silent) {before synced : ChainDb} (live : V)
    (haccounts : ∀ addr, before.getAccount addr = synced.getAccount addr)
    (hwords : before.words = synced.words) (hcodes : before.codes = synced.codes)
    (hfees : accumulatedFees before block.header.number = accumulatedFees synced block.header.number) :
    SameState (before.applyAll (rewardStep S before faults block (some vs) (some live)).1) synced ↔
      MintsNothing synced block.header.number := by
  rw [rewardStep_writes, hfees, MintsNothing]
  generalize intervalEscrowMint block.header.number (accumulatedFees synced block.header.number) = mint
  by_cases hinterval : block.header.number.toNat % rewardInterval = 0
  · by_cases hmint : 0 < mint
    · rw [if_pos ⟨hinterval,hmint,hsilent.escrow⟩]
      have hbalance : (mintedEscrow before mint).balance =
            (before.getAccount stakingPrecompileAddr).balance ↔
          (before.getAccount stakingPrecompileAddr).balance.toNat = maxU128 :=
        mintedEscrow_balance hmint
      rw [haccounts] at hbalance
      constructor
      · intro hsame _
        have hescrow := (hsame.accounts stakingPrecompileAddr).1
        rw [getAccount_account, if_pos rfl] at hescrow
        exact Or.inr (hbalance.mp hescrow)
      · intro hnothing
        have hkept := hbalance.mpr ((hnothing hinterval).resolve_left hmint.ne')
        refine sameState_of_accounts (fun addr => ?_) hwords hcodes
        rw [getAccount_account]
        by_cases haddr : addr = stakingPrecompileAddr
        · rw [if_pos haddr, haddr, ← haccounts]
          rw [← haccounts] at hkept
          unfold mintedEscrow AccountState.setBalanceU128 at hkept ⊢
          dsimp only at hkept ⊢
          rw [hkept]
        · rw [if_neg haddr, haccounts]
    · rw [if_neg (fun h => hmint h.2.1)]
      refine iff_of_true (sameState_of_accounts haccounts hwords hcodes) (fun _ => Or.inl ?_)
      exact Nat.eq_zero_of_not_pos hmint
  · rw [if_neg (fun h => hinterval h.1)]
    exact iff_of_true (sameState_of_accounts haccounts hwords hcodes) (fun h => absurd h hinterval)

theorem blocks_beforeRewards {ready : Ready V} {view : ExecView} {progress : Progress V}
    (h : Prepared P M S C db faults validators block ready view progress) (number : UInt64) :
    ((beforeRewards P S db faults block ready).chain.getBlockByNumber number).map
        (fun b => (b.body.transactions,b.header.baseFeePerGas)) =
      ((db.chain.putBlock block).getBlockByNumber number).map
        (fun b => (b.body.transactions,b.header.baseFeePerGas)) := by
  rw [h.chain_beforeRewards]
  unfold ZbxDb.getBlockByNumber ZbxDb.putBlock
  dsimp only
  have hnumber : (ready.output.patch block).number = block.number := rfl
  rw [hnumber]
  by_cases hfound : number = block.number
  · rw [hfound, AList.lookup_insert, AList.lookup_insert]
    rfl
  · rw [AList.lookup_insert_ne hfound, AList.lookup_insert_ne hfound]

theorem refused_alike {early early' : List DbWrite} {e e' : String}
    (hleft : prepare P M S C db faults (some vs) block = .error (early,e))
    (hright : prepare (P.reordered order horder) M S C db faults' none block = .error (early',e')) :
    SameState (db.applyAll early) (db.applyAll early') := by
  obtain ⟨hwords,hcodes,-⟩ := db.unwritten_applyAll early
  obtain ⟨hwords',hcodes',-⟩ := db.unwritten_applyAll early'
  refine sameState_of_accounts (fun addr => ?_) (hwords.trans hwords'.symm) (hcodes.trans hcodes'.symm)
  rw [ChainDb.getAccount, ChainDb.accounts_applyAll, prepare_error hleft, ChainDb.getAccount,
    ChainDb.accounts_applyAll, prepare_error hright]

theorem stored_agree_iff (hsilent : faults.Silent)
    (hstaking : StakingAlike P M S.toStakingPrecompile block.header (some vs) (seededView db block)
      block.body.transactions)
    {ready ready' : Ready V} {view view' : ExecView} {progress progress' : Progress V}
    (h : Prepared P M S C db faults (some vs) block ready view progress)
    (h' : Prepared (P.reordered order horder) M S C db faults' none block ready' view' progress')
    (live : V) :
    SameState
        ((beforeRewards P S db faults block ready).applyAll
          (rewardStep S (beforeRewards P S db faults block ready) faults (ready.output.patch block)
            (some vs) (some live)).1)
        (beforeRewards (P.reordered order horder) S db faults' block ready') ↔
      MintsNothing (beforeRewards (P.reordered order horder) S db faults' block ready')
        (ready.output.patch block).header.number := by
  obtain ⟨hwords,hcodes,hreceipts⟩ : (beforeRewards P S db faults block ready).words = db.words ∧
      (beforeRewards P S db faults block ready).codes = db.codes ∧
      (beforeRewards P S db faults block ready).receiptGas = db.receiptGas := db.unwritten_applyAll _
  obtain ⟨hwords',hcodes',hreceipts'⟩ :
      (beforeRewards (P.reordered order horder) S db faults' block ready').words = db.words ∧
      (beforeRewards (P.reordered order horder) S db faults' block ready').codes = db.codes ∧
      (beforeRewards (P.reordered order horder) S db faults' block ready').receiptGas =
        db.receiptGas := db.unwritten_applyAll _
  have hfees := accumulatedFees_congr (hreceipts.trans hreceipts'.symm)
    (fun number => (blocks_beforeRewards h number).trans (blocks_beforeRewards h' number).symm)
  exact rewards_agree_iff hsilent live (accounts_both hstaking h h')
    (hwords.trans hwords'.symm) (hcodes.trans hcodes'.symm) (hfees _)

end Paths

section Agreement
variable {V K : Type} (P : Platform) (M : Machines) (S : StakingNode V K) (C : Commitments) (db : ChainDb)
  (faults faults' : Faults) (vs : V) (block : Block) (order : {α : Type} → List α → List α)
  (horder : ∀ {α : Type} (l : List α), (order l).Perm l)

/-- Either path refuses the block before it writes. -/
def RefusedBoth : Prop :=
  (∃ refusal, prepare P M S C db faults (some vs) block = .error refusal) ∧
    ∃ refusal, prepare (P.reordered order horder) M S C db faults' none block = .error refusal

/-- Every staking transaction comes to the same on both paths, and both find a state root or
neither does. -/
def PathsAlike : Prop :=
  StakingAlike P M S.toStakingPrecompile block.header (some vs) (seededView db block) block.body.transactions ∧
    (RootFound P db ((runBlock P M S.toStakingPrecompile C block (some vs)).runOn
        (seededView db block)).2.state ↔
      RootFound (P.reordered order horder) db ((runBlock P M S.toStakingPrecompile C block none).runOn
        (seededView db block)).2.state)

/-- A block that both paths refuse leaves them equal. Where its staking transactions come to the
same on both, they part just when it is accepted and its interval mints something. -/
theorem sync_agrees_iff (hsilent : faults.Silent) (hsilent' : faults'.Silent)
    (halike : RefusedBoth P M S C db faults faults' vs block order horder ∨
      PathsAlike P M S C db vs block order horder) :
    SameState
        (db.applyAll (db.executeAndCommitWithValidatorSet P M S C faults vs block).writes)
        (db.applyAll (db.executeAndCommit (P.reordered order horder) M S C faults' block).writes) ↔
      RefusedBoth P M S C db faults faults' vs block order horder ∨
        MintsNothing (db.applyAll
          (db.executeAndCommit (P.reordered order horder) M S C faults' block).writes)
          block.header.number := by
  unfold ChainDb.executeAndCommitWithValidatorSet ChainDb.executeAndCommit executeAndCommitInner
  rcases hleft : prepare P M S C db faults (some vs) block with ⟨early,e⟩ | ready
  · rcases hright : prepare (P.reordered order horder) M S C db faults' none block with ⟨early',e'⟩ | ready'
    · exact iff_of_true (refused_alike hleft hright) (Or.inl ⟨⟨_,hleft⟩,_,hright⟩)
    · obtain ⟨hstaking,hroots⟩ := halike.resolve_left fun hrefused => by
        obtain ⟨-,refusal,hrefusal⟩ := hrefused
        rw [hright] at hrefusal
        cases hrefusal
      obtain ⟨ready,hready⟩ := (prepare_both hsilent hsilent' hstaking hroots).mpr ⟨ready',hright⟩
      rw [hleft] at hready
      cases hready
  · have hrefused : ¬ RefusedBoth P M S C db faults faults' vs block order horder := by
      rintro ⟨⟨refusal,hrefusal⟩,-⟩
      rw [hleft] at hrefusal
      cases hrefusal
    obtain ⟨hstaking,hroots⟩ := halike.resolve_left hrefused
    obtain ⟨ready',hright⟩ := (prepare_both hsilent hsilent' hstaking hroots).mp ⟨ready,hleft⟩
    rw [hright, or_iff_right hrefused]
    dsimp only
    obtain ⟨view,progress,h⟩ := prepare_ok hleft
    obtain ⟨view',progress',h'⟩ := prepare_ok hright
    have hran : (runBlock P M S.toStakingPrecompile C block (some vs)).runOn view =
        (.ok progress,ready.view) := h.ran
    obtain ⟨live,hlive⟩ := Option.isSome_iff_exists.mp (runBlock_isSome hran)
    rw [(persist_ok (persist_silent hsilent.spareWrites)).2.2.2,
      (persist_ok (persist_silent hsilent'.spareWrites)).2.2.2,
      h.validators, hlive]
    exact stored_agree_iff hsilent hstaking h h' live

end Agreement

theorem rootFound_of_isSome {P : Platform} {db : ChainDb} {view : StateView}
    (h : (computeStateRootWithDb P (view.visible P) view.storage db.adapter).2.toOption.isSome = true) :
    RootFound P db view := by
  rcases hresult : (computeStateRootWithDb P (view.visible P) view.storage db.adapter).2 with e | root
  · rw [hresult] at h
    cases h
  · exact ⟨root,hresult⟩

/-- A transfer between two intervals. -/
theorem sync_agrees_payment :
    SameState
      (payerDb.applyAll (payerDb.executeAndCommitWithValidatorSet .integersEmptyRoot
        idleMachines idleStaking zeroCommitments .none () paymentBlock).writes)
      (payerDb.applyAll (payerDb.executeAndCommit (Platform.integersEmptyRoot.reordered
        List.reverse List.reverse_perm) idleMachines idleStaking zeroCommitments .none
        paymentBlock).writes) := by
  have hfound : RootFound .integersEmptyRoot payerDb ((runBlock .integersEmptyRoot idleMachines
      idleStaking.toStakingPrecompile zeroCommitments paymentBlock (some ())).runOn
        (seededView payerDb paymentBlock)).2.state :=
    rootFound_of_isSome (by decide +kernel)
  have hfound' : RootFound (Platform.integersEmptyRoot.reordered List.reverse List.reverse_perm)
      payerDb ((runBlock .integersEmptyRoot idleMachines idleStaking.toStakingPrecompile
        zeroCommitments paymentBlock none).runOn (seededView payerDb paymentBlock)).2.state :=
    rootFound_of_isSome (by decide +kernel)
  refine (sync_agrees_iff .integersEmptyRoot idleMachines idleStaking zeroCommitments payerDb
    .none .none () paymentBlock List.reverse List.reverse_perm Faults.silent_none
    Faults.silent_none (Or.inr ⟨⟨?_,?_⟩,iff_of_true hfound hfound'⟩)).mpr (Or.inr ?_)
  · intro hstaking
    cases hstaking
  · split
    · trivial
    · trivial
  · intro hinterval
    cases hinterval

/-- At the end of an interval the validators mint, and the others do not. -/
theorem interval_block_parts :
    ¬ SameState
      ((plainDb 99 ∅).applyAll ((plainDb 99 ∅).executeAndCommitWithValidatorSet .integersEmptyRoot
        idleMachines idleStaking zeroCommitments .none () (plainBlock 100 0)).writes)
      ((plainDb 99 ∅).applyAll ((plainDb 99 ∅).executeAndCommit .integersEmptyRoot idleMachines
        idleStaking zeroCommitments .none (plainBlock 100 0)).writes) := by
  intro hsame
  have hleft : (((plainDb 99 ∅).applyAll ((plainDb 99 ∅).executeAndCommitWithValidatorSet
      .integersEmptyRoot idleMachines idleStaking zeroCommitments .none () (plainBlock 100 0)).writes).getAccount
        stakingPrecompileAddr).balance = 200 * 10 ^ 18 := by decide +kernel
  have hright : (((plainDb 99 ∅).applyAll ((plainDb 99 ∅).executeAndCommit .integersEmptyRoot
      idleMachines idleStaking zeroCommitments .none (plainBlock 100 0)).writes).getAccount
        stakingPrecompileAddr).balance = 0 := by decide +kernel
  have hbalance := (hsame.accounts stakingPrecompileAddr).1
  rw [hleft, hright] at hbalance
  cases hbalance

end ZbxChain
