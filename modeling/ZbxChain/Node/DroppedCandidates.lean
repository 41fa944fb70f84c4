import ZbxChain.Mempool.Pool
import ZbxChain.Node.StakingCommit
import ZbxChain.Staking.GovernanceWrites
import ZbxChain.Staking.Refusals

/-! # What a dropped candidate leaves behind

A block that cannot be executed, or that no longer extends the head, is dropped before its
commit writes anything. But its transactions have been dispatched by then, and those of the
governance write at once.
-/
namespace ZbxChain.Staking

structure PooledNode where
  db : NodeDb
  vs : ValidatorSet
  pool : TransactionPool

section Commit
variable (P : Platform) (M : Machines) (C : Commitments) (ledger : LedgerFaults)
  (decode : List UInt8 → Option StakingTx)

/-- `execute_and_commit_with_validator_set`, with the mempool. -/
def PooledNode.commit (node : PooledNode) (faults : Faults) (block : Block) : PooledNode × Except String Block :=
  let outcome := node.db.commit P M C ledger decode node.vs faults block
  match outcome.result with
  | .ok block =>
    (⟨outcome.db,outcome.vs,
      (node.pool.updateBaseFee block.header).removeConfirmed block.body.transactions⟩,.ok block)
  | .error e => (⟨outcome.db,outcome.vs,node.pool⟩,.error e)

def PooledNode.staking (node : PooledNode) : StakingState := ⟨node.vs,.new,node.db.columns,node.db.governance⟩

/-- The commit ends before its first write: seeding or execution fails, or the head has moved. -/
def PooledNode.Drops (node : PooledNode) (faults : Faults) (block : Block) : Prop :=
  ∃ early e, prepare P M (precompile P ledger decode) C node.db.chain faults (some node.staking) block =
    .error (early,e)

/-- A transaction that writes to the columns of the governance when it is dispatched. -/
def TxWritesGovernance (header : BlockHeader) (st : StakingState) (tx : SignedTransaction) : Prop :=
  isStakingDestination tx.tx.recipient = true ∧ ∃ call, decode tx.tx.data = some call ∧
    WritesGovernance ledger tx.sender tx.tx.valueU128 header.number st call

/-- No transaction, in the state it meets, writes to the columns of the governance. The first
that is refused is the last. -/
def NoneWritesGovernance (block : Block) :
    Progress StakingState → List SignedTransaction → ExecView → Prop
  | _, [], _ => True
  | progress, tx :: rest, view =>
    match (executeOne P M (precompile P ledger decode).toStakingPrecompile C block progress tx).runOn view with
    | (.ok next,view) =>
      (∀ st, progress.validators = some st → ¬ TxWritesGovernance ledger decode block.header st tx) ∧
        NoneWritesGovernance block next rest view
    | (.error _,_) => True

/-- No transaction of the block writes to the columns of the governance, as far as execution
comes. -/
def PooledNode.LeavesGovernance (node : PooledNode) (faults : Faults) (block : Block) : Prop :=
  match seedAll node.db.chain faults block.referenced [] .new with
  | .error _ => True
  | .ok view => block.header.gasLimit ≤ BLOCK_GAS_LIMIT →
      NoneWritesGovernance P M C ledger decode block ⟨some node.staking,0,[]⟩ block.body.transactions view

end Commit

section Turns
variable {P : Platform} {M : Machines} {C : Commitments} {ledger : LedgerFaults}
  {decode : List UInt8 → Option StakingTx} {block : Block} {header : BlockHeader}

theorem written_executeStakingTx (tx : SignedTransaction) (st : StakingState)
    (hdestination : isStakingDestination tx.tx.recipient = true) :
    (executeStakingTx (precompile P ledger decode).toStakingPrecompile tx header st).Yields fun r =>
      st.governance.WrittenIf (TxWritesGovernance ledger decode header st tx) r.1.governance := by
  unfold executeStakingTx
  refine .bind (yields_debitSender tx header) fun charge hcharge => ?_
  refine .bind (Q := fun r => st.governance.WrittenIf (TxWritesGovernance ledger decode header st tx)
    r.1.governance) (.lift fun view => ?_) ?_
  · have hdecoded : (precompile P ledger decode).toStakingPrecompile.decode = decode := rfl
    rw [hdecoded, hcharge.1]
    cases hdecode : decode tx.tx.data with
    | none =>
      refine .keeps ?_ rfl
      rintro ⟨-,call,hcall,-⟩
      rw [hdecode] at hcall
      cases hcall
    | some call =>
      have hiff : TxWritesGovernance ledger decode header st tx ↔
          WritesGovernance ledger tx.sender tx.tx.valueU128 header.number st call := by
        simp only [TxWritesGovernance, hdestination, hdecode, Option.some.injEq, exists_eq_left', true_and]
      rw [hiff]
      dsimp only
      split
      · rename_i happeal
        refine .keeps ?_ rfl
        cases call with
        | fileAppeal evidenceId => exact id
        | _ => cases happeal
      · have hrun : (((precompile P ledger decode).toStakingPrecompile.dispatch call tx.sender tx.tx.valueU128
            header.number st).run ExecView.answer view).1.1 =
            ((dispatchStakingTx P ledger tx.sender tx.tx.valueU128 header.number st call).run ExecView.answer
              view).1.1 := by
          dsimp only [precompile]
          rw [Program.run_bind]
          rfl
        rw [hrun]
        exact writesIf_dispatchStakingTx call view
  · rintro ⟨after,dispatched⟩ hafter
    refine .bind .any fun _ _ => ?_
    split
    · split
      · exact .bind .any fun _ _ => .pure hafter
      · exact .pure hafter
    · exact .bind .any fun _ _ => .pure hafter

theorem written_executeOne (progress : Progress StakingState) (st : StakingState)
    (hst : progress.validators = some st) (tx : SignedTransaction) :
    (executeOne P M (precompile P ledger decode).toStakingPrecompile C block progress tx).Yields fun next =>
      ∃ st', next.validators = some st' ∧
        st.governance.WrittenIf (TxWritesGovernance ledger decode block.header st tx) st'.governance := by
  unfold executeOne
  rw [hst]
  refine .bind (Q := fun r => ∃ st', r.1 = some st' ∧
    st.governance.WrittenIf (TxWritesGovernance ledger decode block.header st tx) st'.governance) ?_ ?_
  · unfold executeAny
    dsimp only
    split
    · rename_i hdestination
      exact .bind (written_executeStakingTx tx st hdestination) fun r hr => .pure ⟨r.1,rfl,hr⟩
    · rename_i hother
      exact .bind .any fun _ _ => .pure ⟨st,rfl,.keeps (fun h => hother h.1) rfl⟩
  · rintro ⟨validators,result⟩ hvalidators
    exact .bind .any fun _ _ => .pure hvalidators

variable (P M C ledger decode block) in
/-- As far as execution comes, the ids taken are counted, and what is written shows. -/
theorem written_progressReached (txs : List SignedTransaction) (progress : Progress StakingState)
    (st : StakingState) (hst : progress.validators = some st) (view : ExecView) :
    ∃ st', (progressReached P M (precompile P ledger decode).toStakingPrecompile C block progress txs
        view).validators = some st' ∧
      (NoneWritesGovernance P M C ledger decode block progress txs view → st'.governance = st.governance) ∧
      ∃ taken ≤ txs.length, st.governance.Advanced taken st'.governance ∧
        (¬ NoneWritesGovernance P M C ledger decode block progress txs view →
          0 < taken ∨ st.governance.Raised st'.governance) := by
  induction txs generalizing progress st view with
  | nil => exact ⟨st,hst,fun _ => rfl,0,le_rfl,.refl _,fun h => absurd trivial h⟩
  | cons tx rest ih =>
    unfold progressReached NoneWritesGovernance
    rcases hrun : (executeOne P M (precompile P ledger decode).toStakingPrecompile C block progress tx).runOn
      view with ⟨e | next,view'⟩
    · exact ⟨st,hst,fun _ => rfl,0,Nat.zero_le _,.refl _,fun h => absurd trivial h⟩
    · obtain ⟨st₁,hst₁,hkeeps,hwrites⟩ := written_executeOne (M := M) (C := C) progress st hst tx view next view' hrun
      obtain ⟨st₂,hst₂,hrestKeeps,taken,htaken,hadvanced,hrestWrites⟩ := ih next st₁ hst₁ view'
      refine ⟨st₂,hst₂,fun hnone => ?_,?_⟩
      · rw [hrestKeeps hnone.2, hkeeps (hnone.1 st hst)]
      · by_cases hthis : TxWritesGovernance ledger decode block.header st tx
        · obtain ⟨first,hfirst,hbefore,hchanged⟩ := hwrites hthis
          refine ⟨first + taken,?_,hbefore.trans hadvanced,fun _ => ?_⟩
          · rw [List.length_cons]
            omega
          · rcases hchanged with hpos | hraised
            · exact Or.inl (by omega)
            · exact Or.inr (hraised.left hadvanced)
        · rw [hkeeps hthis] at hadvanced hrestWrites
          refine ⟨taken,htaken.trans (Nat.le_succ _),hadvanced,fun hsome => hrestWrites fun hnone => ?_⟩
          refine hsome ⟨fun st' hst' => ?_,hnone⟩
          rw [hst, Option.some.injEq] at hst'
          exact hst' ▸ hthis

end Turns

section Drops
variable {V K : Type} {P : Platform} {M : Machines} {S : StakingNode V K} {C : Commitments} {db : ChainDb}
  {faults : Faults} {vs : Option V} {block : Block}

theorem seedAll_governance (governance : Except String Bool) (addrs : List Address) (seen : AddressSet)
    (view : ExecView) :
    seedAll db { faults with governance := governance } addrs seen view = seedAll db faults addrs seen view := by
  have hseed : ∀ view addr, seed db { faults with governance := governance } view addr =
      seed db faults view addr := fun _ _ => rfl
  induction addrs generalizing seen view with
  | nil => rfl
  | cons addr rest ih =>
    unfold seedAll
    rw [hseed]
    split
    · exact ih seen view
    · cases seed db faults view addr with
      | error e => rfl
      | ok next => exact ih _ next

theorem prepare_governance (governance : Except String Bool) :
    prepare P M S C db { faults with governance := governance } vs block = prepare P M S C db faults vs block := by
  unfold prepare
  rw [seedAll_governance]

theorem writes_of_dropped {early : List DbWrite} {e : String}
    (h : prepare P M S C db faults vs block = .error (early,e)) : early = [] ∨ early = [.proposals] := by
  have hearly : ∀ view, (executeInner P M S C faults.trieRead block view db.adapter vs).early db = [] ∨
      (executeInner P M S C faults.trieRead block view db.adapter vs).early db = [.proposals] := by
    intro view
    have hsame : db.adapter.trieNodes = db.trieNodes := rfl
    rw [Executed.early, adapter_executeInner, if_pos hsame, List.nil_append]
    split
    · exact Or.inr rfl
    · exact Or.inl rfl
  unfold prepare at h
  dsimp only at h
  split at h
  · cases h
    exact Or.inl rfl
  · split at h
    · cases h
      exact hearly _
    · split at h
      · cases h
        exact hearly _
      · cases h

end Drops

section Dropped
variable {P : Platform} {M : Machines} {C : Commitments} {ledger : LedgerFaults}
  {decode : List UInt8 → Option StakingTx} {node : PooledNode} {faults : Faults} {block : Block}

theorem commit_of_dropped (h : node.Drops P M C ledger decode faults block) :
    ∃ e, node.commit P M C ledger decode faults block = ({ node with db := { node.db with
      governance := (stateReached P M C ledger decode node.db.chain faults node.staking block).governance } },
      .error e) := by
  obtain ⟨early,e,hprepare⟩ := h
  have houtcome : ∀ governance, node.db.chain.executeAndCommitWithValidatorSet P M (precompile P ledger decode) C
      { faults with governance := governance } ⟨node.vs,.new,node.db.columns,node.db.governance⟩ block =
        ⟨early,some node.staking,.error e⟩ := by
    intro governance
    have hdropped : prepare P M (precompile P ledger decode) C node.db.chain faults
      (some ⟨node.vs,.new,node.db.columns,node.db.governance⟩) block = .error (early,e) := hprepare
    rw [ChainDb.executeAndCommitWithValidatorSet, executeAndCommitInner, prepare_governance, hdropped]
    rfl
  have hcommit : node.db.commit P M C ledger decode node.vs faults block = ⟨{ node.db with
      governance := (stateReached P M C ledger decode node.db.chain faults node.staking block).governance },
      node.vs,.error e⟩ := by
    unfold NodeDb.commit
    dsimp only
    rw [houtcome]
    rcases writes_of_dropped hprepare with rfl | rfl
    · rfl
    · rfl
  refine ⟨e,?_⟩
  unfold PooledNode.commit
  rw [hcommit]

theorem drops_of_isOk (h : (prepare P M (precompile P ledger decode) C node.db.chain faults (some node.staking)
    block).isOk = false) : node.Drops P M C ledger decode faults block := by
  unfold PooledNode.Drops
  rcases hprepare : prepare P M (precompile P ledger decode) C node.db.chain faults (some node.staking) block
    with ⟨early,e⟩ | ready
  · exact ⟨early,e,rfl⟩
  · rw [hprepare] at h
    cases h

theorem leavesGovernance_of_calls (h : ∀ tx ∈ block.body.transactions, ∀ call, decode tx.tx.data = some call →
    ∀ st, ¬ WritesGovernance ledger tx.sender tx.tx.valueU128 block.header.number st call) :
    node.LeavesGovernance P M C ledger decode faults block := by
  have hnone : ∀ (txs : List SignedTransaction), (∀ tx ∈ txs, tx ∈ block.body.transactions) →
      ∀ progress view, NoneWritesGovernance P M C ledger decode block progress txs view := by
    intro txs htxs
    induction txs with
    | nil => exact fun _ _ => trivial
    | cons tx rest ih =>
      intro progress view
      unfold NoneWritesGovernance
      rcases (executeOne P M (precompile P ledger decode).toStakingPrecompile C block progress tx).runOn view
        with ⟨e | next,view'⟩
      · trivial
      · refine ⟨?_,ih (fun tx htx => htxs tx (List.mem_cons_of_mem _ htx)) next view'⟩
        rintro st - ⟨-,call,hcall,hwrites⟩
        exact h tx (htxs tx List.mem_cons_self) call hcall st hwrites
  unfold PooledNode.LeavesGovernance
  split
  · trivial
  · exact fun _ => hnone _ (fun _ htx => htx) _ _

theorem governance_stateReached_iff (hlength : block.body.transactions.length < 2 ^ 64) :
    (stateReached P M C ledger decode node.db.chain faults node.staking block).governance =
        node.db.governance ↔
      node.LeavesGovernance P M C ledger decode faults block := by
  unfold stateReached PooledNode.LeavesGovernance
  cases seedAll node.db.chain faults block.referenced [] .new with
  | error e => exact iff_of_true rfl trivial
  | ok view =>
    dsimp only
    by_cases hlimit : BLOCK_GAS_LIMIT < block.header.gasLimit
    · rw [if_pos hlimit]
      exact iff_of_true rfl fun hle => absurd hlimit (UInt64.not_lt.mpr hle)
    · rw [if_neg hlimit]
      obtain ⟨st,hst,hkeeps,taken,htaken,hadvanced,hwrites⟩ := written_progressReached P M C ledger decode
        block block.body.transactions ⟨some node.staking,0,[]⟩ node.staking rfl view
      rw [hst, Option.getD_some]
      constructor
      · intro hsame _
        by_contra hsome
        exact hadvanced.ne (htaken.trans_lt hlength) (hwrites hsome) hsame
      · exact fun hnone => hkeeps (hnone (UInt64.not_lt.mp hlimit))

/-- A candidate that is dropped leaves the database, the validators and the mempool as they
were exactly if none of its transactions has written to the governance. A block has fewer
than 2 ^ 64 transactions, so the counter of the proposals does not come round. -/
theorem dropped_leaves_no_trace_iff (P : Platform) (M : Machines) (C : Commitments) (ledger : LedgerFaults)
    (decode : List UInt8 → Option StakingTx) (node : PooledNode) (faults : Faults) (block : Block)
    (hlength : block.body.transactions.length < 2 ^ 64) (hdrops : node.Drops P M C ledger decode faults block) :
    (node.commit P M C ledger decode faults block).1 = node ↔
      node.LeavesGovernance P M C ledger decode faults block := by
  obtain ⟨e,hcommit⟩ := commit_of_dropped hdrops
  rw [hcommit, ← governance_stateReached_iff hlength]
  constructor
  · exact fun hsame => congrArg (fun node => node.db.governance) hsame
  · intro hsame
    dsimp only
    rw [hsame]

def decodesVote (data : List UInt8) : Option StakingTx :=
  if data = [1] then some (.castVote 1 true) else if data = [2] then some (.claimRewards 1) else none

def precompileTx (nonce : UInt64) (data : List UInt8) : SignedTransaction :=
  ⟨{ legacyTransfer 0 [] with nonce := nonce, recipient := some stakingPrecompileAddr, value := 0, data := data },
    ⟨0,5,6⟩,1,77⟩

def stakingBlock (txs : List SignedTransaction) : Block :=
  { header := { (plainBlock 1 0).header with gasLimit := 100000 }, body := ⟨txs,[]⟩ }

def votingNode (config : MempoolConfig) : PooledNode :=
  ⟨⟨plainDb 0 ((∅ : Accounts).insert 1 { AccountState.fresh with balance := 1000000000 }),⟨∅,∅⟩,
      ⟨some 1,some upgradeRegistry⟩,.new⟩,
    { firstValidators 1 with validators := (∅ : Table Address Validator).insert 1 (demoValidator 1 .active) },
    .new config⟩

/-- What a validator claims is gone when the transaction after it is out of turn. -/
theorem dropped_claim :
    ((votingNode .standard).commit .integersEmptyRoot idleMachines zeroCommitments .none decodesVote .none
      (stakingBlock [precompileTx 0 [2],precompileTx 5 []])).1 = votingNode .standard := by
  refine (dropped_leaves_no_trace_iff .integersEmptyRoot idleMachines zeroCommitments .none decodesVote
    (votingNode .standard) .none (stakingBlock [precompileTx 0 [2],precompileTx 5 []]) (by decide)
    (drops_of_isOk (by decide +kernel))).mpr ?_
  refine leavesGovernance_of_calls fun tx htx call hcall st => ?_
  rcases List.mem_cons.mp htx with rfl | htx
  · cases hcall
    exact id
  · rw [List.mem_singleton.mp htx] at hcall
    cases hcall

/-- The vote of a validator stays when the transaction after it is out of turn. -/
theorem dropped_vote_stays : ¬ ∀ (P : Platform) (M : Machines) (C : Commitments) (ledger : LedgerFaults)
    (decode : List UInt8 → Option StakingTx) (node : PooledNode) (faults : Faults) (block : Block),
    node.Drops P M C ledger decode faults block → (node.commit P M C ledger decode faults block).1 = node := by
  intro h
  have hsame := h .integersEmptyRoot idleMachines zeroCommitments .none decodesVote (votingNode .standard) .none
    (stakingBlock [precompileTx 0 [1],precompileTx 5 []]) (drops_of_isOk (by decide +kernel))
  have hstatus : (((votingNode .standard).commit .integersEmptyRoot idleMachines zeroCommitments .none decodesVote
      .none (stakingBlock [precompileTx 0 [1],precompileTx 5 []])).1.db.governance.loadProposalRegistry.lookup
        1).map UpgradeProposal.status ≠ some .pending := by decide +kernel
  rw [hsame] at hstatus
  exact hstatus (by decide)

end Dropped

end ZbxChain.Staking
