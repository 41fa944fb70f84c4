import ZbxChain.Node.BlockHash
import ZbxChain.Node.SyncPath

/-! # The stored block and the agreed block

A commit writes the outcome of the execution into the header, whatever the header said. So
the block it stores is the block it was given just when that one said the same.
-/
namespace ZbxChain

/-- The header has the fields that the execution fills in. -/
def ExecOutput.Describes (exec : ExecOutput) (header : BlockHeader) : Prop :=
  header.gasUsed = exec.gasUsed ∧ header.stateRoot = exec.newStateRoot ∧
    header.transactionsRoot = exec.transactionsRoot ∧ header.receiptsRoot = exec.receiptsRoot ∧
    header.logsBloom = exec.logsBloom

theorem ExecOutput.patch_eq_iff {exec : ExecOutput} {block : Block} :
    exec.patch block = block ↔ exec.Describes block.header := by
  obtain ⟨header,body⟩ := block
  constructor
  · intro h
    have hheader := congrArg Block.header h
    exact ⟨(congrArg BlockHeader.gasUsed hheader).symm,(congrArg BlockHeader.stateRoot hheader).symm,
      (congrArg BlockHeader.transactionsRoot hheader).symm,
      (congrArg BlockHeader.receiptsRoot hheader).symm,(congrArg BlockHeader.logsBloom hheader).symm⟩
  · rintro ⟨hgas,hstate,htransactions,hreceipts,hbloom⟩
    unfold patch
    dsimp only at hgas hstate htransactions hreceipts hbloom ⊢
    rw [← hgas, ← hstate, ← htransactions, ← hreceipts, ← hbloom]

def ChainDb.headHash (P : Platform) (db : ChainDb) : Option H256 :=
  (db.chain.getBlockByNumber db.chain.head).map (Block.hash P)

section Checks

/-- A check of `BlockVerifier`. -/
def verified (holds : Prop) [Decidable holds] (message : String) : Except ExecutionError Unit :=
  if holds then .ok () else .error (.validation message)

def verifyGasUsed (block : Block) (actualGas : UInt64) : Except ExecutionError Unit :=
  verified (block.header.gasUsed = actualGas)
    s!"gas_used mismatch: header says {block.header.gasUsed}, execution used {actualGas}"

/-- `{:?}` of bytes. -/
def debugBytes (bytes : List UInt8) : String := "[" ++ ", ".intercalate (bytes.map toString) ++ "]"

def rootMismatch (name : String) (block : Block) (root computed : H256) : String :=
  s!"{name} mismatch at height {block.header.number}: header={debugBytes root.asBytes} " ++
    s!"computed={debugBytes computed.asBytes}"

def verifyStateRoot (block : Block) (computed : H256) : Except ExecutionError Unit :=
  verified (block.header.stateRoot = computed) (rootMismatch "state_root" block block.header.stateRoot computed)

def verifyReceiptsRoot (block : Block) (computed : H256) : Except ExecutionError Unit :=
  verified (block.header.receiptsRoot = computed)
    (rootMismatch "receipts_root" block block.header.receiptsRoot computed)

def verifyLogsBloom (block : Block) (computed : BitVec 2048) : Except ExecutionError Unit :=
  verified (block.header.logsBloom = computed) s!"logs_bloom mismatch at height {block.header.number}"

theorem verified_ok_iff {holds : Prop} [Decidable holds] {message : String} :
    verified holds message = .ok () ↔ holds := by
  unfold verified
  split
  · rename_i hholds
    exact iff_of_true rfl hholds
  · rename_i hfails
    exact iff_of_false nofun hfails

/-- The header passes the checks of `BlockVerifier` against what the executor returned. -/
structure Passes (P : Platform) (crateRlp : RlpItem → List UInt8) (block : Block) (output : ExecOutput) : Prop where
  gasUsed : verifyGasUsed block output.gasUsed = .ok ()
  stateRoot : verifyStateRoot block output.newStateRoot = .ok ()
  transactionsRoot : verifyTransactionsRoot P crateRlp block = .ok ()
  receiptsRoot : verifyReceiptsRoot block output.receiptsRoot = .ok ()
  logsBloom : verifyLogsBloom block output.logsBloom = .ok ()

end Checks

section Commits
variable {V K : Type} (P : Platform) (M : Machines) (S : StakingNode V K) (C : Commitments)
  (crateRlp : RlpItem → List UInt8) (db : ChainDb) (faults : Faults) (vs : Option V) (block : Block)

/-- The block that is returned has the hash of the given one, which names the stored head as
its parent and has the fields that the execution produced; or else nothing is stored. -/
def StoresAgreed : Prop :=
  let outcome := executeAndCommitInner P M S C db faults vs block
  match outcome.result with
  | .ok b => b.hash P = block.hash P ∧ db.headHash P = some block.header.parentHash ∧
      ∃ ready, prepare P M S C db faults vs block = .ok ready ∧ ready.output.Describes block.header
  | .error _ => outcome.writes = []

def StateAccess.persists : StateAccess → Bool
  | .persistProposalRegistry => true
  | _ => false

/-- The transactions root is `compute_tx_root`. -/
def Commitments.computing : Commitments := { C with txRoot := computeTxRoot P crateRlp }

/-- No staking transaction persists the proposal registry. Where the block extends the head and
the executor accepts it, it names the head as its parent and its header passes the checks. -/
structure Verified : Prop where
  registry : (runBlock P M S.toStakingPrecompile (C.computing P crateRlp) block vs).run.Along ExecView.answer
    (fun call _ => call.persists = false) (seededView db block)
  header : db.chain.head = saturatingSub64 block.header.number 1 → ∀ output validators,
    (executeInner P M S (C.computing P crateRlp) none block (seededView db block) db.adapter vs).result =
      .ok (output,validators) →
    db.headHash P = some block.header.parentHash ∧ Passes P crateRlp block output

variable {P M S C crateRlp db faults vs block}

theorem proposalsStored_runBlock {view : ExecView} (hview : view.proposalsStored = false)
    (hregistry : (runBlock P M S.toStakingPrecompile C block vs).run.Along ExecView.answer
      (fun call _ => call.persists = false) view) :
    ((runBlock P M S.toStakingPrecompile C block vs).run.run ExecView.answer view).2.proposalsStored = false := by
  refine Program.run_keeps_along (I := fun v : ExecView => v.proposalsStored = false) ?_ _ _ hregistry hview
  intro call v hcall hv
  cases call with
  | persistProposalRegistry => cases hcall
  | _ => exact hv

/-- What is written before the commit's own writes is nothing. -/
theorem early_executeInner {trieRead : Option String} {view : ExecView} (hview : view.proposalsStored = false)
    (hregistry : (runBlock P M S.toStakingPrecompile C block vs).run.Along ExecView.answer
      (fun call _ => call.persists = false) view) :
    (executeInner P M S C trieRead block view db.adapter vs).early db = [] := by
  have hstored : (executeInner P M S C trieRead block view db.adapter vs).view.proposalsStored = false := by
    rw [← proposalsStored_runBlock hview hregistry]
    unfold executeInner
    rcases (runBlock P M S.toStakingPrecompile C block vs).run.run ExecView.answer view with ⟨e | progress,after⟩
    · rfl
    · cases trieRead with
      | some e => rfl
      | none =>
        dsimp only
        rcases computeStateRootWithDb P (after.state.visible P) after.state.storage db.adapter with ⟨kept,e | root⟩
        · rfl
        · rfl
  have hsame : db.adapter.trieNodes = db.trieNodes := rfl
  rw [Executed.early, adapter_executeInner, if_pos hsame, hstored]
  rfl

theorem executeInner_reads {trieRead : Option String} {view : ExecView} {adapter : ZbxDbTrieAdapter}
    {r : ExecOutput × Option V} (h : (executeInner P M S C trieRead block view adapter vs).result = .ok r) :
    (executeInner P M S C none block view adapter vs).result = .ok r := by
  cases trieRead with
  | none => exact h
  | some e =>
    unfold executeInner at h
    rcases hrun : (runBlock P M S.toStakingPrecompile C block vs).run.run ExecView.answer view with ⟨e' | progress,after⟩
    · rw [hrun] at h
      cases h
    · rw [hrun] at h
      cases h

theorem transactionsRoot_executeInner {view : ExecView} {adapter : ZbxDbTrieAdapter} {output : ExecOutput}
    {validators : Option V}
    (h : (executeInner P M S C none block view adapter vs).result = .ok (output,validators)) :
    output.transactionsRoot = C.txRoot block.body.transactions := by
  unfold executeInner at h
  rcases hrun : (runBlock P M S.toStakingPrecompile C block vs).run.run ExecView.answer view with ⟨e | progress,after⟩
  · rw [hrun] at h
    cases h
  · rw [hrun] at h
    dsimp only at h
    rcases hroot : computeStateRootWithDb P (after.state.visible P) after.state.storage adapter with ⟨kept,e | root⟩
    · rw [hroot] at h
      cases h
    · rw [hroot] at h
      cases h
      rfl

theorem Passes.describes {output : ExecOutput} (h : Passes P crateRlp block output)
    (hroot : output.transactionsRoot = computeTxRoot P crateRlp block.body.transactions) :
    output.Describes block.header :=
  ⟨verified_ok_iff.mp h.gasUsed,verified_ok_iff.mp h.stateRoot,
    (root_of_verified h.transactionsRoot).symm.trans hroot.symm,verified_ok_iff.mp h.receiptsRoot,
    verified_ok_iff.mp h.logsBloom⟩

/-- A refused block has written nothing. -/
theorem early_refused {early : List DbWrite} {e : String} (hverified : Verified P M S C crateRlp db vs block)
    (h : prepare P M S (C.computing P crateRlp) db faults vs block = .error (early,e)) : early = [] := by
  unfold prepare at h
  dsimp only at h
  split at h
  · cases h
    rfl
  · rename_i view hseeds
    have hview : seededView db block = view := by rw [seededView, seedAll_of_ok hseeds]
    have hstored := ((seeded_new db).seedAll (fun _ => Iff.rfl) hseeds).proposalsStored
    have hregistry := hverified.registry
    rw [hview] at hregistry
    have hearly : (executeInner P M S (C.computing P crateRlp) faults.trieRead block view db.adapter vs).early db =
        [] := early_executeInner hstored hregistry
    split at h
    · cases h
      exact hearly
    · split at h
      · cases h
        exact hearly
      · cases h

/-- A block that is ready to be written names the stored head and has the fields of its execution. -/
theorem header_prepared {ready : Ready V} (hverified : Verified P M S C crateRlp db vs block)
    (h : prepare P M S (C.computing P crateRlp) db faults vs block = .ok ready) :
    db.headHash P = some block.header.parentHash ∧ ready.output.Describes block.header := by
  unfold prepare at h
  dsimp only at h
  split at h
  · cases h
  · rename_i view hseeds
    have hview : seededView db block = view := by rw [seededView, seedAll_of_ok hseeds]
    split at h
    · cases h
    · rename_i output validators hresult
      split at h
      · cases h
      · rename_i hhead
        cases h
        have hran := executeInner_reads hresult
        obtain ⟨hparent,hpasses⟩ := hverified.header (not_not.mp hhead) output validators (hview ▸ hran)
        exact ⟨hparent,hpasses.describes (transactionsRoot_executeInner hran)⟩

variable (P M S C crateRlp db faults vs block) in
/-- A commit stores the agreed block or nothing if no write of it fails and the block passes the
checks. -/
theorem storesAgreed_of_verified (hwrites : faults.SpareWrites)
    (hverified : Verified P M S C crateRlp db vs block) :
    StoresAgreed P M S (C.computing P crateRlp) db faults vs block := by
  unfold StoresAgreed executeAndCommitInner
  rcases hprepare : prepare P M S (C.computing P crateRlp) db faults vs block with ⟨early,e⟩ | ready
  · exact early_refused hverified hprepare
  · dsimp only
    rw [persist_silent hwrites]
    obtain ⟨hparent,hdescribes⟩ := header_prepared hverified hprepare
    refine ⟨?_,hparent,ready,rfl,hdescribes⟩
    rw [ExecOutput.patch_eq_iff.mpr hdescribes]

end Commits

def integersCommitments : Commitments := zeroCommitments.computing .integersEmptyRoot RlpItem.rlp

/-- The block of a transfer, as its producer returns it. -/
def producedBlock : Block :=
  let candidate : Block := { transferBlock 1 ⟨0,5,6⟩ with
    header := { (transferBlock 1 ⟨0,5,6⟩).header with parentHash := (plainBlock 0 0).hash .integersEmptyRoot } }
  (payerDb.executeAndCommit .integersEmptyRoot idleMachines idleStaking integersCommitments .none
    candidate).result.toOption.getD candidate

/-- A peer stores the block that the producer returned. -/
theorem produced_block_stored : StoresAgreed .integersEmptyRoot idleMachines idleStaking
    integersCommitments payerDb .none none producedBlock := by
  refine storesAgreed_of_verified .integersEmptyRoot idleMachines idleStaking zeroCommitments RlpItem.rlp
    payerDb .none none producedBlock Faults.silent_none.spareWrites ⟨?_,?_⟩
  · decide +kernel
  · intro _ output validators hresult
    have hparent : payerDb.headHash .integersEmptyRoot = some producedBlock.header.parentHash := by decide +kernel
    have hroot : Mpt.transactionsRootMpt .integersEmptyRoot (producedBlock.signingHashes .integersEmptyRoot
        RlpItem.rlp) = producedBlock.header.transactionsRoot := by decide +kernel
    have hfields : (executeInner .integersEmptyRoot idleMachines idleStaking integersCommitments none producedBlock
        (seededView payerDb producedBlock) payerDb.adapter none).result.toOption.all (fun r => decide
          (producedBlock.header.gasUsed = r.1.gasUsed ∧ producedBlock.header.stateRoot = r.1.newStateRoot ∧
            producedBlock.header.receiptsRoot = r.1.receiptsRoot ∧
            producedBlock.header.logsBloom = r.1.logsBloom)) = true := by decide +kernel
    rw [integersCommitments, hresult] at hfields
    obtain ⟨hgas,hstate,hreceipts,hbloom⟩ := of_decide_eq_true hfields
    exact ⟨hparent,verified_ok_iff.mpr hgas,verified_ok_iff.mpr hstate,if_neg (not_not.mpr hroot),
      verified_ok_iff.mpr hreceipts,verified_ok_iff.mpr hbloom⟩

/-- An empty block that names a parent that is not stored, and has no state root. -/
theorem foreign_block_stored :
    (executeAndCommitInner .integersEmptyRoot idleMachines idleStaking integersCommitments
        (plainDb 0 ∅) .none none (plainBlock 1 5)).result.toOption.map (fun b => decide
          (b.hash .integersEmptyRoot = (plainBlock 1 5).hash .integersEmptyRoot)) = some false ∧
      (plainDb 0 ∅).headHash .integersEmptyRoot ≠ some (plainBlock 1 5).header.parentHash ∧
      ¬ StoresAgreed .integersEmptyRoot idleMachines idleStaking integersCommitments (plainDb 0 ∅) .none
        none (plainBlock 1 5) := by
  have hhash : (executeAndCommitInner .integersEmptyRoot idleMachines idleStaking integersCommitments
      (plainDb 0 ∅) .none none (plainBlock 1 5)).result.toOption.map (fun b => decide
        (b.hash .integersEmptyRoot = (plainBlock 1 5).hash .integersEmptyRoot)) = some false := by
    decide +kernel
  have hparent : (plainDb 0 ∅).headHash .integersEmptyRoot ≠
      some (plainBlock 1 5).header.parentHash := by decide +kernel
  refine ⟨hhash,hparent,fun hagreed => ?_⟩
  unfold StoresAgreed at hagreed
  dsimp only at hagreed
  rcases hresult : (executeAndCommitInner .integersEmptyRoot idleMachines idleStaking integersCommitments
    (plainDb 0 ∅) .none none (plainBlock 1 5)).result with e | b
  · rw [hresult] at hhash
    cases hhash
  · rw [hresult] at hagreed
    exact hparent hagreed.2.1

end ZbxChain
