import ZbxChain.Execution.SignedFields
import ZbxChain.Execution.SameView
import ZbxChain.Node.Committed
import ZbxChain.Trie.TwoTries

/-! # What a block hash binds of the block's execution

The hash covers the header, the header's transactions root covers the signed bytes of the
transactions; the cached sender and hash and the unsigned fields are covered by neither.
-/
namespace ZbxChain

section Headers
variable {h h' : BlockHeader}

/-- The encoding determines all of the header but the committee's signature. -/
theorem header_of_canonicalEncode (hlen : h.extraData.length < 2 ^ 32)
    (hlen' : h'.extraData.length < 2 ^ 32) (heq : h.canonicalEncode = h'.canonicalEncode) :
    h' = { h with committeeSignature := h'.committeeSignature } := by
  unfold BlockHeader.canonicalEncode at heq
  simp only [List.append_assoc] at heq
  obtain ⟨hparent,heq⟩ := Bytes.bytesBE_append_inj heq
  obtain ⟨huncle,heq⟩ := Bytes.bytesBE_append_inj heq
  obtain ⟨hcoinbase,heq⟩ := Bytes.bytesBE_append_inj heq
  obtain ⟨hstate,heq⟩ := Bytes.bytesBE_append_inj heq
  obtain ⟨htxs,heq⟩ := Bytes.bytesBE_append_inj heq
  obtain ⟨hreceipts,heq⟩ := Bytes.bytesBE_append_inj heq
  obtain ⟨hbloom,heq⟩ := Bytes.bytesBE_append_inj heq
  obtain ⟨hdifficulty,heq⟩ := Bytes.bytesBE_append_inj heq
  obtain ⟨hnumber,heq⟩ := Bytes.bytesBE_append_inj heq
  obtain ⟨hlimit,heq⟩ := Bytes.bytesBE_append_inj heq
  obtain ⟨hused,heq⟩ := Bytes.bytesBE_append_inj heq
  obtain ⟨htime,heq⟩ := Bytes.bytesBE_append_inj heq
  obtain ⟨hextraLen,heq⟩ := Bytes.bytesBE_append_inj heq
  obtain ⟨hextra,heq⟩ := List.append_inj heq (Bytes.bytesBE_inj hlen hlen' hextraLen)
  obtain ⟨hmix,heq⟩ := Bytes.bytesBE_append_inj heq
  obtain ⟨hnonce,heq⟩ := Bytes.bytesBE_append_inj heq
  obtain ⟨hfee,heq⟩ := Bytes.bytesBE_append_inj heq
  obtain ⟨hepoch,hseed⟩ := Bytes.bytesBE_append_inj heq
  have hseeds : h.epochSeed = h'.epochSeed := by
    cases hs : h.epochSeed <;> cases hs' : h'.epochSeed <;>
      simp only [hs, hs', BlockHeader.encodeEpochSeed] at hseed
    · rfl
    · cases (List.cons.inj hseed).1
    · cases (List.cons.inj hseed).1
    · exact congrArg some (Bytes.bytesBE_bitVec_inj (k := 32) (List.cons.inj hseed).2)
  cases h
  cases h'
  simp only [BlockHeader.mk.injEq]
  exact ⟨(Bytes.bytesBE_bitVec_inj (k := 32) hparent).symm,(Bytes.bytesBE_bitVec_inj (k := 32) huncle).symm,
    (Bytes.bytesBE_bitVec_inj (k := 20) hcoinbase).symm,(Bytes.bytesBE_bitVec_inj (k := 32) hstate).symm,
    (Bytes.bytesBE_bitVec_inj (k := 32) htxs).symm,(Bytes.bytesBE_bitVec_inj (k := 32) hreceipts).symm,
    (Bytes.bytesBE_bitVec_inj (k := 256) hbloom).symm,
    (Bytes.bytesBE_bitVec_inj (k := 32) hdifficulty).symm,(Bytes.bytesBE_uint64_inj hnumber).symm,
    (Bytes.bytesBE_uint64_inj hlimit).symm,(Bytes.bytesBE_uint64_inj hused).symm,
    (Bytes.bytesBE_uint64_inj htime).symm,hextra.symm,(Bytes.bytesBE_bitVec_inj (k := 32) hmix).symm,
    (Bytes.bytesBE_uint64_inj hnonce).symm,(Bytes.bytesBE_uint64_inj hfee).symm,trivial,
    (Bytes.bytesBE_uint64_inj hepoch).symm,hseeds.symm⟩

end Headers

section Execution
variable {V K : Type} (P : Platform) (M : Machines) (S : StakingPrecompile V K) (C : Commitments)
  (crateRlp : RlpItem → List UInt8)

def Block.signingHashes (b : Block) : List H256 :=
  b.body.transactions.map (fun tx => tx.tx.signingHash crateRlp P)

def computeTxRoot (txs : List SignedTransaction) : H256 :=
  Mpt.transactionsRootMpt P (txs.map (fun tx => tx.tx.signingHash crateRlp P))

def verifyTransactionsRoot (b : Block) : Except ExecutionError Unit :=
  if Mpt.transactionsRootMpt P (b.signingHashes P crateRlp) ≠ b.header.transactionsRoot then
    .error (.validation "transactions_root mismatch")
  else .ok ()

/-- `into_diff`; no code is ever added to it. -/
structure StateDiff where
  accounts : Accounts
  storage : Storage
  deleted : List Address
  logs : List Log

def ExecView.intoDiff (view : ExecView) : StateDiff :=
  ⟨view.state.accounts,view.state.storage,view.state.deleted,view.logs⟩

structure ExecutionResult where
  receipts : List TransactionReceipt
  stateDiff : StateDiff
  gasUsed : UInt64
  newStateRoot : Except Fault H256
  transactionsRoot : H256
  receiptsRoot : H256
  logsBloom : BitVec 2048

/-- `execute`: without a validator set every transaction is executed as a plain one. -/
def executeBlock (b : Block) (view : ExecView) : Except ExecutionError ExecutionResult :=
  match (runBlock P M S C b none).runOn view with
  | (.error e,_) => .error e
  | (.ok progress,view) => .ok
    { receipts := progress.receipts
      stateDiff := view.intoDiff
      gasUsed := progress.cumulativeGas
      newStateRoot := view.state.stateRoot P
      transactionsRoot := computeTxRoot P crateRlp b.body.transactions
      receiptsRoot := C.receiptsRoot progress.receipts
      logsBloom := C.blockBloom progress.receipts }

end Execution

section Reads
variable {V K : Type} {P : Platform} {M : Machines} {S : StakingPrecompile V K} {C : Commitments}
  {tx tx' : SignedTransaction}

/-- Equal in all that execution reads at a base fee. -/
structure ReadAlike (baseFee : UInt64) (tx tx' : SignedTransaction) : Prop where
  sender : tx.sender = tx'.sender
  hash : tx.hash = tx'.hash
  nonce : tx.tx.nonce = tx'.tx.nonce
  maxFeePerGas : tx.tx.maxFeePerGas = tx'.tx.maxFeePerGas
  gasLimit : tx.tx.gasLimit = tx'.tx.gasLimit
  recipient : tx.tx.recipient = tx'.tx.recipient
  value : tx.tx.value = tx'.tx.value
  data : tx.tx.data = tx'.tx.data
  chainId : tx.tx.chainId = tx'.tx.chainId
  intrinsicGas : tx.tx.intrinsicGas = tx'.tx.intrinsicGas
  effectiveGasPrice : tx.effectiveGasPrice baseFee = tx'.effectiveGasPrice baseFee

variable {header : BlockHeader}

theorem ReadAlike.debitSender (h : ReadAlike header.baseFeePerGas tx tx') :
    debitSender tx header = debitSender tx' header := by
  unfold ZbxChain.debitSender Transaction.valueU128
  rw [h.sender, h.nonce, h.maxFeePerGas, h.gasLimit, h.value, h.intrinsicGas, h.effectiveGasPrice]

theorem ReadAlike.resolveTarget {baseFee : UInt64} (h : ReadAlike baseFee tx tx') :
    resolveTarget P tx = resolveTarget P tx' := by
  unfold ZbxChain.resolveTarget createAddress
  rw [h.sender, h.nonce, h.recipient, h.data]

theorem ReadAlike.runCode (h : ReadAlike header.baseFeePerGas tx tx') (intrinsic : UInt64) (t : Target) :
    runCode P M tx header intrinsic t = runCode P M tx' header intrinsic t := by
  have hcalldata : tx.tx.calldata = tx'.tx.calldata := by
    unfold Transaction.calldata
    rw [h.recipient, h.data]
  unfold ZbxChain.runCode runZvm zvmContext evmContext Transaction.valueU128
  rw [hcalldata, h.sender, h.gasLimit, h.recipient, h.value, h.data, h.chainId, h.effectiveGasPrice]

theorem ReadAlike.settleValue {baseFee : UInt64} (h : ReadAlike baseFee tx tx') (value : ℕ)
    (t : Target) (success : Bool) : settleValue tx value t success = settleValue tx' value t success := by
  unfold ZbxChain.settleValue
  rw [h.sender, h.recipient]

theorem ReadAlike.executeTx (h : ReadAlike header.baseFeePerGas tx tx') :
    executeTx P M tx header = executeTx P M tx' header := by
  have hgas : ∀ (charge : Charge) (used : UInt64), charge.gasUsed tx used = charge.gasUsed tx' used := by
    intro charge used
    unfold Charge.gasUsed
    rw [h.gasLimit]
  unfold ZbxChain.executeTx
  rw [h.debitSender, h.resolveTarget, h.sender]
  simp only [h.runCode, h.settleValue, hgas]

theorem ReadAlike.executeStakingTx (h : ReadAlike header.baseFeePerGas tx tx') (vs : V) :
    executeStakingTx S tx header vs = executeStakingTx S tx' header vs := by
  have hgas : ∀ (charge : Charge) (used : UInt64), charge.gasUsed tx used = charge.gasUsed tx' used := by
    intro charge used
    unfold Charge.gasUsed
    rw [h.gasLimit]
  unfold ZbxChain.executeStakingTx
  rw [h.debitSender, h.sender, h.data]
  simp only [hgas]

theorem ReadAlike.executeAny (h : ReadAlike header.baseFeePerGas tx tx') (vs : Option V) :
    executeAny P M S tx header vs = executeAny P M S tx' header vs := by
  unfold ZbxChain.executeAny
  rw [h.executeTx, h.recipient]
  simp only [h.executeStakingTx]

/-- Blocks whose headers differ in the committee's signature only. -/
def HeadersAlike (b b' : Block) : Prop :=
  b'.header = { b.header with committeeSignature := b'.header.committeeSignature }

variable {b b' : Block}

theorem HeadersAlike.executeOne (hheader : HeadersAlike b b')
    (h : ReadAlike b.header.baseFeePerGas tx tx') (progress : Progress V) :
    executeOne P M S C b progress tx = executeOne P M S C b' progress tx' := by
  have hexecute : ∀ (t : SignedTransaction) (vs : Option V),
      ZbxChain.executeAny P M S t b'.header vs = ZbxChain.executeAny P M S t b.header vs := by
    intro t vs
    rw [hheader]
    rfl
  have hreceipt : ∀ (cumulativeGas : UInt64) (result : TxResult),
      receiptOf P C b' progress.receipts.length tx' cumulativeGas result =
        receiptOf P C b progress.receipts.length tx cumulativeGas result := by
    intro cumulativeGas result
    have hhash : b'.hash P = b.hash P := by
      unfold Block.hash
      rw [hheader]
      rfl
    have hnumber : b'.number = b.number := by
      unfold Block.number
      rw [hheader]
    unfold receiptOf
    rw [hhash, hnumber, h.hash, h.sender, h.recipient]
  have hcoinbase : b'.header.coinbase = b.header.coinbase := by rw [hheader]
  have hfee : ∀ result : TxResult, validatorFee b'.header result = validatorFee b.header result := by
    intro result
    unfold validatorFee
    rw [hheader]
  unfold ZbxChain.executeOne
  rw [hexecute, h.executeAny]
  simp only [hreceipt, hcoinbase, hfee]

theorem HeadersAlike.executeAll (hheader : HeadersAlike b b') {txs txs' : List SignedTransaction}
    (h : List.Forall₂ (ReadAlike b.header.baseFeePerGas) txs txs') (progress : Progress V) :
    executeAll P M S C b progress txs = executeAll P M S C b' progress txs' := by
  induction h generalizing progress with
  | nil => rfl
  | cons hone _ ih =>
    rw [ZbxChain.executeAll, ZbxChain.executeAll, hheader.executeOne hone]
    exact congrArg _ (funext ih)

theorem HeadersAlike.runBlock (hheader : HeadersAlike b b')
    (h : List.Forall₂ (ReadAlike b.header.baseFeePerGas) b.body.transactions b'.body.transactions)
    (vs : Option V) : runBlock P M S C b vs = runBlock P M S C b' vs := by
  have hlimit : b'.header.gasLimit = b.header.gasLimit := by rw [hheader]
  have hnumber : b'.number = b.number := by
    unfold Block.number
    rw [hheader]
  have hcoinbase : b'.header.coinbase = b.header.coinbase := by rw [hheader]
  unfold ZbxChain.runBlock
  rw [hheader.executeAll h, hlimit, hnumber, hcoinbase]

end Reads

section Receipts
variable {V K : Type} {P : Platform} {M : Machines} {S : StakingPrecompile V K} {C : Commitments}
  {b : Block} {header : BlockHeader}

theorem yields_executeTx (tx : SignedTransaction) :
    (executeTx P M tx header).Yields fun result =>
      result.effectivePrice = tx.effectiveGasPrice header.baseFeePerGas := by
  unfold executeTx
  refine .bind (yields_debitSender tx header) fun charge hcharge => ?_
  refine .bind .any fun target _ => .bind .any fun code _ => ?_
  exact .bind .any fun _ _ => .bind .any fun _ _ => .pure (by rw [hcharge.1])

def quietMachines : Machines :=
  { callPrecompile := fun _ _ _ => some 0
    runEvm := fun _ _ => (.succeeded,0,[])
    runZvm := fun _ => .done (.success,0) }

theorem quiet_runCode (tx : SignedTransaction) (intrinsic : UInt64) (t : Target) (view : ExecView) :
    ((runCode P quietMachines tx header intrinsic t).run ExecView.answer view).1.2.1 = 0 := by
  unfold runCode
  split
  · rfl
  · split
    · rfl
    · split
      · simp only [runZvm, quietMachines, Program.interpret, Program.run_bind]
        rfl
      · rfl

theorem yields_quiet (tx : SignedTransaction) :
    (executeTx P quietMachines tx header).Yields fun result =>
      result.effectivePrice = tx.effectiveGasPrice header.baseFeePerGas ∧
        result.gasUsed = tx.tx.intrinsicGas := by
  refine .and (yields_executeTx tx) ?_
  unfold executeTx
  refine .bind (yields_debitSender tx header) fun charge hcharge => ?_
  refine .bind .any fun target _ => ?_
  refine .bind (Q := fun r => r.2.1 = 0) (.lift (quiet_runCode tx charge.intrinsic target)) ?_
  rintro ⟨exitStatus,used,logs⟩ hused
  refine .bind .any fun _ _ => .bind .any fun _ _ => .pure ?_
  obtain ⟨hcharge,hle⟩ := hcharge
  have hused : used = 0 := hused
  have hadd : saturatingAdd64 tx.tx.intrinsicGas 0 = tx.tx.intrinsicGas := by
    have hlt := tx.tx.intrinsicGas.toNat_lt
    have hzero : (0 : UInt64).toNat = 0 := rfl
    unfold saturatingAdd64
    rw [hzero, Nat.add_zero, min_eq_left (by omega), UInt64.ofNat_toNat]
  dsimp only
  unfold Charge.gasUsed
  rw [hcharge, hused, hadd]
  exact if_pos hle

/-- What a receipt shows of its transaction, whose results are known to satisfy `R`. -/
def ReceiptShows (R : SignedTransaction → TxResult → Prop) (receipt : TransactionReceipt)
    (tx : SignedTransaction) : Prop :=
  receipt.transactionHash = tx.hash ∧ receipt.sender = tx.sender ∧ ∃ result, R tx result ∧
    receipt.gasUsed = result.gasUsed ∧ receipt.effectiveGasPrice = result.effectivePrice

variable {R : SignedTransaction → TxResult → Prop}

theorem yields_executeOne (hR : ∀ tx, (executeTx P M tx b.header).Yields (R tx))
    (progress : Progress V) (hnone : progress.validators = none) (tx : SignedTransaction) :
    (executeOne P M S C b progress tx).Yields fun progress' => progress'.validators = none ∧
      ∃ receipt, progress'.receipts = progress.receipts ++ [receipt] ∧ ReceiptShows R receipt tx := by
  unfold executeOne executeAny
  rw [hnone]
  refine .bind (Q := fun r => r.1 = none ∧ R tx r.2)
    (.bind (hR tx) fun result hresult => .pure ⟨rfl,hresult⟩) ?_
  rintro ⟨validators,result⟩ ⟨hvalidators,hresult⟩
  exact .bind .any fun _ _ => .pure ⟨hvalidators,_,rfl,rfl,rfl,result,hresult,rfl,rfl⟩

theorem yields_executeAll (hR : ∀ tx, (executeTx P M tx b.header).Yields (R tx))
    (txs : List SignedTransaction) (progress : Progress V) (hnone : progress.validators = none) :
    (executeAll P M S C b progress txs).Yields fun progress' =>
      ∃ receipts, progress'.receipts = progress.receipts ++ receipts ∧
        List.Forall₂ (ReceiptShows R) receipts txs := by
  induction txs generalizing progress with
  | nil => exact .pure ⟨[],by rw [List.append_nil],.nil⟩
  | cons tx rest ih =>
    unfold executeAll
    refine .bind (yields_executeOne hR progress hnone tx) ?_
    rintro progress' ⟨hnone',receipt,hreceipt,hshows⟩
    intro view progress'' view' hrun
    obtain ⟨receipts,hreceipts,hall⟩ := ih progress' hnone' view progress'' view' hrun
    refine ⟨receipt :: receipts,?_,.cons hshows hall⟩
    rw [hreceipts, hreceipt, List.append_assoc, List.singleton_append]

theorem yields_runBlock (hR : ∀ tx, (executeTx P M tx b.header).Yields (R tx)) :
    (runBlock P M S C b none).Yields fun progress =>
      List.Forall₂ (ReceiptShows R) progress.receipts b.body.transactions := by
  have hall : (executeAll P M S C b ⟨none,0,[]⟩ b.body.transactions).Yields fun progress =>
      List.Forall₂ (ReceiptShows R) progress.receipts b.body.transactions := by
    intro view progress view' hrun
    obtain ⟨receipts,hreceipts,hshows⟩ := yields_executeAll hR b.body.transactions ⟨none,0,[]⟩ rfl
      view progress view' hrun
    rwa [hreceipts]
  unfold runBlock
  split
  · exact .throw_bind
  · refine .bind hall fun progress hshows => ?_
    dsimp only
    split
    · exact .bind .any fun _ _ => .pure hshows
    · exact .pure hshows

end Receipts

section HashedBlocks
variable {V K : Type} {P : Platform} (M : Machines) (S : StakingPrecompile V K) (C : Commitments)
  {crateRlp : RlpItem → List UInt8} {b b' : Block}

def Block.trieNodes (P : Platform) (crateRlp : RlpItem → List UInt8) (b : Block) : List (List UInt8) :=
  TrieCall.involved P (MutableTrie.new (⟨[]⟩ : MemoryTrieDB))
    (Mpt.inserts (Mpt.txItems (b.signingHashes P crateRlp)))

/-- Keccak does not collide on what is hashed for the two blocks. -/
structure HashesApart (P : Platform) (crateRlp : RlpItem → List UInt8) (b b' : Block) : Prop where
  headers : Set.InjOn P.keccak256 {b.header.canonicalEncode,b'.header.canonicalEncode}
  nodes : Safe P {x | x ∈ b.trieNodes P crateRlp ++ b'.trieNodes P crateRlp}
  transactions : Set.InjOn P.keccak256
    {x | ∃ tx ∈ b.body.transactions ++ b'.body.transactions, x = tx.tx.signingBytes crateRlp}

structure Block.InMemory (b : Block) : Prop where
  extraData : b.header.extraData.length < 2 ^ 32
  count : b.body.transactions.length < 2 ^ 64
  fits : ∀ tx ∈ b.body.transactions, tx.tx.Fits

/-- Equal in what no hash covers: the cached sender and hash, and the price and the intrinsic
gas as far as they come from unsigned fields. -/
structure UncoveredAlike (baseFee : UInt64) (tx tx' : SignedTransaction) : Prop where
  sender : tx.sender = tx'.sender
  hash : tx.hash = tx'.hash
  effectiveGasPrice : tx.effectiveGasPrice baseFee = tx'.effectiveGasPrice baseFee
  intrinsicGas : tx.tx.intrinsicGas = tx'.tx.intrinsicGas

theorem SignedAlike.readAlike {baseFee : UInt64} {tx tx' : SignedTransaction} (h : SignedAlike tx.tx tx'.tx)
    (hrest : UncoveredAlike baseFee tx tx') : ReadAlike baseFee tx tx' :=
  ⟨hrest.sender,hrest.hash,h.nonce,h.maxFeePerGas,h.gasLimit,h.recipient,h.value,h.data,h.chainId,
    hrest.intrinsicGas,hrest.effectiveGasPrice⟩

theorem root_of_verified {b : Block} (h : verifyTransactionsRoot P crateRlp b = .ok ()) :
    Mpt.transactionsRootMpt P (b.signingHashes P crateRlp) = b.header.transactionsRoot := by
  unfold verifyTransactionsRoot at h
  split at h
  · cases h
  · rename_i heq
    exact not_not.mp heq

theorem blocks_alike (hcrate : WritesRlp crateRlp) (hmemory : b.InMemory) (hmemory' : b'.InMemory)
    (hkeccak : HashesApart P crateRlp b b') (hhash : b.hash P = b'.hash P)
    (hverified : verifyTransactionsRoot P crateRlp b = .ok ())
    (hverified' : verifyTransactionsRoot P crateRlp b' = .ok ()) :
    HeadersAlike b b' ∧ List.Forall₂ (fun tx tx' => SignedAlike tx.tx tx'.tx)
      b.body.transactions b'.body.transactions := by
  have hheader : HeadersAlike b b' :=
    header_of_canonicalEncode hmemory.extraData hmemory'.extraData
      (hkeccak.headers (Set.mem_insert _ _) (Set.mem_insert_of_mem _ rfl) hhash)
  have hroots : Mpt.transactionsRootMpt P (b.signingHashes P crateRlp) =
      Mpt.transactionsRootMpt P (b'.signingHashes P crateRlp) := by
    rw [root_of_verified hverified, root_of_verified hverified', hheader]
  have hlists : b.signingHashes P crateRlp = b'.signingHashes P crateRlp := by
    refine Mpt.transactionsRootMpt_inj (⟨[]⟩ : MemoryTrieDB) hkeccak.nodes ?_ ?_
      (fun _ h => List.mem_append_left _ h) (fun _ h => List.mem_append_right _ h) hroots
    · rw [Block.signingHashes, List.length_map]
      exact hmemory.count
    · rw [Block.signingHashes, List.length_map]
      exact hmemory'.count
  refine ⟨hheader,?_⟩
  have hpairs : List.Forall₂ (fun tx tx' : SignedTransaction =>
      tx.tx.signingHash crateRlp P = tx'.tx.signingHash crateRlp P)
      b.body.transactions b'.body.transactions := by
    unfold Block.signingHashes at hlists
    rwa [← List.forall₂_eq_eq_eq, List.forall₂_map_left_iff, List.forall₂_map_right_iff] at hlists
  obtain ⟨hlen,hzip⟩ := List.forall₂_iff_zip.mp hpairs
  refine List.forall₂_iff_zip.mpr ⟨hlen,fun {tx tx'} hmem => ?_⟩
  obtain ⟨htx,htx'⟩ := List.of_mem_zip hmem
  exact (signingBytes_eq_iff hcrate (hmemory.fits tx htx) (hmemory'.fits tx' htx')).mp
    (hkeccak.transactions ⟨tx,List.mem_append_left _ htx,rfl⟩ ⟨tx',List.mem_append_right _ htx',rfl⟩
      (hzip hmem))

theorem forall₂_of_common {α β γ : Type} {R : α → β → Prop} {Q : α → γ → Prop} {T : β → γ → Prop}
    {l : List α} {l₁ : List β} {l₂ : List γ} (h : List.Forall₂ R l l₁) (h' : List.Forall₂ Q l l₂)
    (hstep : ∀ a b c, R a b → Q a c → T b c) : List.Forall₂ T l₁ l₂ := by
  induction h generalizing l₂ with
  | nil =>
    cases h'
    exact .nil
  | cons hR _ ih =>
    cases h' with
    | cons hQ hrest => exact .cons (hstep _ _ _ hR hQ) (ih hrest)

theorem receipts_show {b : Block} {R : SignedTransaction → TxResult → Prop}
    (hR : ∀ tx, (executeTx P M tx b.header).Yields (R tx)) {view : ExecView} {result : ExecutionResult}
    (h : executeBlock P M S C crateRlp b view = .ok result) :
    List.Forall₂ (ReceiptShows R) result.receipts b.body.transactions := by
  unfold executeBlock at h
  rcases hrun : (runBlock P M S C b none).runOn view with ⟨e | progress,after⟩
  · rw [hrun] at h
    cases h
  · rw [hrun] at h
    cases h
    exact yields_runBlock hR view progress after hrun

theorem shown_alike (hheader : HeadersAlike b b') {R : SignedTransaction → TxResult → Prop}
    (hR : ∀ tx, (executeTx P M tx b.header).Yields (R tx)) {view : ExecView} {result : ExecutionResult}
    (h : executeBlock P M S C crateRlp b view = .ok result)
    (h' : executeBlock P M S C crateRlp b' view = .ok result) :
    List.Forall₂ (fun tx tx' : SignedTransaction => tx.sender = tx'.sender ∧ tx.hash = tx'.hash ∧
      ∃ r r', R tx r ∧ R tx' r' ∧ r.gasUsed = r'.gasUsed ∧ r.effectivePrice = r'.effectivePrice)
      b.body.transactions b'.body.transactions := by
  have hR' : ∀ tx, (executeTx P M tx b'.header).Yields (R tx) := by
    intro tx
    have hsame : executeTx P M tx b'.header = executeTx P M tx b.header := by
      rw [hheader]
      rfl
    rw [hsame]
    exact hR tx
  refine forall₂_of_common (receipts_show M S C hR h) (receipts_show M S C hR' h') ?_
  rintro receipt tx tx' ⟨hhash,hsender,r,hr,hgas,hprice⟩ ⟨hhash',hsender',r',hr',hgas',hprice'⟩
  exact ⟨hsender.symm.trans hsender',hhash.symm.trans hhash',r,r',hr,hr',hgas.symm.trans hgas',
    hprice.symm.trans hprice'⟩

/-- With one hash and verified roots, a block that some view accepts when no code does
anything is executed like the other one, on every view and by every interpreter, exactly if the
cached and unsigned fields agree. -/
theorem hash_determines_execution (hcrate : WritesRlp crateRlp) (hmemory : b.InMemory)
    (hmemory' : b'.InMemory) (hkeccak : HashesApart P crateRlp b b') (hhash : b.hash P = b'.hash P)
    (hverified : verifyTransactionsRoot P crateRlp b = .ok ())
    (hverified' : verifyTransactionsRoot P crateRlp b' = .ok ()) :
    (List.Forall₂ (UncoveredAlike b.header.baseFeePerGas) b.body.transactions b'.body.transactions →
      ∀ M view, executeBlock P M S C crateRlp b view = executeBlock P M S C crateRlp b' view) ∧
    ((∃ view result, executeBlock P quietMachines S C crateRlp b view = .ok result) →
      (∀ M view, executeBlock P M S C crateRlp b view = executeBlock P M S C crateRlp b' view) →
      List.Forall₂ (UncoveredAlike b.header.baseFeePerGas) b.body.transactions b'.body.transactions) ∧
    ∀ M view result, executeBlock P M S C crateRlp b view = .ok result →
      executeBlock P M S C crateRlp b' view = .ok result →
      List.Forall₂ (fun tx tx' : SignedTransaction => tx.sender = tx'.sender ∧ tx.hash = tx'.hash ∧
        tx.effectiveGasPrice b.header.baseFeePerGas = tx'.effectiveGasPrice b.header.baseFeePerGas)
        b.body.transactions b'.body.transactions := by
  obtain ⟨hheader,hsigned⟩ := blocks_alike hcrate hmemory hmemory' hkeccak hhash hverified hverified'
  refine ⟨?_,?_,?_⟩
  · intro huncovered M view
    have hread : List.Forall₂ (ReadAlike b.header.baseFeePerGas)
        b.body.transactions b'.body.transactions :=
      List.Forall₂.mp (fun _ _ hrest hpair => hpair.readAlike hrest) huncovered hsigned
    have htxRoot : computeTxRoot P crateRlp b.body.transactions =
        computeTxRoot P crateRlp b'.body.transactions := by
      have hlists := congrArg BlockHeader.transactionsRoot hheader
      rwa [← root_of_verified hverified, ← root_of_verified hverified', eq_comm] at hlists
    unfold executeBlock
    rw [hheader.runBlock hread, htxRoot]
  · rintro ⟨view,result,h⟩ hsame
    refine (shown_alike quietMachines S C hheader yields_quiet h (hsame quietMachines view ▸ h)).imp ?_
    rintro tx tx' ⟨hsender,hhash,r,r',⟨hprice,hgas⟩,⟨hprice',hgas'⟩,hused,heffective⟩
    exact ⟨hsender,hhash,by rw [← hprice, heffective, hprice'],by rw [← hgas, hused, hgas']⟩
  · intro M view result h h'
    refine (shown_alike M S C hheader yields_executeTx h h').imp ?_
    rintro tx tx' ⟨hsender,hhash,r,r',hprice,hprice',-,heffective⟩
    exact ⟨hsender,hhash,by rw [← hprice, heffective, hprice']⟩

def fullTransfer : Transaction := { legacyTransfer 3 [] with txType := .dynamicFee }

def transferHash : H256 := fullTransfer.signingHash RlpItem.rlp .integersEmptyRoot

def transferBlock (sender : Address) (sig : Signature) : Block :=
  { header := { (plainBlock 1 0).header with
      transactionsRoot := Mpt.transactionsRootMpt .integersEmptyRoot [transferHash]
      gasLimit := 30000 }
    body := ⟨[⟨fullTransfer,sig,sender,77⟩],[]⟩ }

def richView : ExecView := ExecView.new.seedAccount 1 { AccountState.fresh with balance := 1000000000 }

theorem inMemory_transferBlock (sender : Address) (sig : Signature) :
    (transferBlock sender sig).InMemory := by
  have hfits : fullTransfer.Fits := by
    unfold Transaction.Fits
    decide +kernel
  refine ⟨by simp [transferBlock, plainBlock],by simp [transferBlock],?_⟩
  intro tx htx
  rw [List.mem_singleton.mp htx]
  exact hfits

theorem signingHashes_transferBlock (sender : Address) (sig : Signature) :
    (transferBlock sender sig).signingHashes .integersEmptyRoot RlpItem.rlp = [transferHash] := rfl

theorem verified_transferBlock (sender : Address) (sig : Signature) :
    verifyTransactionsRoot .integersEmptyRoot RlpItem.rlp (transferBlock sender sig) = .ok () := by
  unfold verifyTransactionsRoot
  rw [signingHashes_transferBlock]
  exact if_neg (fun h => h rfl)

theorem hashesApart_transferBlock (sender sender' : Address) (sig sig' : Signature) :
    HashesApart .integersEmptyRoot RlpItem.rlp (transferBlock sender sig) (transferBlock sender' sig') := by
  refine ⟨?_,?_,?_⟩
  · have hone : (transferBlock sender' sig').header = (transferBlock sender sig).header := rfl
    rw [hone, Set.pair_eq_singleton]
    exact Set.injOn_singleton _ _
  · unfold Block.trieNodes
    rw [signingHashes_transferBlock, signingHashes_transferBlock]
    exact safe_of_list (by decide +kernel) (by decide +kernel) (by decide +kernel) (by decide +kernel)
  · have hone : {x | ∃ tx ∈ (transferBlock sender sig).body.transactions ++
        (transferBlock sender' sig').body.transactions, x = tx.tx.signingBytes RlpItem.rlp} ⊆
          {fullTransfer.signingBytes RlpItem.rlp} := by
      rintro x ⟨tx,htx,rfl⟩
      rcases List.mem_pair.mp htx with rfl | rfl
      · rfl
      · rfl
    exact (Set.injOn_singleton _ _).mono hone

/-- The signature itself is covered by no hash and read by no execution. -/
theorem hash_determines_execution_sig :
    executeBlock .integersEmptyRoot idleMachines idleStaking.toStakingPrecompile zeroCommitments RlpItem.rlp
        (transferBlock 1 ⟨0,5,6⟩) richView =
      executeBlock .integersEmptyRoot idleMachines idleStaking.toStakingPrecompile zeroCommitments RlpItem.rlp
        (transferBlock 1 ⟨1,8,9⟩) richView :=
  (hash_determines_execution idleStaking.toStakingPrecompile zeroCommitments writesRlp_rlp
    (inMemory_transferBlock 1 ⟨0,5,6⟩) (inMemory_transferBlock 1 ⟨1,8,9⟩)
    (hashesApart_transferBlock 1 1 ⟨0,5,6⟩ ⟨1,8,9⟩) rfl (verified_transferBlock _ _)
    (verified_transferBlock _ _)).1 (.cons ⟨rfl,rfl,rfl,rfl⟩ .nil) idleMachines richView

/-- Two blocks with one hash that both verify, one accepted and one rejected on one view: the
cached sender differs. -/
theorem hash_determines_execution_fails :
    (transferBlock 1 ⟨0,5,6⟩).hash .integersEmptyRoot = (transferBlock 2 ⟨0,5,6⟩).hash .integersEmptyRoot ∧
      verifyTransactionsRoot .integersEmptyRoot RlpItem.rlp (transferBlock 1 ⟨0,5,6⟩) = .ok () ∧
      verifyTransactionsRoot .integersEmptyRoot RlpItem.rlp (transferBlock 2 ⟨0,5,6⟩) = .ok () ∧
      HashesApart .integersEmptyRoot RlpItem.rlp (transferBlock 1 ⟨0,5,6⟩) (transferBlock 2 ⟨0,5,6⟩) ∧
      (executeBlock .integersEmptyRoot idleMachines idleStaking.toStakingPrecompile zeroCommitments
        RlpItem.rlp (transferBlock 1 ⟨0,5,6⟩) richView).isOk = true ∧
      (executeBlock .integersEmptyRoot idleMachines idleStaking.toStakingPrecompile zeroCommitments
        RlpItem.rlp (transferBlock 2 ⟨0,5,6⟩) richView).isOk = false :=
  ⟨rfl,verified_transferBlock _ _,verified_transferBlock _ _,hashesApart_transferBlock _ _ _ _,
    by decide +kernel,by decide +kernel⟩

end HashedBlocks

end ZbxChain
