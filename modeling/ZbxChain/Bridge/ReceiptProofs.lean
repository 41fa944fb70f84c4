import ZbxChain.Bridge.Relayer
import ZbxChain.Crypto.MerkleTree
import ZbxChain.Execution.Executor

/-! # Bridge proofs against the receipts root

The root over a block's receipts is made with `zbx_crypto::merkle`, whose nodes hash a byte in
front of the children. `BridgeProof::verify` hashes the children alone.
-/
namespace ZbxChain

section ReceiptsRoot
variable (P : Platform)

def Log.canonicalBytes (log : Log) : List UInt8 :=
  log.address.asBytes ++ beBytes64 (UInt64.ofNat log.topics.length) ++ (log.topics.map H256.asBytes).flatten ++
  beBytes64 (UInt64.ofNat log.data.length) ++ log.data

/-- What `compute_receipt_hash` hashes. -/
def TransactionReceipt.canonicalBytes (r : TransactionReceipt) : List UInt8 :=
  (if r.success then 1 else 0) :: (beBytes64 r.cumulativeGasUsed ++ Bytes.bytesBE 256 r.logsBloom.toNat ++
    beBytes64 (UInt64.ofNat r.logs.length) ++ (r.logs.map Log.canonicalBytes).flatten)

def computeReceiptHash (r : TransactionReceipt) : H256 := P.keccak256 r.canonicalBytes

def computeReceiptsRoot (receipts : List TransactionReceipt) : H256 :=
  if receipts.isEmpty then H256.zero else transactionsRoot P (receipts.map (computeReceiptHash P))

def receiptsTree (receipts : List TransactionReceipt) : MerkleTree :=
  MerkleTree.buildFromHashes P (receipts.map (computeReceiptHash P))

variable {P} {receipts : List TransactionReceipt}

theorem computeReceiptsRoot_eq (h : receipts ≠ []) : computeReceiptsRoot P receipts = (receiptsTree P receipts).root := by
  simp [computeReceiptsRoot, transactionsRoot, receiptsTree, h]

end ReceiptsRoot

namespace Bridge
variable {P : Platform} {receipts : List TransactionReceipt} {proof : BridgeProof} {i : ℕ}

section Statement
variable (P)

/-- What the loop of `verify` hashes. -/
def climbInputs : H256 → ℕ → List H256 → List (List UInt8)
  | _, _, [] => []
  | current, index, sibling :: rest =>
    let input := if index % 2 = 0 then current.asBytes ++ sibling.asBytes else sibling.asBytes ++ current.asBytes
    input :: climbInputs (P.keccak256 input) (index / 2) rest

def BridgeProof.inputs (proof : BridgeProof) : List (List UInt8) :=
  climbInputs P proof.receiptHash proof.receiptIndex.toNat proof.siblings

variable (receipts)

/-- The proof of receipt `i` with the siblings that the tree gives for it. -/
def receiptProof (i : ℕ) (blockHash : H256) (blockNumber : UInt64) : Option BridgeProof := do
  let receipt ← receipts[i]?
  let merkleProof ← (receiptsTree P receipts).proof i
  pure ⟨computeReceiptHash P receipt,blockHash,blockNumber,merkleProof.siblings,UInt32.ofNat i⟩

def Proves (proof : BridgeProof) : Prop :=
  ∃ receipt, receipts[proof.receiptIndex.toNat]? = some receipt ∧ proof.receiptHash = computeReceiptHash P receipt

/-- The proof of receipt `i` is accepted, and a proof of the tree's depth only if it proves
the receipt at its index. -/
def FitsTree (i : ℕ) (proof : BridgeProof) : Prop :=
  (∀ blockHash blockNumber, ∃ honest, receiptProof P receipts i blockHash blockNumber = some honest ∧
    honest.verify P (computeReceiptsRoot P receipts) = .ok ()) ∧
  (proof.siblings.length + 1 = (receiptsTree P receipts).layers.length →
    proof.verify P (computeReceiptsRoot P receipts) = .ok () → Proves P receipts proof)

/-- All that is hashed for the root's nodes and to check the proof of receipt `i`. -/
def nodeInputs (i : ℕ) : Set (List UInt8) :=
  {input | input ∈ (receiptsTree P receipts).inputs ∨
    ∃ blockHash blockNumber honest, receiptProof P receipts i blockHash blockNumber = some honest ∧
      input ∈ honest.inputs P}

end Statement

theorem verify_eq_ok {receiptsRoot : H256} : proof.verify P receiptsRoot = .ok () ↔
    climb P proof.receiptHash proof.receiptIndex.toNat proof.siblings = receiptsRoot := by
  rw [BridgeProof.verify]
  by_cases hroot : climb P proof.receiptHash proof.receiptIndex.toNat proof.siblings = receiptsRoot
  · simp [hroot]
  · simp [hroot]

theorem exists_input_climb {current : H256} {index : ℕ} {siblings : List H256} (h : siblings ≠ []) :
    ∃ input ∈ climbInputs P current index siblings, input.length = 64 ∧
      climb P current index siblings = P.keccak256 input := by
  induction siblings generalizing current index with
  | nil => exact absurd rfl h
  | cons sibling rest ih =>
    have hnext : (if index % 2 = 0 then combine P current sibling else combine P sibling current) =
        P.keccak256 (if index % 2 = 0 then current.asBytes ++ sibling.asBytes
          else sibling.asBytes ++ current.asBytes) := by
      split <;> rfl
    rw [climb, hnext, climbInputs]
    by_cases hrest : rest = []
    · refine ⟨_,List.mem_cons_self,?_,by rw [hrest, climb]⟩
      split <;> simp
    · obtain ⟨input,hinput,hlength,hclimb⟩ := ih hrest
      exact ⟨input,List.mem_cons_of_mem _ hinput,hlength,hclimb⟩

theorem not_verify (hlong : 2 ≤ receipts.length) (hsiblings : proof.siblings ≠ []) {E : Set (List UInt8)}
    (hkeccak : Set.InjOn P.keccak256 E) (htree : ∀ input ∈ (receiptsTree P receipts).inputs, input ∈ E)
    (hproof : ∀ input ∈ proof.inputs P, input ∈ E) :
    proof.verify P (computeReceiptsRoot P receipts) ≠ .ok () := by
  have hne : receipts ≠ [] := by
    rintro rfl
    simp at hlong
  intro hverify
  rw [verify_eq_ok, computeReceiptsRoot_eq hne] at hverify
  obtain ⟨input,hinput,hlength,hclimb⟩ := @exists_input_climb P proof.receiptHash
    proof.receiptIndex.toNat proof.siblings hsiblings
  have hhashes : 2 ≤ (receipts.map (computeReceiptHash P)).length := by simpa using hlong
  obtain ⟨input',hinput',hlength',hroot⟩ := MerkleTree.exists_input_root (P := P) hhashes
  rw [hclimb, receiptsTree, hroot] at hverify
  have heq := hkeccak (hproof input hinput) (htree input' hinput') hverify
  rw [heq] at hlength
  omega

theorem receiptProof_eq (hi : i < receipts.length) (blockHash : H256) (blockNumber : UInt64) :
    receiptProof P receipts i blockHash blockNumber =
      some ⟨computeReceiptHash P receipts[i],blockHash,blockNumber,
        MerkleTree.siblingsFrom (receiptsTree P receipts).layers.dropLast i,UInt32.ofNat i⟩ := by
  have hlen : ¬ (receiptsTree P receipts).len ≤ i := by
    rw [receiptsTree, MerkleTree.len_buildFromHashes, List.length_map]
    omega
  simp [receiptProof, MerkleTree.proof, hlen, hi]

theorem fitsTree_single (receipt : TransactionReceipt) : FitsTree P [receipt] 0 proof ↔
    (proof.siblings = [] → proof.receiptHash = computeReceiptHash P receipt → proof.receiptIndex = 0) := by
  have hroot : computeReceiptsRoot P [receipt] = computeReceiptHash P receipt := rfl
  have hlayers : (receiptsTree P [receipt]).layers.length = 1 := rfl
  have hhonest : ∀ blockHash blockNumber, ∃ honest, receiptProof P [receipt] 0 blockHash blockNumber = some honest ∧
      honest.verify P (computeReceiptsRoot P [receipt]) = .ok () := by
    intro blockHash blockNumber
    refine ⟨_,receiptProof_eq (by simp) blockHash blockNumber,?_⟩
    rw [verify_eq_ok, hroot]
    rfl
  unfold FitsTree
  rw [hlayers, hroot, verify_eq_ok]
  constructor
  · rintro ⟨-,hsound⟩ hsiblings hhash
    obtain ⟨receipt',hreceipt,-⟩ := hsound (by rw [hsiblings]; rfl) (by rw [hsiblings, climb, hhash])
    obtain ⟨hindex,-⟩ := List.getElem?_eq_some_iff.mp hreceipt
    apply UInt32.toNat.inj
    simpa using hindex
  · intro hindex
    refine ⟨hroot ▸ hhonest,?_⟩
    intro hlength hverify
    have hsiblings : proof.siblings = [] := List.eq_nil_of_length_eq_zero (by omega)
    rw [hsiblings, climb] at hverify
    exact ⟨receipt,by rw [hindex hsiblings hverify]; rfl,hverify⟩

theorem fitsTree_iff (hi : i < receipts.length) (hkeccak : Set.InjOn P.keccak256 (nodeInputs P receipts i)) :
    FitsTree P receipts i proof ↔
      ∃ receipt, receipts = [receipt] ∧
        (proof.siblings = [] → proof.receiptHash = computeReceiptHash P receipt → proof.receiptIndex = 0) := by
  by_cases hlong : 2 ≤ receipts.length
  · constructor
    · rintro ⟨hcomplete,-⟩
      obtain ⟨honest,hhonest,hverify⟩ := hcomplete proof.blockHash proof.blockNumber
      have hsiblings : honest.siblings ≠ [] := by
        rw [receiptProof_eq hi] at hhonest
        cases hhonest
        have hhashes : 2 ≤ (receipts.map (computeReceiptHash P)).length := by simpa using hlong
        have hlayers := MerkleTree.two_le_length_layers (P := P) hhashes
        intro hnil
        have hlength := congrArg List.length hnil
        simp [receiptsTree] at hlength
        omega
      exact absurd hverify (not_verify hlong hsiblings hkeccak (fun input hinput => .inl hinput)
        (fun input hinput => .inr ⟨_,_,honest,hhonest,hinput⟩))
    · rintro ⟨receipt,rfl,-⟩
      simp at hlong
  · obtain ⟨receipt,rfl⟩ := List.length_eq_one_iff.mp (show receipts.length = 1 by omega)
    have hzero : i = 0 := by simpa using hi
    rw [hzero, fitsTree_single]
    simp

section TwoTransfers

def transferReceipt (success : Bool) (index : UInt32) : TransactionReceipt :=
  ⟨success,21000 * (index.toUInt64 + 1),0,[],BitVec.ofNat 256 (100 + index.toNat),index,0,1,0,some 1,none,21000,1⟩

def twoTransfers : List TransactionReceipt := [transferReceipt true 0,transferReceipt false 1]

theorem injOn_twoTransfers : Set.InjOn Platform.integers.keccak256 (nodeInputs .integers twoTransfers 0) := by
  have hall : ∀ input ∈ nodeInputs .integers twoTransfers 0, input ∈
      (receiptsTree .integers twoTransfers).inputs ++
        climbInputs .integers (computeReceiptHash .integers (transferReceipt true 0)) 0
          [computeReceiptHash .integers (transferReceipt false 1)] := by
    rintro input (htree | ⟨blockHash,blockNumber,honest,hhonest,hinput⟩)
    · exact List.mem_append_left _ htree
    · rw [receiptProof_eq (by decide)] at hhonest
      rw [← Option.some.inj hhonest] at hinput
      exact List.mem_append_right _ hinput
  have hkeccak : ∀ input ∈ (receiptsTree .integers twoTransfers).inputs ++
        climbInputs .integers (computeReceiptHash .integers (transferReceipt true 0)) 0
          [computeReceiptHash .integers (transferReceipt false 1)],
      ∀ input' ∈ (receiptsTree .integers twoTransfers).inputs ++
        climbInputs .integers (computeReceiptHash .integers (transferReceipt true 0)) 0
          [computeReceiptHash .integers (transferReceipt false 1)],
      Platform.integers.keccak256 input = Platform.integers.keccak256 input' → input = input' := by
    decide +kernel
  intro input hinput input' hinput'
  exact hkeccak input (hall input hinput) input' (hall input' hinput')

/-- Two plain transfers: the proof of the first is refused. -/
theorem twoTransfers_refused :
    Set.InjOn Platform.integers.keccak256 (nodeInputs .integers twoTransfers 0) ∧
    ∀ proof, ¬ FitsTree .integers twoTransfers 0 proof := by
  refine ⟨injOn_twoTransfers,?_⟩
  rintro proof ⟨hcomplete,-⟩
  obtain ⟨honest,hhonest,hverify⟩ := hcomplete 0 0
  refine not_verify (by decide) ?_ injOn_twoTransfers (fun input hinput => .inl hinput)
    (fun input hinput => .inr ⟨_,_,honest,hhonest,hinput⟩) hverify
  rw [receiptProof_eq (by decide)] at hhonest
  rw [← Option.some.inj hhonest]
  exact List.cons_ne_nil _ _

theorem fitsTree_iff_two : FitsTree .integers twoTransfers 0 ⟨0,0,0,[],0⟩ ↔
    ∃ receipt, twoTransfers = [receipt] ∧
      (([] : List H256) = [] → (0 : H256) = computeReceiptHash .integers receipt → (0 : UInt32) = 0) :=
  fitsTree_iff (by decide) injOn_twoTransfers

end TwoTransfers

end Bridge

end ZbxChain
