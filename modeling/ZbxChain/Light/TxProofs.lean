import ZbxChain.Node.BlockHash
import ZbxChain.Trie.Proving

/-! # `zbx_light::spv`: proofs of transactions

A light client takes the leaf of the transactions trie for the transaction itself, whose hash
it compares; a block's producer puts the signing hash there.
-/
namespace ZbxChain
open RlpStream

def txIndexKey (index : UInt64) : List UInt8 := stringBytes (minimalBytes index)

structure TxProof where
  txIndex : UInt64
  txHash : H256
  txRlp : List UInt8
  proof : List (List UInt8)
  root : H256

/-- `TxProof::verify`; `none` where decoding a node panics. -/
def TxProof.verify (P : Platform) (p : TxProof) : Option Bool :=
  if p.txRlp.isEmpty ∨ p.proof.isEmpty then some false
  else if P.keccak256 p.txRlp ≠ p.txHash then some false
  else verifyProof P p.root (txIndexKey p.txIndex) (some p.txRlp) p.proof

namespace TxProof
variable {P : Platform} {crateRlp : RlpItem → List UInt8} {txs : List SignedTransaction} {E : Set (List UInt8)}

/-- The leaf of a transaction: its signing hash as a string. -/
def leaf (P : Platform) (crateRlp : RlpItem → List UInt8) (t : SignedTransaction) : List UInt8 :=
  stringBytes (t.tx.signingHash crateRlp P).asBytes

def trieNodes (P : Platform) (crateRlp : RlpItem → List UInt8) (txs : List SignedTransaction) :
    List (List UInt8) :=
  TrieCall.involved P (MutableTrie.new (⟨[]⟩ : MemoryTrieDB))
    (Mpt.inserts (Mpt.txItems (txs.map (fun t => t.tx.signingHash crateRlp P))))

theorem verify_iff {p : TxProof} : p.verify P = some true ↔ p.txRlp ≠ [] ∧ p.proof ≠ [] ∧
    P.keccak256 p.txRlp = p.txHash ∧ verifyProof P p.root (txIndexKey p.txIndex) (some p.txRlp) p.proof = some true := by
  unfold verify
  by_cases hrlp : p.txRlp = []
  · simp [hrlp]
  · by_cases hproof : p.proof = []
    · simp [hproof]
    · by_cases hhash : P.keccak256 p.txRlp = p.txHash
      · simp [hrlp, hproof, hhash]
      · simp [hrlp, hproof, hhash]

theorem root_spec (hlen : txs.length < 2 ^ 64) (hsafe : Safe P E) (hnodes : ∀ b ∈ trieNodes P crateRlp txs, b ∈ E) :
    ∃ (t : MutableTrie MemoryTrieDB) (u : NibbleTree), t.Represents P E u ∧ t.root = computeTxRoot P crateRlp txs ∧
      ∀ (index : UInt64) (value : List UInt8), u.get (Nibbles.fromBytes (txIndexKey index)) = some value ↔
        ∃ tx, txs[index.toNat]? = some tx ∧ value = leaf P crateRlp tx := by
  have hvalues := Mpt.txItems_values (txs.map (fun t => t.tx.signingHash crateRlp P))
  have hr := Mpt.represents_boxes (⟨[]⟩ : MemoryTrieDB) hvalues hsafe hnodes
  have hlen' : (txs.map (fun t => t.tx.signingHash crateRlp P)).length < 2 ^ 64 := by
    rw [List.length_map]
    exact hlen
  refine ⟨_,_,hr,?_,fun index value => ?_⟩
  · rw [computeTxRoot, Mpt.transactionsRootMpt_eq, Mpt.trieRootFromPairs_after _ hvalues hsafe hnodes]
  · have hindex : txIndexKey index = Mpt.rlpIndex index.toNat := by
      rw [Mpt.rlpIndex, UInt64.ofNat_toNat]
      rfl
    rw [(Mpt.boxes_spec _).2.1, Mpt.contents_inserts (Mpt.nodup_txItems hlen'), Mpt.mem_txItems hlen', hindex]
    constructor
    · rintro ⟨i,hash,hget,hkey,rfl⟩
      have hi : i < 2 ^ 64 := ((List.getElem?_eq_some_iff.mp hget).1).trans hlen'
      rw [← Mpt.rlpIndex_inj index.toNat_lt hi hkey, List.getElem?_map] at hget
      obtain ⟨tx,htx,rfl⟩ := Option.map_eq_some_iff.mp hget
      exact ⟨tx,htx,rfl⟩
    · rintro ⟨tx,htx,rfl⟩
      exact ⟨index.toNat,_,by rw [List.getElem?_map, htx]; rfl,rfl,rfl⟩

def Included (P : Platform) (crateRlp : RlpItem → List UInt8) (txs : List SignedTransaction) : Prop :=
  ∀ (index : UInt64) (tx : SignedTransaction), txs[index.toNat]? = some tx → ∃ txRlp proof,
    (TxProof.mk index tx.hash txRlp proof (computeTxRoot P crateRlp txs)).verify P = some true

/-- No other hash is proved, unless Keccak collides on the nodes of the trie and of the proof. -/
def Exclusive (P : Platform) (crateRlp : RlpItem → List UInt8) (txs : List SignedTransaction) : Prop :=
  ∀ p : TxProof, p.root = computeTxRoot P crateRlp txs → Safe P {b | b ∈ trieNodes P crateRlp txs ++ p.proof} →
    p.verify P = some true → ∃ tx, txs[p.txIndex.toNat]? = some tx ∧ p.txHash = tx.hash

theorem verify_leaf (hlen : txs.length < 2 ^ 64) {p : TxProof} (hroot : p.root = computeTxRoot P crateRlp txs)
    (hsafe : Safe P {b | b ∈ trieNodes P crateRlp txs ++ p.proof}) (h : p.verify P = some true) :
    ∃ tx, txs[p.txIndex.toNat]? = some tx ∧ p.txHash = P.keccak256 (leaf P crateRlp tx) := by
  obtain ⟨-,-,hhash,hproof⟩ := verify_iff.mp h
  obtain ⟨t,u,hr,htop,hget⟩ := root_spec hlen hsafe (fun b hb => List.mem_append_left _ hb)
  rw [hroot, ← htop] at hproof
  have hvalue := hr.verifyProof_spec hsafe (fun b hb => List.mem_append_right _ hb) hproof
  obtain ⟨tx,htx,hleaf⟩ := (hget _ _).mp hvalue.symm
  exact ⟨tx,htx,by rw [← hhash, hleaf]⟩

theorem leaf_verifies (hlen : txs.length < 2 ^ 64) (hsafe : Safe P {b | b ∈ trieNodes P crateRlp txs})
    {index : UInt64} {tx : SignedTransaction} (htx : txs[index.toNat]? = some tx) :
    ∃ proof, (∀ b ∈ proof, b ∈ trieNodes P crateRlp txs) ∧
      (TxProof.mk index (P.keccak256 (leaf P crateRlp tx)) (leaf P crateRlp tx) proof
        (computeTxRoot P crateRlp txs)).verify P = some true := by
  obtain ⟨t,u,hr,htop,hget⟩ := root_spec hlen hsafe (fun b hb => hb)
  have hleaf := (hget index _).mpr ⟨tx,htx,rfl⟩
  have hlong : 32 ≤ (leaf P crateRlp tx).length := by
    have hle := Rlp.length_le_stringBytes (tx.tx.signingHash crateRlp P).asBytes
    rw [H256.length_asBytes] at hle
    exact hle
  have hne : u ≠ .empty := Patricia.ne_empty_of_get hleaf
  refine ⟨proofNodes P u (Nibbles.fromBytes (txIndexKey index)),hr.proofNodes_mem _,verify_iff.mpr ⟨?_,?_,rfl,?_⟩⟩
  · intro hnil
    dsimp only at hnil
    rw [hnil] at hlong
    simp at hlong
  · dsimp only
    rw [proofNodes_of_ne hne]
    exact List.cons_ne_nil _ _
  · dsimp only
    rw [← htop]
    exact hr.verify_prove hsafe hleaf hlong

theorem hash_of_exclusive (hlen : txs.length < 2 ^ 64) (hkeccak : Safe P {b | b ∈ trieNodes P crateRlp txs})
    (hexclusive : Exclusive P crateRlp txs) {tx : SignedTransaction} (htx : tx ∈ txs) :
    tx.hash = P.keccak256 (leaf P crateRlp tx) := by
  obtain ⟨i,hi,rfl⟩ := List.mem_iff_getElem.mp htx
  have hindex : (UInt64.ofNat i).toNat = i := by
    rw [UInt64.toNat_ofNat', Nat.mod_eq_of_lt (hi.trans hlen)]
  have hget : txs[(UInt64.ofNat i).toNat]? = some txs[i] := by
    rw [hindex]
    exact List.getElem?_eq_getElem hi
  obtain ⟨proof,hproof,hverify⟩ := leaf_verifies hlen hkeccak hget
  have hsame : {b | b ∈ trieNodes P crateRlp txs ++ proof} = {b | b ∈ trieNodes P crateRlp txs} := by
    ext b
    simp only [Set.mem_ofPred_eq, List.mem_append]
    exact or_iff_left_of_imp (hproof b)
  obtain ⟨tx,htx,hhash⟩ := hexclusive _ rfl (hsame ▸ hkeccak) hverify
  dsimp only at htx hhash
  rw [hget] at htx
  cases htx
  exact hhash.symm

/-- Light clients find every transaction of a block under its own hash, and only these, exactly
if that hash is the one of the transaction's leaf. -/
theorem included_iff (P : Platform) (crateRlp : RlpItem → List UInt8) (txs : List SignedTransaction)
    (hlen : txs.length < 2 ^ 64) (hkeccak : Safe P {b | b ∈ trieNodes P crateRlp txs}) :
    (Included P crateRlp txs ∧ Exclusive P crateRlp txs) ↔
      ∀ tx ∈ txs, tx.hash = P.keccak256 (leaf P crateRlp tx) := by
  constructor
  · rintro ⟨-,hexclusive⟩ tx htx
    exact hash_of_exclusive hlen hkeccak hexclusive htx
  · intro hall
    refine ⟨fun index tx htx => ?_,fun p hroot hsafe h => ?_⟩
    · obtain ⟨proof,-,hverify⟩ := leaf_verifies hlen hkeccak htx
      refine ⟨leaf P crateRlp tx,proof,?_⟩
      rw [hall tx (List.mem_of_getElem? htx)]
      exact hverify
    · obtain ⟨tx,htx,hhash⟩ := verify_leaf hlen hroot hsafe h
      exact ⟨tx,htx,hhash.trans (hall tx (List.mem_of_getElem? htx)).symm⟩

def demoSigned : SignedTransaction :=
  let stx : SignedTransaction :=
    { tx := { txType := .dynamicFee, nonce := 0, maxPriorityFeePerGas := 0, maxFeePerGas := 1, gasLimit := 21000,
              recipient := some 9, value := 0, data := [], accessList := [], chainId := 8989 }
      sig := ⟨0,1,1⟩
      sender := 5
      hash := 0 }
  { stx with hash := stx.computeHash .integersEmptyRoot RlpItem.rlp }

def demoLeafHashed : SignedTransaction :=
  { demoSigned with hash := Platform.integersEmptyRoot.keccak256 (leaf .integersEmptyRoot RlpItem.rlp demoSigned) }

theorem included_leafHashed : Included .integersEmptyRoot RlpItem.rlp [demoLeafHashed] ∧
    Exclusive .integersEmptyRoot RlpItem.rlp [demoLeafHashed] := by
  refine (included_iff .integersEmptyRoot RlpItem.rlp [demoLeafHashed] (by decide)
    (safe_of_list (by decide +kernel) (by decide +kernel) (by decide +kernel) (by decide +kernel))).mpr ?_
  intro tx htx
  rw [List.mem_singleton.mp htx]
  decide +kernel

/-- A proof of the leaf's hash verifies, which is not the transaction's. -/
theorem other_hash_proved : demoSigned.verifyHash .integersEmptyRoot RlpItem.rlp = true ∧
    ¬ (Included .integersEmptyRoot RlpItem.rlp [demoSigned] ∧
      Exclusive .integersEmptyRoot RlpItem.rlp [demoSigned]) := by
  refine ⟨by decide +kernel,fun hboth => ?_⟩
  have hhash := hash_of_exclusive (by decide)
    (safe_of_list (by decide +kernel) (by decide +kernel) (by decide +kernel) (by decide +kernel)) hboth.2
    (List.mem_singleton_self demoSigned)
  revert hhash
  decide +kernel

end TxProof

end ZbxChain
