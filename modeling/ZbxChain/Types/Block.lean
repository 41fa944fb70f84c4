import ZbxChain.Crypto.Platform

/-! # Blocks, the canonical header hash, and the validity of a header against its parent -/
namespace ZbxChain

structure BlockHeader where
  parentHash : H256
  uncleHash : H256
  coinbase : Address
  stateRoot : H256
  transactionsRoot : H256
  receiptsRoot : H256
  logsBloom : BitVec 2048
  difficulty : U256
  number : UInt64
  gasLimit : UInt64
  gasUsed : UInt64
  timestamp : UInt64
  extraData : List UInt8
  mixHash : H256
  nonce : UInt64
  baseFeePerGas : UInt64
  committeeSignature : List UInt8
  epoch : UInt64
  epochSeed : Option H256
  deriving DecidableEq

structure BlockBody where
  transactions : List SignedTransaction
  uncles : List BlockHeader
  deriving DecidableEq

structure Block where
  header : BlockHeader
  body : BlockBody
  deriving DecidableEq

namespace BlockHeader

def encodeEpochSeed : Option H256 → List UInt8
  | none => [0]
  | some seed => 1 :: seed.asBytes

/-- `canonical_encode`: fixed-width fields, a length tag on `extra_data` (cast to
`u32`), a presence tag on `epoch_seed`; `committee_signature` is left out. -/
def canonicalEncode (h : BlockHeader) : List UInt8 :=
  h.parentHash.asBytes ++ h.uncleHash.asBytes ++ h.coinbase.asBytes ++ h.stateRoot.asBytes ++
  h.transactionsRoot.asBytes ++ h.receiptsRoot.asBytes ++ Bytes.bytesBE 256 h.logsBloom.toNat ++
  h.difficulty.toBigEndian ++ beBytes64 h.number ++ beBytes64 h.gasLimit ++ beBytes64 h.gasUsed ++
  beBytes64 h.timestamp ++ Bytes.bytesBE 4 h.extraData.length ++ h.extraData ++
  h.mixHash.asBytes ++ beBytes64 h.nonce ++ beBytes64 h.baseFeePerGas ++ beBytes64 h.epoch ++
  encodeEpochSeed h.epochSeed

def hash (P : Platform) (h : BlockHeader) : H256 := P.keccak256 h.canonicalEncode

theorem canonicalEncode_split (h : BlockHeader) :
    ∃ front back, front.length = 468 ∧ h.canonicalEncode = front ++ (beBytes64 h.number ++ back) := by
  refine ⟨h.parentHash.asBytes ++ h.uncleHash.asBytes ++ h.coinbase.asBytes ++ h.stateRoot.asBytes ++
    h.transactionsRoot.asBytes ++ h.receiptsRoot.asBytes ++ Bytes.bytesBE 256 h.logsBloom.toNat ++
    h.difficulty.toBigEndian,
    beBytes64 h.gasLimit ++ beBytes64 h.gasUsed ++ beBytes64 h.timestamp ++
    Bytes.bytesBE 4 h.extraData.length ++ h.extraData ++ h.mixHash.asBytes ++ beBytes64 h.nonce ++
    beBytes64 h.baseFeePerGas ++ beBytes64 h.epoch ++ encodeEpochSeed h.epochSeed,
    ?_,?_⟩
  · simp only [List.length_append, H256.length_asBytes, Address.length_asBytes,
      U256.length_toBigEndian, Bytes.length_bytesBE]
  · unfold canonicalEncode
    simp only [List.append_assoc]

theorem number_of_canonicalEncode {h h' : BlockHeader}
    (heq : h.canonicalEncode = h'.canonicalEncode) : h.number = h'.number := by
  obtain ⟨front,back,hlen,hsplit⟩ := h.canonicalEncode_split
  obtain ⟨front',back',hlen',hsplit'⟩ := h'.canonicalEncode_split
  rw [hsplit, hsplit'] at heq
  obtain ⟨_,hrest⟩ := List.append_inj heq (hlen.trans hlen'.symm)
  exact Bytes.bytesBE_uint64_inj (Bytes.bytesBE_append_inj hrest).1

theorem parentHash_of_canonicalEncode {h h' : BlockHeader}
    (heq : h.canonicalEncode = h'.canonicalEncode) : h.parentHash = h'.parentHash := by
  unfold canonicalEncode H256.asBytes at heq
  simp only [List.append_assoc] at heq
  have hbytes : Bytes.bytesBE 32 h.parentHash.toNat = Bytes.bytesBE 32 h'.parentHash.toNat :=
    (Bytes.bytesBE_append_inj heq).1
  exact Bytes.bytesBE_bitVec_inj (k := 32) hbytes

end BlockHeader

namespace Block

def hash (P : Platform) (b : Block) : H256 := b.header.hash P
def number (b : Block) : UInt64 := b.header.number
def coinbase (b : Block) : Address := b.header.coinbase

end Block

def BLOCK_GAS_LIMIT : UInt64 := 30000000

/-- `compute_eip1559_base_fee`; the sum is cast to 64 bits. The source stops where it
divides by a gas target of 0. -/
def computeEip1559BaseFee (parentBase gasUsed gasLimit : UInt64) : UInt64 :=
  if gasLimit = 0 then parentBase
  else
    let target := gasLimit / 2
    if gasUsed = target then parentBase
    else
      let base := parentBase.toNat
      let adj := base / 8
      if target < gasUsed then
        let delta := (gasUsed - target).toNat
        let bump := min (max (base * delta / target.toNat) 1) adj
        UInt64.ofNat (min (base + bump) (2 ^ 128 - 1))
      else
        let delta := (target - gasUsed).toNat
        let cut := min (base * delta / target.toNat) adj
        UInt64.ofNat (base - cut)

namespace BlockHeader

/-- `validate_against_parent`, with the texts of its `ZbxError::Consensus` errors. -/
def validateAgainstParent (P : Platform) (h parent : BlockHeader) : Except String Unit :=
  if h.parentHash ≠ parent.hash P then .error s!"block {h.number} parent_hash mismatch"
  else if h.number ≠ parent.number + 1 then
    .error s!"block number gap: expected {parent.number + 1}, got {h.number}"
  else if h.timestamp ≤ parent.timestamp then .error "block timestamp must be strictly increasing"
  else if h.gasLimit < h.gasUsed then
    .error s!"gas_used {h.gasUsed} exceeds gas_limit {h.gasLimit}"
  else if BLOCK_GAS_LIMIT < h.gasLimit then .error "block gas_limit exceeds protocol maximum"
  else if 32 < h.extraData.length then
    .error s!"extra_data too long: {h.extraData.length} bytes (max 32)"
  else if 0 < parent.number ∨ 0 < parent.baseFeePerGas then
    let expected := computeEip1559BaseFee parent.baseFeePerGas parent.gasUsed parent.gasLimit
    if h.baseFeePerGas ≠ expected then
      .error s!"base_fee_per_gas mismatch at block {h.number}: expected {expected}, got {h.baseFeePerGas}"
    else .ok ()
  else .ok ()

/-- What the verifier demands of the base fee of a child; a genesis block without a base
fee demands nothing. -/
def BaseFeeValid (h parent : BlockHeader) : Prop :=
  0 < parent.number ∨ 0 < parent.baseFeePerGas →
    h.baseFeePerGas = computeEip1559BaseFee parent.baseFeePerGas parent.gasUsed parent.gasLimit

instance (h parent : BlockHeader) : Decidable (BaseFeeValid h parent) :=
  inferInstanceAs (Decidable (_ → _))

/-- The checks that a header has to pass. -/
theorem validateAgainstParent_ok_iff {P : Platform} {h parent : BlockHeader} :
    h.validateAgainstParent P parent = .ok () ↔
      h.parentHash = parent.hash P ∧ h.number = parent.number + 1 ∧ parent.timestamp < h.timestamp ∧
      h.gasUsed ≤ h.gasLimit ∧ h.gasLimit ≤ BLOCK_GAS_LIMIT ∧ h.extraData.length ≤ 32 ∧
      h.BaseFeeValid parent := by
  unfold validateAgainstParent BaseFeeValid
  dsimp only
  constructor
  · intro hok
    split at hok; · cases hok
    rename_i hhash
    split at hok; · cases hok
    rename_i hnumber
    split at hok; · cases hok
    rename_i htime
    split at hok; · cases hok
    rename_i hused
    split at hok; · cases hok
    rename_i hlimit
    split at hok; · cases hok
    rename_i hextra
    refine ⟨not_not.mp hhash,not_not.mp hnumber,UInt64.not_le.mp htime,UInt64.not_lt.mp hused,
      UInt64.not_lt.mp hlimit,Nat.not_lt.mp hextra,?_⟩
    intro hcheck
    rw [if_pos hcheck] at hok
    split at hok
    · cases hok
    · rename_i hfee
      exact not_not.mp hfee
  · rintro ⟨hhash,hnumber,htime,hused,hlimit,hextra,hfee⟩
    rw [if_neg (not_not.mpr hhash), if_neg (not_not.mpr hnumber), if_neg (UInt64.not_le.mpr htime),
      if_neg (UInt64.not_lt.mpr hused), if_neg (UInt64.not_lt.mpr hlimit),
      if_neg (Nat.not_lt.mpr hextra)]
    by_cases hcheck : 0 < parent.number ∨ 0 < parent.baseFeePerGas
    · rw [if_pos hcheck, if_neg (not_not.mpr (hfee hcheck))]
    · rw [if_neg hcheck]

end BlockHeader

end ZbxChain
