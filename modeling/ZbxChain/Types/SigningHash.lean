import ZbxChain.Crypto.Platform
import ZbxChain.Rlp.RoundTrip

/-! # The hash that a wallet signs, and the hash that names a transaction

`signing_hash` builds a list of items for each transaction type and has the `rlp` crate write
it. The crate is the parameter `crateRlp`, from the item appended to its bytes.

`compute_hash` writes the fields of the signed list followed by the three parts of the
signature; `verify_hash` compares the result with the hash that the transaction carries.
-/
namespace ZbxChain
open RlpStream

section Signing
/-- `u256_rlp_bytes`: the big-endian bytes without their leading zeros. -/
def u256RlpBytes (value : U256) : List UInt8 := value.toBigEndian.dropWhile (· == 0)

/-- An integer appended to a stream of the crate. -/
def RlpItem.uint (n : UInt64) : RlpItem := .bytes (minimalBytes n)

def rlpAccessList (accessList : List (Address × List H256)) : RlpItem :=
  .list (accessList.map fun e =>
    .list [.bytes e.1.asBytes,.list (e.2.map fun slot => .bytes slot.asBytes)])

namespace Transaction

/-- The recipient's bytes, or the empty string of a creation. -/
def recipientItem (tx : Transaction) : RlpItem :=
  match tx.recipient with
  | some recipient => .bytes recipient.asBytes
  | none => .bytes []

/-- The items of the list, in the order of the type. -/
def signingItems (tx : Transaction) : List RlpItem :=
  let valueBytes := u256RlpBytes tx.value
  match tx.txType with
  | .legacy =>
    [.uint tx.nonce,.uint tx.maxFeePerGas,.uint tx.gasLimit,tx.recipientItem,.bytes valueBytes,
      .bytes tx.data,.uint tx.chainId,.uint 0,.uint 0]
  | .accessList =>
    [.uint tx.chainId,.uint tx.nonce,.uint tx.maxFeePerGas,.uint tx.gasLimit,tx.recipientItem,
      .bytes valueBytes,.bytes tx.data,rlpAccessList tx.accessList]
  | .dynamicFee =>
    [.uint tx.chainId,.uint tx.nonce,.uint tx.maxPriorityFeePerGas,.uint tx.maxFeePerGas,
      .uint tx.gasLimit,tx.recipientItem,.bytes valueBytes,.bytes tx.data,rlpAccessList tx.accessList]

/-- The type byte in front of the list; legacy transactions have none. -/
def typePrefix (tx : Transaction) : List UInt8 :=
  match tx.txType with
  | .legacy => []
  | .accessList => [0x01]
  | .dynamicFee => [0x02]

variable (crateRlp : RlpItem → List UInt8)

def signingBytes (tx : Transaction) : List UInt8 := tx.typePrefix ++ crateRlp (.list tx.signingItems)

def signingHash (P : Platform) (tx : Transaction) : H256 := P.keccak256 (tx.signingBytes crateRlp)

end Transaction

/-- What the crate documents: items that fit in memory are written in RLP. -/
def WritesRlp (crateRlp : RlpItem → List UInt8) : Prop :=
  ∀ item : RlpItem, item.rlp.length < 2 ^ 63 → crateRlp item = item.rlp

def Transaction.Fits (tx : Transaction) : Prop := (RlpItem.list tx.signingItems).rlp.length < 2 ^ 63

section Injectivity

theorem rlp_inj {item item' : RlpItem} (hfits : item.rlp.length < 2 ^ 63) (h : item.rlp = item'.rlp) :
    item = item' := by
  have hread := Rlp.readItem_rlp (le_max_left item.height item'.height) hfits
  have hread' := Rlp.readItem_rlp (le_max_right item.height item'.height) (h ▸ hfits)
  rw [h, hread'] at hread
  exact (Option.some.inj hread).symm

theorem minimalBytes_inj {x y : UInt64} (h : minimalBytes x = minimalBytes y) : x = y := by
  have hvalue : ∀ z : UInt64, Bytes.ofBytesBE (minimalBytes z) = z.toNat := by
    intro z
    rw [minimalBytes, Bytes.ofBytesBE_dropWhile, beBytes64, Bytes.ofBytesBE_bytesBE]
    exact Nat.mod_eq_of_lt z.toNat_lt
  apply UInt64.toNat_inj.mp
  rw [← hvalue x, ← hvalue y, h]

theorem uint_inj {x y : UInt64} (h : RlpItem.uint x = RlpItem.uint y) : x = y :=
  minimalBytes_inj (RlpItem.bytes.inj h)

theorem u256RlpBytes_inj {x y : U256} (h : u256RlpBytes x = u256RlpBytes y) : x = y := by
  have hvalue : ∀ z : U256, Bytes.ofBytesBE (u256RlpBytes z) = z.toNat := by
    intro z
    rw [u256RlpBytes, Bytes.ofBytesBE_dropWhile, U256.toBigEndian, Bytes.ofBytesBE_bytesBE]
    exact Nat.mod_eq_of_lt z.isLt
  apply BitVec.eq_of_toNat_eq
  rw [← hvalue x, ← hvalue y, h]

theorem recipientItem_inj {tx tx' : Transaction} (h : tx.recipientItem = tx'.recipientItem) :
    tx.recipient = tx'.recipient := by
  have hlen : ∀ a : Address, a.asBytes ≠ [] := by
    intro a ha
    have := a.length_asBytes
    rw [ha] at this
    cases this
  unfold Transaction.recipientItem at h
  cases hto : tx.recipient with
  | none =>
    cases hto' : tx'.recipient with
    | none => rfl
    | some a =>
      rw [hto, hto'] at h
      exact absurd (RlpItem.bytes.inj h).symm (hlen a)
  | some a =>
    cases hto' : tx'.recipient with
    | none =>
      rw [hto, hto'] at h
      exact absurd (RlpItem.bytes.inj h) (hlen a)
    | some b =>
      rw [hto, hto'] at h
      exact congrArg some (Bytes.bytesBE_bitVec_inj (k := 20) (RlpItem.bytes.inj h))

theorem slots_inj {slots slots' : List H256}
    (h : slots.map (fun slot => RlpItem.bytes slot.asBytes) = slots'.map fun slot => .bytes slot.asBytes) :
    slots = slots' := by
  refine List.map_injective_iff.mpr (fun x y hxy => ?_) h
  exact Bytes.bytesBE_bitVec_inj (k := 32) (RlpItem.bytes.inj hxy)

theorem rlpAccessList_inj {list list' : List (Address × List H256)}
    (h : rlpAccessList list = rlpAccessList list') : list = list' := by
  refine List.map_injective_iff.mpr (fun x y hxy => ?_) (RlpItem.list.inj h)
  obtain ⟨haddr,hrest⟩ := List.cons.inj (RlpItem.list.inj hxy)
  obtain ⟨hslots,-⟩ := List.cons.inj hrest
  have hfirst : x.1 = y.1 := Bytes.bytesBE_bitVec_inj (k := 20) (RlpItem.bytes.inj haddr)
  exact Prod.ext hfirst (slots_inj (RlpItem.list.inj hslots))

theorem listBytes_ne_cons (payload rest : List UInt8) {b : UInt8} (hb : b < 0xc0) :
    listBytes payload ≠ b :: rest := by
  have hhead : ∃ c tail, listBytes payload = c :: tail ∧ 0xc0 ≤ c := by
    unfold listBytes listHeader
    split
    · rename_i hshort
      refine ⟨_,payload,rfl,?_⟩
      rw [UInt8.le_iff_toNat_le, UInt8.toNat_add, UInt8.toNat_ofNat']
      have h : (0xc0 : UInt8).toNat = 192 := rfl
      omega
    · have hlen := Rlp.length_minimalBytes_le (UInt64.ofNat payload.length)
      refine ⟨_,_,rfl,?_⟩
      rw [UInt8.le_iff_toNat_le, UInt8.toNat_add, UInt8.toNat_ofNat']
      have h : (0xc0 : UInt8).toNat = 192 := rfl
      have h' : (0xf7 : UInt8).toNat = 247 := rfl
      omega
  obtain ⟨c,tail,hbytes,hc⟩ := hhead
  intro heq
  rw [hbytes] at heq
  rw [(List.cons.inj heq).1] at hc
  exact absurd hb (UInt8.not_lt.mpr hc)

end Injectivity

/-- What two transactions share that are signed alike: the fee cap, the type and all the
fields that the type's list has. -/
structure SignedAlike (tx tx' : Transaction) : Prop where
  txType : tx.txType = tx'.txType
  nonce : tx.nonce = tx'.nonce
  maxFeePerGas : tx.maxFeePerGas = tx'.maxFeePerGas
  gasLimit : tx.gasLimit = tx'.gasLimit
  recipient : tx.recipient = tx'.recipient
  value : tx.value = tx'.value
  data : tx.data = tx'.data
  chainId : tx.chainId = tx'.chainId
  maxPriorityFeePerGas : tx.txType = .dynamicFee → tx.maxPriorityFeePerGas = tx'.maxPriorityFeePerGas
  accessList : tx.txType ≠ .legacy → tx.accessList = tx'.accessList

variable {crateRlp : RlpItem → List UInt8} {tx tx' : Transaction}

theorem signingItems_inj (htype : tx.txType = tx'.txType) (h : tx.signingItems = tx'.signingItems) :
    SignedAlike tx tx' := by
  unfold Transaction.signingItems at h
  cases hkind : tx.txType with
  | legacy =>
    rw [← htype, hkind] at h
    simp only [List.cons.injEq, RlpItem.bytes.injEq] at h
    obtain ⟨hnonce,hfee,hlimit,hto,hvalue,hdata,hchain,-⟩ := h
    exact ⟨htype,uint_inj hnonce,uint_inj hfee,uint_inj hlimit,recipientItem_inj hto,
      u256RlpBytes_inj hvalue,hdata,uint_inj hchain,by simp [hkind],fun hne => absurd hkind hne⟩
  | accessList =>
    rw [← htype, hkind] at h
    simp only [List.cons.injEq, RlpItem.bytes.injEq] at h
    obtain ⟨hchain,hnonce,hfee,hlimit,hto,hvalue,hdata,hlist,-⟩ := h
    exact ⟨htype,uint_inj hnonce,uint_inj hfee,uint_inj hlimit,recipientItem_inj hto,
      u256RlpBytes_inj hvalue,hdata,uint_inj hchain,by simp [hkind],fun _ => rlpAccessList_inj hlist⟩
  | dynamicFee =>
    rw [← htype, hkind] at h
    simp only [List.cons.injEq, RlpItem.bytes.injEq] at h
    obtain ⟨hchain,hnonce,hpriority,hfee,hlimit,hto,hvalue,hdata,hlist,-⟩ := h
    exact ⟨htype,uint_inj hnonce,uint_inj hfee,uint_inj hlimit,recipientItem_inj hto,
      u256RlpBytes_inj hvalue,hdata,uint_inj hchain,fun _ => uint_inj hpriority,
      fun _ => rlpAccessList_inj hlist⟩

theorem typePrefix_inj {payload payload' : List UInt8}
    (h : tx.typePrefix ++ listBytes payload = tx'.typePrefix ++ listBytes payload') :
    tx.txType = tx'.txType := by
  have hone : ∀ rest : List UInt8, listBytes payload ≠ 0x01 :: rest := fun rest =>
    listBytes_ne_cons payload rest (by decide)
  have htwo : ∀ rest : List UInt8, listBytes payload ≠ 0x02 :: rest := fun rest =>
    listBytes_ne_cons payload rest (by decide)
  have hone' : ∀ rest : List UInt8, 0x01 :: rest ≠ listBytes payload' := fun rest =>
    (listBytes_ne_cons payload' rest (by decide)).symm
  have htwo' : ∀ rest : List UInt8, 0x02 :: rest ≠ listBytes payload' := fun rest =>
    (listBytes_ne_cons payload' rest (by decide)).symm
  unfold Transaction.typePrefix at h
  cases hkind : tx.txType <;> cases hkind' : tx'.txType <;> rw [hkind, hkind'] at h
  · exact absurd h (hone _)
  · exact absurd h (htwo _)
  · exact absurd h (hone' _)
  · cases (List.cons.inj h).1
  · exact absurd h (htwo' _)
  · cases (List.cons.inj h).1

/-- Equal bytes come from transactions that sign the same fields. -/
theorem signingBytes_eq_iff (hcrate : WritesRlp crateRlp) (hfits : tx.Fits) (hfits' : tx'.Fits) :
    tx.signingBytes crateRlp = tx'.signingBytes crateRlp ↔ SignedAlike tx tx' := by
  constructor
  · intro h
    unfold Transaction.signingBytes at h
    rw [hcrate _ hfits, hcrate _ hfits'] at h
    have htype : tx.txType = tx'.txType := typePrefix_inj h
    have hfront : tx.typePrefix = tx'.typePrefix := by rw [Transaction.typePrefix, htype]; rfl
    rw [hfront] at h
    exact signingItems_inj htype (RlpItem.list.inj (rlp_inj hfits (List.append_cancel_left h)))
  · intro h
    have hfront : tx.typePrefix = tx'.typePrefix := by rw [Transaction.typePrefix, h.txType]; rfl
    have hto : tx.recipientItem = tx'.recipientItem := by rw [Transaction.recipientItem, h.recipient]; rfl
    have hitems : tx.signingItems = tx'.signingItems := by
      unfold Transaction.signingItems
      rw [← h.txType, ← h.nonce, ← h.maxFeePerGas, ← h.gasLimit, ← hto, ← h.value, ← h.data, ← h.chainId]
      cases hkind : tx.txType with
      | legacy => rfl
      | accessList => rw [h.accessList (by simp [hkind])]
      | dynamicFee => rw [h.accessList (by simp [hkind]), h.maxPriorityFeePerGas hkind]
    rw [Transaction.signingBytes, Transaction.signingBytes, hfront, hitems]

end Signing

/-- `strip_zeros` of a scalar of the signature. -/
def scalarItem (x : H256) : RlpItem := .bytes (x.asBytes.dropWhile (· == 0))

namespace SignedTransaction

/-- The items of the list, in the order of the type. -/
def hashItems (stx : SignedTransaction) : List RlpItem :=
  let tx := stx.tx
  let valueBytes := u256RlpBytes tx.value
  let r := scalarItem stx.sig.r
  let s := scalarItem stx.sig.s
  match tx.txType with
  | .legacy =>
    let v := UInt64.ofNat (min (min (min (tx.chainId.toNat * 2) (2 ^ 64 - 1) + 35) (2 ^ 64 - 1) +
      stx.sig.v.toNat) (2 ^ 64 - 1))
    [.uint tx.nonce,.uint tx.maxFeePerGas,.uint tx.gasLimit,tx.recipientItem,.bytes valueBytes,
      .bytes tx.data,.uint v,r,s]
  | .accessList =>
    [.uint tx.chainId,.uint tx.nonce,.uint tx.maxFeePerGas,.uint tx.gasLimit,tx.recipientItem,
      .bytes valueBytes,.bytes tx.data,rlpAccessList tx.accessList,.uint stx.sig.v.toUInt64,r,s]
  | .dynamicFee =>
    [.uint tx.chainId,.uint tx.nonce,.uint tx.maxPriorityFeePerGas,.uint tx.maxFeePerGas,
      .uint tx.gasLimit,tx.recipientItem,.bytes valueBytes,.bytes tx.data,
      rlpAccessList tx.accessList,.uint stx.sig.v.toUInt64,r,s]

variable (P : Platform) (crateRlp : RlpItem → List UInt8)

def computeHash (stx : SignedTransaction) : H256 :=
  P.keccak256 (stx.tx.typePrefix ++ crateRlp (.list stx.hashItems))

def verifyHash (stx : SignedTransaction) : Bool := decide (stx.computeHash P crateRlp = stx.hash)

end SignedTransaction

end ZbxChain
