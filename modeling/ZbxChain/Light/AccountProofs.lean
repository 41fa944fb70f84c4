import ZbxChain.Rlp.Malleability
import ZbxChain.State.StateRoot
import ZbxChain.Trie.Proving
import ZbxChain.Trie.TwoTries

/-! # `zbx_light::spv`: proofs of accounts

Full nodes write a fifth item into the leaf of a ZVM account. The light client reads records of
four items, and zeros from every other one.
-/
namespace ZbxChain
open RlpStream

/-- `U256::from_big_endian`; the source panics on more than 32 bytes. -/
def U256.fromBigEndian (bytes : List UInt8) : U256 := BitVec.ofNat 256 (Bytes.ofBytesBE bytes)

structure DecodedAccount where
  nonce : UInt64
  balance : U256
  storageRoot : H256
  codeHash : H256
  deriving DecidableEq

def h256FromBytes (b : List UInt8) : Option H256 := if b.length ≠ 32 then none else some (H256.fromSlice b)

structure AccountProof where
  address : Address
  stateRoot : H256
  accountRlp : List UInt8
  proof : List (List UInt8)

namespace AccountProof

/-- `AccountProof::verify`; `none` where decoding a node panics. -/
def verify (P : Platform) (p : AccountProof) : Option Bool :=
  if p.accountRlp.isEmpty ∨ p.proof.isEmpty then some false
  else verifyProof P p.stateRoot (addressKey P p.address) (some p.accountRlp) p.proof

def decodeAccount (p : AccountProof) : Except Fault (Option DecodedAccount) :=
  let rlp : Rlp := ⟨p.accountRlp⟩
  match rlp.itemCount with
  | .error _ => .ok none
  | .ok count =>
    if count ≠ 4 then .ok none
    else match rlp.itemAt 0 >>= Rlp.decodeU64, rlp.bytesAt 1, rlp.bytesAt 2, rlp.bytesAt 3 with
      | .ok nonce, .ok balanceBytes, .ok storageRootBytes, .ok codeHashBytes =>
        if balanceBytes.length > 32 then .error .panic
        else match h256FromBytes storageRootBytes, h256FromBytes codeHashBytes with
          | some storageRoot, some codeHash =>
            .ok (some ⟨nonce,U256.fromBigEndian balanceBytes,storageRoot,codeHash⟩)
          | _, _ => .ok none
      | _, _, _, _ => .ok none

def nonce (p : AccountProof) : Except Fault UInt64 :=
  p.decodeAccount.map fun account => (account.map DecodedAccount.nonce).getD 0

def balance (p : AccountProof) : Except Fault U256 :=
  p.decodeAccount.map fun account => (account.map DecodedAccount.balance).getD 0

def storageRoot (p : AccountProof) : Except Fault H256 :=
  p.decodeAccount.map fun account => (account.map DecodedAccount.storageRoot).getD H256.zero

def codeHash (p : AccountProof) : Except Fault H256 :=
  p.decodeAccount.map fun account => (account.map DecodedAccount.codeHash).getD H256.zero

def leafItems (st : AccountState) (root : H256) : List (List UInt8) :=
  [stringBytes (u64MinBe st.nonce),stringBytes (stripLeadingZeros st.balance.toBigEndian),
    stringBytes root.asBytes,stringBytes st.codeHash.asBytes] ++
    if st.vm = .zvm then [stringBytes [VmKind.zvm.byte]] else []

section Leaves
variable (st : AccountState) (root : H256)

theorem encodeAccountRlp_items : encodeAccountRlp st root = listBytes (leafItems st root).flatten := by
  rw [encodeAccountRlp_eq, leafHead, leafTail, leafItems]
  by_cases hzvm : st.vm = .zvm
  · simp [hzvm]
  · simp [hzvm]

theorem framed_leafItems : ∀ item ∈ leafItems st root, Rlp.Framed item := by
  intro item hitem
  rcases List.mem_append.mp hitem with hitem | hitem
  · simp only [List.mem_cons, List.not_mem_nil, or_false] at hitem
    rcases hitem with rfl | rfl | rfl | rfl
    · exact Rlp.framed_string _
    · exact Rlp.framed_string _
    · exact Rlp.framed_string _
    · exact Rlp.framed_string _
  · split at hitem
    · rw [List.mem_singleton.mp hitem]
      exact Rlp.framed_string _
    · cases hitem

theorem length_u64MinBe (n : UInt64) : (u64MinBe n).length ≤ 8 := by
  unfold u64MinBe
  split
  · exact Nat.zero_le _
  · exact (List.dropWhile_suffix _).length_le.trans_eq (length_beBytes64 n)

theorem length_stripLeadingZeros (b : List UInt8) : (stripLeadingZeros b).length ≤ b.length :=
  (List.dropWhile_suffix _).length_le

theorem ofBytesBE_u64MinBe (n : UInt64) : Bytes.ofBytesBE (u64MinBe n) = n.toNat := by
  unfold u64MinBe
  split
  · rename_i hzero
    rw [hzero]
    rfl
  · rw [Bytes.ofBytesBE_dropWhile, beBytes64, Bytes.ofBytesBE_bytesBE]
    exact Nat.mod_eq_of_lt n.toNat_lt

theorem fromBigEndian_strip (x : U256) : U256.fromBigEndian (stripLeadingZeros x.toBigEndian) = x := by
  rw [U256.fromBigEndian, stripLeadingZeros, Bytes.ofBytesBE_dropWhile]
  exact H256.fromSlice_asBytes x

theorem decodeU64_u64MinBe (n : UInt64) : Rlp.decodeU64 ⟨stringBytes (u64MinBe n)⟩ = .ok n := by
  have hlen := length_u64MinBe n
  have hpow : (0 + 1) * 256 ^ (u64MinBe n).length ≤ 2 ^ 64 := by
    have : 256 ^ (u64MinBe n).length ≤ 256 ^ 8 := Nat.pow_le_pow_right (by decide) hlen
    omega
  rw [Rlp.decodeU64, Rlp.asBytes_string (by omega)]
  simp only [bind, Except.bind, if_neg (Nat.not_lt.mpr hlen)]
  refine congrArg Except.ok (UInt64.toNat_inj.mp ?_)
  rw [Rlp.toNat_foldl_shift]
  have hfold := Rlp.foldl_pushLength (u64MinBe n) hpow
  rw [ofBytesBE_u64MinBe] at hfold
  simpa using hfold

theorem length_stringBytes_short {data : List UInt8} (h : data.length ≤ 32) : (stringBytes data).length ≤ 33 := by
  have hlt : data.length < 2 ^ 63 := by omega
  obtain ⟨b,-,-,hout⟩ | ⟨b,-,-,hout⟩ | ⟨b,hlong,-⟩ := Rlp.stringBytes_cases hlt
  · simp [hout]
  · rw [hout, List.length_cons]
    omega
  · omega

theorem length_leafItems : (leafItems st root).flatten.length < 2 ^ 63 := by
  have hnonce := length_stringBytes_short ((length_u64MinBe st.nonce).trans (by decide))
  have hbalance := length_stringBytes_short
    ((length_stripLeadingZeros st.balance.toBigEndian).trans_eq (U256.length_toBigEndian _))
  have hroot := length_stringBytes_short (H256.length_asBytes root).le
  have hcode := length_stringBytes_short (H256.length_asBytes st.codeHash).le
  have hvm : (stringBytes [VmKind.zvm.byte]).length ≤ 33 := length_stringBytes_short (by decide)
  rw [leafItems]
  split
  · simp only [List.flatten_append, List.flatten_cons, List.flatten_nil, List.length_append, List.length_nil]
    omega
  · simp only [List.flatten_append, List.flatten_cons, List.flatten_nil, List.length_append, List.length_nil]
    omega

theorem decodeAccount_leaf {p : AccountProof} (hp : p.accountRlp = encodeAccountRlp st root) :
    p.decodeAccount = .ok (if st.vm = .zvm then none else some ⟨st.nonce,st.balance,root,st.codeHash⟩) := by
  have hframed := framed_leafItems st root
  have hlen := length_leafItems st root
  have hcount : Rlp.itemCount ⟨p.accountRlp⟩ = .ok (leafItems st root).length := by
    rw [hp, encodeAccountRlp_items]
    exact Rlp.itemCount_list hframed hlen
  have hitem : ∀ n item, (leafItems st root)[n]? = some item → Rlp.itemAt ⟨p.accountRlp⟩ n = .ok ⟨item⟩ := by
    intro n item hn
    rw [hp, encodeAccountRlp_items, Rlp.itemAt_list hframed hlen, hn]
    rfl
  have hbytes : ∀ n data, (leafItems st root)[n]? = some (stringBytes data) → data.length < 2 ^ 63 →
      Rlp.bytesAt ⟨p.accountRlp⟩ n = .ok data := by
    intro n data hn hdata
    simp [Rlp.bytesAt, hitem n _ hn, bind, Except.bind, Rlp.asBytes_string hdata]
  have hstrip := length_stripLeadingZeros st.balance.toBigEndian
  rw [U256.length_toBigEndian] at hstrip
  by_cases hzvm : st.vm = .zvm
  · have hfive : (leafItems st root).length = 5 := by simp [leafItems, hzvm]
    simp [decodeAccount, hcount, hfive, hzvm]
  · have hfour : (leafItems st root).length = 4 := by simp [leafItems, hzvm]
    have hnonce : Rlp.itemAt ⟨p.accountRlp⟩ 0 >>= Rlp.decodeU64 = .ok st.nonce := by
      simp only [hitem 0 _ rfl, bind, Except.bind, decodeU64_u64MinBe]
    have hbalance := hbytes 1 (stripLeadingZeros st.balance.toBigEndian) rfl (by omega)
    have hroot := hbytes 2 root.asBytes rfl (by simp)
    have hcode := hbytes 3 st.codeHash.asBytes rfl (by simp)
    simp [decodeAccount, hcount, hfour, hzvm, hnonce, hbalance, hroot, hcode, Nat.not_lt.mpr hstrip, h256FromBytes,
      fromBigEndian_strip]

theorem fields_leaf {p : AccountProof} (hp : p.accountRlp = encodeAccountRlp st root) :
    p.nonce = .ok (if st.vm = .zvm then 0 else st.nonce) ∧ p.balance = .ok (if st.vm = .zvm then 0 else st.balance) ∧
      p.storageRoot = .ok (if st.vm = .zvm then 0 else root) ∧
      p.codeHash = .ok (if st.vm = .zvm then 0 else st.codeHash) := by
  have hdecode := decodeAccount_leaf st root hp
  by_cases hzvm : st.vm = .zvm
  · simp [nonce, balance, storageRoot, codeHash, hdecode, hzvm, Except.map, H256.zero]
  · simp [nonce, balance, storageRoot, codeHash, hdecode, hzvm, Except.map]

theorem long_encodeAccountRlp : 32 ≤ (encodeAccountRlp st root).length := by
  have hcode := Rlp.length_le_stringBytes st.codeHash.asBytes
  have hlist := Rlp.length_lt_listBytes (leafItems st root).flatten
  rw [H256.length_asBytes] at hcode
  rw [encodeAccountRlp_items]
  simp only [leafItems, List.flatten_append, List.flatten_cons, List.length_append] at hlist ⊢
  omega

end Leaves

section Reading
variable {P : Platform} {accounts : Accounts} {storage : Storage} {addr : Address} {st : AccountState}

/-- The leaf and the nodes that are proved of an account verify, and the light client reads the
account from them. -/
def Readable (P : Platform) (accounts : Accounts) (storage : Storage) (addr : Address) (st : AccountState) : Prop :=
  ∃ stateRoot proved leaf storageRoot, computeStateRoot P accounts storage = .ok stateRoot ∧
    (accountTrie P accounts storage).1.prove (addressKey P addr) = .ok proved ∧ proved.value = some leaf ∧
    rootInMemory P storage addr st = .ok storageRoot ∧
    let p : AccountProof := ⟨addr,stateRoot,leaf,proved.nodes⟩
    p.verify P = some true ∧ p.nonce = .ok st.nonce ∧ p.balance = .ok st.balance ∧
      p.storageRoot = .ok storageRoot ∧ p.codeHash = .ok st.codeHash

/-- The proof of a stored account against the computed state root. -/
theorem proved_spec (hkeccak : Safe P {b | b ∈ stateHashed P accounts storage})
    (haccount : accounts.lookup addr = some st) (hleaf : (st.isEmpty && cacheIsEmpty (storage.lookup addr)) = false) :
    ∃ stateRoot nodes storageRoot, computeStateRoot P accounts storage = .ok stateRoot ∧
      (accountTrie P accounts storage).1.prove (addressKey P addr) =
        .ok ⟨addressKey P addr,some (encodeAccountRlp st storageRoot),nodes⟩ ∧
      rootInMemory P storage addr st = .ok storageRoot ∧
      (AccountProof.mk addr stateRoot (encodeAccountRlp st storageRoot) nodes).verify P = some true := by
  obtain ⟨storageRoot,hstorage⟩ := rootInMemory_ok hkeccak st
    (fun slots hslots b hb => slotsHashed_subset haccount hslots b hb)
  obtain ⟨hroot,m,⟨u,hr,hget,-⟩,hover⟩ := computeStateRoot_spec hkeccak (fun b hb => hb)
  have hvalue : u.get (Nibbles.fromBytes (addressKey P addr)) = some (encodeAccountRlp st storageRoot) := by
    rw [hget, hover.1 addr (AList.mem_keys_of_lookup haccount), leafOf_of_lookup haccount hstorage, hleaf]
    rfl
  refine ⟨_,proofNodes P u (Nibbles.fromBytes (addressKey P addr)),storageRoot,hroot,?_,hstorage,?_⟩
  · rw [hr.prove hkeccak, hvalue]
  · have hrlp := encodeAccountRlp_ne_nil st storageRoot
    have hnodes : proofNodes P u (Nibbles.fromBytes (addressKey P addr)) ≠ [] := by
      rw [proofNodes_of_ne (Patricia.ne_empty_of_get hvalue)]
      exact List.cons_ne_nil _ _
    rw [verify, if_neg (by simp [hrlp, hnodes])]
    exact hr.verify_prove hkeccak hvalue (long_encodeAccountRlp st storageRoot)

theorem zeros_of_zvm (hkeccak : Safe P {b | b ∈ stateHashed P accounts storage})
    (haccount : accounts.lookup addr = some st) (hleaf : (st.isEmpty && cacheIsEmpty (storage.lookup addr)) = false)
    (hzvm : st.vm = .zvm) (hread : Readable P accounts storage addr st) :
    st.nonce = 0 ∧ st.balance = 0 ∧ st.codeHash = 0 ∧ rootInMemory P storage addr st = .ok 0 := by
  obtain ⟨stateRoot,nodes,storageRoot,hroot,hprove,hstorage,-⟩ := proved_spec hkeccak haccount hleaf
  obtain ⟨stateRoot',proved,leaf,storageRoot',hroot',hprove',hvalue,hstorage',-,hreads⟩ := hread
  obtain ⟨hnonce,hbalance,hstored,hcode⟩ :=
    fields_leaf st storageRoot (p := ⟨addr,stateRoot,encodeAccountRlp st storageRoot,nodes⟩) rfl
  obtain rfl := Except.ok.inj (hroot.symm.trans hroot')
  obtain rfl := Except.ok.inj (hprove.symm.trans hprove')
  obtain rfl := Option.some.inj hvalue
  obtain rfl := Except.ok.inj (hstorage.symm.trans hstorage')
  -- five items: every getter falls back to zero
  simp only [hnonce, hbalance, hstored, hcode, hzvm, if_true, Except.ok.injEq] at hreads
  obtain ⟨hn,hb,hs,hc⟩ := hreads
  exact ⟨hn.symm,hb.symm,hc.symm,hstorage.trans (congrArg Except.ok hs.symm)⟩

/-- Light clients read the account that a full node committed exactly if it runs on the EVM, or
if everything they would read of it is zero. -/
theorem readable_iff (P : Platform) (accounts : Accounts) (storage : Storage)
    (hkeccak : Safe P {b | b ∈ stateHashed P accounts storage}) (addr : Address) (st : AccountState)
    (haccount : accounts.lookup addr = some st) (hleaf : (st.isEmpty && cacheIsEmpty (storage.lookup addr)) = false) :
    Readable P accounts storage addr st ↔ st.vm = .evm ∨
      st.nonce = 0 ∧ st.balance = 0 ∧ st.codeHash = 0 ∧ rootInMemory P storage addr st = .ok 0 := by
  constructor
  · intro hread
    cases hvm : st.vm with
    | evm => exact .inl rfl
    | zvm => exact .inr (zeros_of_zvm hkeccak haccount hleaf hvm hread)
  · intro hwhen
    obtain ⟨stateRoot,nodes,storageRoot,hroot,hprove,hstorage,hverify⟩ := proved_spec hkeccak haccount hleaf
    obtain ⟨hnonce,hbalance,hstored,hcode⟩ :=
      fields_leaf st storageRoot (p := ⟨addr,stateRoot,encodeAccountRlp st storageRoot,nodes⟩) rfl
    refine ⟨stateRoot,_,_,storageRoot,hroot,hprove,rfl,hstorage,hverify,?_⟩
    rcases hwhen with hvm | ⟨hn,hb,hc,hs⟩
    · simp only [hnonce, hbalance, hstored, hcode, hvm]
      exact ⟨rfl,rfl,rfl,rfl⟩
    · obtain rfl := Except.ok.inj (hstorage.symm.trans hs)
      simp only [hnonce, hbalance, hstored, hcode, hn, hb, hc, ite_self]
      exact ⟨trivial,trivial,trivial,trivial⟩

def demoEvm : AccountState := { AccountState.fresh with nonce := 1 }

def demoZvm : AccountState := { demoEvm with vm := .zvm }

theorem readable_evm : Readable .integersEmptyRoot ((∅ : Accounts).insert 1 demoEvm) ∅ 1 demoEvm :=
  (readable_iff .integersEmptyRoot ((∅ : Accounts).insert 1 demoEvm) ∅
    (safe_of_list (by decide +kernel) (by decide +kernel) (by decide +kernel) (by decide +kernel)) 1 demoEvm
    (AList.lookup_insert _) (by decide)).mpr (.inl rfl)

/-- The nonce of a ZVM account is read as zero. -/
theorem zvm_read_as_zero : ¬ ∀ st : AccountState, st.isEmpty = false →
    Readable .integersEmptyRoot ((∅ : Accounts).insert 1 st) ∅ 1 st := by
  intro hall
  have hread : Readable .integersEmptyRoot ((∅ : Accounts).insert 1 demoZvm) ∅ 1 demoZvm := hall demoZvm (by decide)
  have hsafe : Safe .integersEmptyRoot {b | b ∈ stateHashed .integersEmptyRoot ((∅ : Accounts).insert 1 demoZvm) ∅} :=
    safe_of_list (by decide +kernel) (by decide +kernel) (by decide +kernel) (by decide +kernel)
  have hzero := (zeros_of_zvm hsafe (AList.lookup_insert _) (by decide) rfl hread).1
  revert hzero
  decide

end Reading

end AccountProof

end ZbxChain
