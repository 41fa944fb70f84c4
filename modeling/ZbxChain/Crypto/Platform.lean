import Mathlib.Algebra.BigOperators.Group.List.Basic
import ZbxChain.Types.Transaction

/-! # What the chain takes from outside: Keccak, curves, the order of hash maps

`zbx_crypto::bls` is written over a curve library; its groups, point encodings, hash to `G2` and
pairing are the fields of `Curve`, and the functions of the crate are defined on them. The
`k256` crate decodes a signature, tells whether its `s` is high and recovers a public key; these
are the fields of `K256`. A Rust `HashMap` yields its entries in an order the program does not
control, which is the field `iterOrder` of `Platform`.

`zbx_crypto::secp256k1` finds the signer of a transaction, with the texts of `ZbxError`, and
`zbx_threshold::bls_aggregate` checks one aggregate signature by the validators of a bitmap.
-/
namespace ZbxChain

abbrev BlsPrivKey := BitVec 256
abbrev BlsPubKey := BitVec 384
abbrev BlsSignature := BitVec 768

instance : LawfulBEq BlsPubKey := inferInstance

structure Curve where
  G1 : Type
  G2 : Type
  Gt : Type
  [groupG1 : AddCommMonoid G1]
  [groupG2 : AddCommMonoid G2]
  [decG1 : DecidableEq G1]
  [decG2 : DecidableEq G2]
  [decGt : DecidableEq Gt]
  generator : G1
  g1FromCompressed : BlsPubKey → Option G1
  g1ToCompressed : G1 → BlsPubKey
  g2FromCompressed : BlsSignature → Option G2
  g2ToCompressed : G2 → BlsSignature
  scalarFromBytes : BlsPrivKey → ℕ
  hashToG2 : H256 → G2
  pairing : G1 → G2 → Gt

attribute [instance] Curve.groupG1 Curve.groupG2 Curve.decG1 Curve.decG2 Curve.decGt

structure Platform extends Curve where
  keccak256 : List UInt8 → H256
  iterOrder : {α : Type} → List α → List α
  iterOrder_perm : ∀ {α : Type} (l : List α), (iterOrder l).Perm l

namespace Platform
variable (P : Platform)

/-- `BlsPrivKey::to_pubkey`. -/
def toPubkey (sk : BlsPrivKey) : BlsPubKey :=
  P.g1ToCompressed (P.scalarFromBytes sk • P.generator)

/-- `BlsPrivKey::sign`. -/
def sign (sk : BlsPrivKey) (msg : H256) : BlsSignature :=
  P.g2ToCompressed (P.scalarFromBytes sk • P.hashToG2 msg)

/-- `aggregate_signatures`: `none` for an empty list, an undecodable signature or
an identity sum. -/
def aggregateSignatures (sigs : List BlsSignature) : Option BlsSignature :=
  if sigs.isEmpty then none else
    match sigs.mapM P.g2FromCompressed with
    | none => none
    | some points => if points.sum = 0 then none else some (P.g2ToCompressed points.sum)

def aggregatePubkeys (pks : List BlsPubKey) : Option BlsPubKey :=
  if pks.isEmpty then none else
    match pks.mapM P.g1FromCompressed with
    | none => none
    | some points => if points.sum = 0 then none else some (P.g1ToCompressed points.sum)

/-- `verify_single`: the pairing check, refused for undecodable and identity points. -/
def verifySingle (sig : BlsSignature) (pk : BlsPubKey) (msg : H256) : Bool :=
  match P.g2FromCompressed sig, P.g1FromCompressed pk with
  | some s, some p =>
    if s = 0 ∨ p = 0 then false
    else decide (P.pairing P.generator s = P.pairing p (P.hashToG2 msg))
  | _, _ => false

def verifyAggregate (aggSig : BlsSignature) (pubkeys : List BlsPubKey) (msg : H256) : Bool :=
  if pubkeys.isEmpty then false else
    match P.aggregatePubkeys pubkeys with
    | none => false
    | some aggPk => P.verifySingle aggSig aggPk msg

theorem mem_iterOrder {α : Type} {l : List α} {a : α} : a ∈ P.iterOrder l ↔ a ∈ l :=
  (P.iterOrder_perm l).mem_iff

theorem mapM_perm {α β : Type} {f : α → Option β} {l l' : List α} (h : l.Perm l') :
    ∀ {ys : List β}, l.mapM f = some ys → ∃ ys', l'.mapM f = some ys' ∧ ys.Perm ys' := by
  induction h with
  | nil => exact fun {ys} hys => ⟨ys,hys,List.Perm.refl ys⟩
  | cons x _ ih =>
    intro ys hys
    rw [List.mapM_cons] at hys
    obtain ⟨y,hy,hrest⟩ := Option.bind_eq_some_iff.mp hys
    obtain ⟨zs,hzs,heq⟩ := Option.bind_eq_some_iff.mp hrest
    obtain ⟨zs',hzs',hperm⟩ := ih hzs
    cases heq
    refine ⟨y :: zs',?_,hperm.cons y⟩
    rw [List.mapM_cons, hy, hzs']
    rfl
  | swap x x' l =>
    intro ys hys
    rw [List.mapM_cons, List.mapM_cons] at hys
    obtain ⟨y',hy',hrest⟩ := Option.bind_eq_some_iff.mp hys
    obtain ⟨zs',hzs',heq'⟩ := Option.bind_eq_some_iff.mp hrest
    obtain ⟨y,hy,hlast⟩ := Option.bind_eq_some_iff.mp hzs'
    obtain ⟨zs,hzs,heq⟩ := Option.bind_eq_some_iff.mp hlast
    cases heq
    cases heq'
    refine ⟨y :: y' :: zs,?_,List.Perm.swap y y' zs⟩
    rw [List.mapM_cons, List.mapM_cons, hy, hy', hzs]
    rfl
  | trans _ _ ih₁ ih₂ =>
    intro ys hys
    obtain ⟨ys',hys',hperm⟩ := ih₁ hys
    obtain ⟨ys'',hys'',hperm'⟩ := ih₂ hys'
    exact ⟨ys'',hys'',hperm.trans hperm'⟩

theorem aggregateSignatures_perm {sigs sigs' : List BlsSignature} (h : sigs.Perm sigs') :
    P.aggregateSignatures sigs = P.aggregateSignatures sigs' := by
  have hempty : sigs.isEmpty = sigs'.isEmpty := by
    rw [Bool.eq_iff_iff, List.isEmpty_iff, List.isEmpty_iff]
    exact ⟨fun hs => List.nil_perm.mp (hs ▸ h),fun hs => List.perm_nil.mp (hs ▸ h)⟩
  unfold aggregateSignatures
  rw [hempty]
  cases hpoints : sigs.mapM P.g2FromCompressed with
  | none =>
    cases hpoints' : sigs'.mapM P.g2FromCompressed with
    | none => rfl
    | some points' =>
      obtain ⟨points,hsome,-⟩ := mapM_perm h.symm hpoints'
      rw [hpoints] at hsome
      cases hsome
  | some points =>
    obtain ⟨points',hpoints',hperm⟩ := mapM_perm h hpoints
    have hsum : points.sum = points'.sum := hperm.sum_eq
    rw [hpoints']
    simp only [hsum]

/-- The integers in place of the curve groups and multiplication as the pairing: a
platform that runs can be evaluated on. -/
def integers : Platform where
  G1 := ℤ
  G2 := ℤ
  Gt := ℤ
  generator := 1
  g1FromCompressed := fun pk => some pk.toNat
  g1ToCompressed := fun x => BitVec.ofInt 384 x
  g2FromCompressed := fun sig => some sig.toNat
  g2ToCompressed := fun x => BitVec.ofInt 768 x
  scalarFromBytes := fun sk => sk.toNat
  hashToG2 := fun msg => msg.toNat + 1
  pairing := fun x y => x * y
  keccak256 := fun bytes => BitVec.ofNat 256 (bytes.foldl (fun acc b => 257 * acc + b.toNat + 1) 0)
  iterOrder := id
  iterOrder_perm := fun l => List.Perm.refl l

end Platform

/-- The `k256` crate. -/
structure K256 where
  KSig : Type
  signatureFromSlice : List UInt8 → Except String KSig
  normalizeS : KSig → Option KSig
  /-- `recover_from_prehash`, the key as an uncompressed point. -/
  recoverFromPrehash : List UInt8 → KSig → UInt8 → Except String (List UInt8)

namespace Signature

/-- `to_bytes`: r, s and v. -/
def toBytes (sig : Signature) : List UInt8 := sig.r.asBytes ++ sig.s.asBytes ++ [sig.v]

def fromBytes (b : List UInt8) : Except String Signature :=
  if b.length ≠ 65 then .error s!"invalid length: expected 65 bytes, got {b.length}"
  else .ok
    { r := H256.fromSlice (b.take 32)
      s := H256.fromSlice ((b.drop 32).take 32)
      v := b.getD 64 0 }

end Signature

section Recovery
variable (K : K256) (P : Platform)

/-- `recover_pubkey`. The recovery ids 0 and 1 are valid ones to the crate. -/
def recoverPubkey (hash : H256) (sig : Signature) : Except String (List UInt8) :=
  if 1 < sig.v then
    .error s!"signature error: invalid recovery id (must be 0 or 1, got {sig.v}); did you forget EIP-155 normalization?"
  else match K.signatureFromSlice (sig.r.asBytes ++ sig.s.asBytes) with
    | .error e => .error s!"signature error: invalid r/s scalars: {e}"
    | .ok ksig =>
      if (K.normalizeS ksig).isSome then .error "signature error: non-canonical (high-S) signature"
      else match K.recoverFromPrehash hash.asBytes ksig sig.v with
        | .error e => .error s!"signature error: ECDSA recovery failed: {e}"
        | .ok bytes =>
          if bytes.length ≠ 65 then .error "signature error: recovered pubkey not 65 bytes" else .ok bytes

/-- `PubKey::to_address`: the last 20 bytes of the hash of the point. -/
def pubkeyToAddress (pubkey : List UInt8) : Address := (P.keccak256 (pubkey.drop 1)).setWidth 160

def recoverSigner (hash : H256) (sig : Signature) : Except String Address :=
  (recoverPubkey K hash sig).map (pubkeyToAddress P)

end Recovery

inductive BLSError where
  | invalidPublicKeyEncoding
  | invalidSignatureEncoding
  | aggregateVerificationFailed
  | emptySignatureSet
  deriving DecidableEq

def BLSError.display : BLSError → String
  | invalidPublicKeyEncoding => "invalid BLS public key encoding (not a valid G1 point)"
  | invalidSignatureEncoding => "invalid BLS signature encoding (not a valid G2 point)"
  | aggregateVerificationFailed => "aggregate verification failed"
  | emptySignatureSet => "empty signature set: cannot aggregate zero signatures"

def msgDigest (P : Platform) (msg : List UInt8) : H256 := P.keccak256 msg

def blsFastAggVerify (P : Platform) (pubkeys : List BlsPubKey) (message : List UInt8)
    (aggSig : BlsSignature) : Except BLSError Unit :=
  if pubkeys.isEmpty then .error .emptySignatureSet
  else if pubkeys.any (fun pk => (P.g1FromCompressed pk).isNone) then .error .invalidPublicKeyEncoding
  else if (P.g2FromCompressed aggSig).isNone then .error .invalidSignatureEncoding
  else if P.verifyAggregate aggSig pubkeys (msgDigest P message) then .ok ()
  else .error .aggregateVerificationFailed

structure ValidatorBitmap where
  bits : List UInt8
  nValidators : ℕ
  deriving DecidableEq

namespace ValidatorBitmap
variable (bitmap : ValidatorBitmap)

/-- `is_set`; `none` where the source panics for want of a byte. -/
def isSet (idx : ℕ) : Option Bool :=
  if bitmap.nValidators ≤ idx then some false
  else (bitmap.bits[idx / 8]?).map (fun byte => byte >>> UInt8.ofNat (idx % 8) &&& 1 == 1)

/-- The filter over the indices, up to the first panic. -/
def filterSet : List ℕ → Option (List ℕ)
  | [] => some []
  | idx :: rest => do
    let set ← bitmap.isSet idx
    let indices ← filterSet rest
    pure (if set then idx :: indices else indices)

def signedIndices : Option (List ℕ) := bitmap.filterSet (List.range bitmap.nValidators)

variable {bitmap}

theorem sublist_filterSet {candidates indices : List ℕ} (h : bitmap.filterSet candidates = some indices) :
    indices.Sublist candidates := by
  induction candidates generalizing indices with
  | nil =>
    cases h
    exact List.Sublist.slnil
  | cons idx rest ih =>
    simp only [filterSet, bind, Option.bind_eq_some_iff, pure, Option.some.injEq] at h
    obtain ⟨set,-,indices',hrest,rfl⟩ := h
    cases set with
    | true => exact (ih hrest).cons_cons idx
    | false => exact (ih hrest).cons idx

end ValidatorBitmap

/-- The check of the curve library behind that of the crate. -/
theorem verifyAggregate_of_blsFastAggVerify {P : Platform} {pubkeys : List BlsPubKey}
    {message : List UInt8} {aggSig : BlsSignature}
    (h : blsFastAggVerify P pubkeys message aggSig = .ok ()) :
    P.verifyAggregate aggSig pubkeys (msgDigest P message) = true := by
  unfold blsFastAggVerify at h
  split_ifs at h with hempty hkey hsig hverify
  exact hverify

end ZbxChain
