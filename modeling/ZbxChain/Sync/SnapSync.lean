import ZbxChain.Foundation.Merkle
import ZbxChain.Trie.Binding

/-! # `zbx_sync`: the tree over the chunk roots, the signed manifest and the chunks

The leaves of a chunk are put into a trie of their own and, after the last chunk, those of all
chunks into one trie. A value may be empty and a key may come again.
-/
namespace ZbxChain

namespace ChunkTree
abbrev MerklePathStep := Merkle.PathStep H256

structure MerkleProof where
  path : List MerklePathStep
  deriving DecidableEq

/-- The parent of two nodes. -/
def hashPair (P : Platform) (l r : H256) : H256 := P.keccak256 (l.asBytes ++ r.asBytes)

def merkleRoot (P : Platform) (leaves : List H256) : H256 :=
  Merkle.top (hashPair P) H256.zero leaves.length leaves

def merkleProof (P : Platform) (leaves : List H256) (index : ℕ) : Option MerkleProof :=
  if leaves.length ≤ index then none
  else if leaves.length = 1 then some ⟨[]⟩
  else some ⟨Merkle.path (hashPair P) H256.zero leaves.length leaves index⟩

/-- The index in a machine word: bit `i` is set where step `i` has the node on the right. -/
def reconstructedIdx (steps : List (MerklePathStep × ℕ)) (idx : UInt64) : UInt64 :=
  steps.foldl (fun idx step => if step.1.isLeft then idx else idx ||| 1 <<< UInt64.ofNat step.2) idx

def verifyProof (P : Platform) (leaf : H256) (index : UInt64) (proof : MerkleProof) (root : H256) : Bool :=
  if reconstructedIdx proof.path.zipIdx 0 ≠ index then false
  else decide (Merkle.climb (hashPair P) leaf proof.path = root)

section Completeness
variable {P : Platform} {leaves : List H256} {index : ℕ} {proof : MerkleProof}

theorem toNat_setBit {idx : UInt64} {i : ℕ} (hi : i < 64) (hidx : idx.toNat < 2 ^ i) :
    (idx ||| 1 <<< UInt64.ofNat i).toNat = idx.toNat + 2 ^ i := by
  have hmod : i % 2 ^ 64 % 64 = i := by omega
  have hlt : 2 ^ i < 2 ^ 64 := Nat.pow_lt_pow_right (by decide) hi
  have hor := Nat.two_pow_add_eq_or_of_lt hidx 1
  rw [Nat.mul_one] at hor
  simp only [UInt64.toNat_or, UInt64.toNat_shiftLeft, UInt64.toNat_ofNat', UInt64.toNat_one, hmod,
    Nat.shiftLeft_eq, Nat.one_mul, Nat.mod_eq_of_lt hlt]
  rw [Nat.or_comm, ← hor, Nat.add_comm]

theorem toNat_reconstructedIdx (steps : List MerklePathStep) {i : ℕ} {idx : UInt64}
    (hlength : i + steps.length ≤ 64) (hidx : idx.toNat < 2 ^ i) :
    (reconstructedIdx (steps.zipIdx i) idx).toNat = idx.toNat + 2 ^ i * Merkle.position steps := by
  induction steps generalizing i idx with
  | nil => simp [reconstructedIdx, Merkle.position]
  | cons step steps ih =>
    simp only [List.length_cons] at hlength
    have hpow : 2 ^ (i + 1) = 2 * 2 ^ i := Nat.pow_succ'
    rw [reconstructedIdx, List.zipIdx_cons, List.foldl_cons, Merkle.position]
    by_cases hleft : step.isLeft = true
    · have hrest := ih (i := i + 1) (show i + 1 + steps.length ≤ 64 by omega) (show idx.toNat < 2 ^ (i + 1) by omega)
      rw [reconstructedIdx] at hrest
      simp only [hleft, if_true]
      rw [hrest, hpow]
      ring
    · have hbit := toNat_setBit (i := i) (by omega) hidx
      have hrest := ih (i := i + 1) (show i + 1 + steps.length ≤ 64 by omega)
        (show (idx ||| 1 <<< UInt64.ofNat i).toNat < 2 ^ (i + 1) by omega)
      rw [reconstructedIdx] at hrest
      simp only [hleft, if_false, Bool.false_eq_true]
      rw [hrest, hbit, hpow]
      ring

theorem verifyProof_merkleProof (hlength : leaves.length ≤ 2 ^ 64)
    (hproof : merkleProof P leaves index = some proof) :
    verifyProof P (leaves.getD index H256.zero) (UInt64.ofNat index) proof (merkleRoot P leaves) = true := by
  unfold merkleProof at hproof
  split at hproof
  · cases hproof
  · rename_i hindex
    have hpath : proof.path = Merkle.path (hashPair P) H256.zero leaves.length leaves index := by
      split at hproof
      · rename_i hone
        obtain ⟨leaf,rfl⟩ := List.length_eq_one_iff.mp hone
        cases hproof
        rfl
      · cases hproof
        rfl
    have hclimb : Merkle.climb (hashPair P) (leaves.getD index H256.zero) proof.path = merkleRoot P leaves := by
      rw [hpath]
      exact Merkle.climb_path (by omega) (Nat.le_succ _)
    have hposition : Merkle.position proof.path = index := by
      rw [hpath]
      exact Merkle.position_path (by omega) (Nat.le_succ _)
    have hshort : 0 + proof.path.length ≤ 64 := by
      rw [hpath, Nat.zero_add]
      exact Merkle.length_path_le hlength
    have hspelt : reconstructedIdx proof.path.zipIdx 0 = UInt64.ofNat index := by
      apply UInt64.toNat_inj.mp
      rw [toNat_reconstructedIdx proof.path hshort (by decide), hposition, UInt64.toNat_ofNat',
        Nat.mod_eq_of_lt (by omega)]
      simp
    rw [verifyProof, hspelt, hclimb]
    simp

end Completeness

end ChunkTree

inductive SyncError where
  | peerDisconnected
  | invalidBlock (number : UInt64) (reason : String)
  | chunkHashMismatch (chunk : UInt64)
  | pivotNotFinalized (tip : UInt64)
  | noPeers
  | network (reason : String)
  | storage (reason : String)
  | timeout
  | interrupted (reason : String)
  | chunkRootMismatch (chunk : UInt64)
  | badManifestSignature (reason : String)
  deriving DecidableEq

/-- What ends a bootstrap early: an error, a panic, or the bound that the model puts on the
header loop. -/
inductive SyncStop where
  | error (e : SyncError)
  | panic
  | fuel
  deriving DecidableEq

/-- `MANIFEST_DOMAIN_TAG`: the bytes of `ZBX_SNAPSHOT_MANIFEST_V1`. -/
def manifestDomainTag : List UInt8 :=
  [90,66,88,95,83,78,65,80,83,72,79,84,95,77,65,78,73,70,69,83,84,95,86,49]

def manifestInput (pivotHeight : UInt64) (stateRoot chunkRoot : H256) (chunkCount : UInt64) : List UInt8 :=
  manifestDomainTag ++ beBytes64 pivotHeight ++ stateRoot.asBytes ++ chunkRoot.asBytes ++ beBytes64 chunkCount

def manifestDigest (P : Platform) (pivotHeight : UInt64) (stateRoot chunkRoot : H256) (chunkCount : UInt64) : H256 :=
  P.keccak256 (manifestInput pivotHeight stateRoot chunkRoot chunkCount)

/-- The keys at the indices, up to the first index without one. -/
def signingPks (validatorKeys : List (Address × BlsPubKey)) : List ℕ → Except SyncError (List BlsPubKey)
  | [] => .ok []
  | i :: rest => do
    match validatorKeys[i]? with
    | none => throw (.badManifestSignature
        ("signer index " ++ toString i ++ " out of range (n=" ++ toString validatorKeys.length ++ ")"))
    | some (_,pk) =>
      let pks ← signingPks validatorKeys rest
      pure (pk :: pks)

def verifyManifestSignature (P : Platform) (pivotHeight : UInt64) (stateRoot chunkRoot : H256)
    (chunkCount : UInt64) (blsQuorumSig : BlsSignature) (blsSigners : ValidatorBitmap)
    (validatorKeys : List (Address × BlsPubKey)) (quorum : ℕ) : Except SyncStop Unit :=
  if validatorKeys.isEmpty then
    .error (.error (.badManifestSignature "validator key set empty — cannot verify"))
  else if blsSigners.nValidators ≠ validatorKeys.length then
    .error (.error (.badManifestSignature ("bitmap size " ++ toString blsSigners.nValidators ++
      " != validator set size " ++ toString validatorKeys.length)))
  else match blsSigners.signedIndices with
  | none => .error .panic
  | some signedIndices =>
    if signedIndices.length < quorum then
      .error (.error (.badManifestSignature
        (toString signedIndices.length ++ " signers < quorum " ++ toString quorum)))
    else match signingPks validatorKeys signedIndices with
    | .error e => .error (.error e)
    | .ok pks =>
      let digest := manifestDigest P pivotHeight stateRoot chunkRoot chunkCount
      match blsFastAggVerify P pks digest.asBytes blsQuorumSig with
      | .error e => .error (.error (.badManifestSignature ("pairing failed: " ++ e.display)))
      | .ok () => .ok ()

def verifyChunkInclusion (P : Platform) (chunkId : UInt64) (chunkRootAtId : H256) (proof : ChunkTree.MerkleProof)
    (manifestChunkRoot : H256) : Except SyncError Unit :=
  if !ChunkTree.verifyProof P chunkRootAtId chunkId proof manifestChunkRoot then .error (.chunkRootMismatch chunkId)
  else .ok ()

/-- `build_inclusion_proofs`; `none` where the source panics for want of a proof. -/
def buildInclusionProofs (P : Platform) (chunkRoots : List H256) : Option (List ChunkTree.MerkleProof) :=
  (List.range chunkRoots.length).mapM (ChunkTree.merkleProof P chunkRoots)

/-- At least a quorum of the keys has signed the digest. -/
def QuorumSigned (Signed : BlsPubKey → H256 → Prop) (validatorKeys : List (Address × BlsPubKey))
    (quorum : ℕ) (digest : H256) : Prop :=
  ∃ signers : List BlsPubKey, signers.Nodup ∧ quorum ≤ signers.length ∧
    ∀ pk ∈ signers, pk ∈ validatorKeys.map Prod.snd ∧ Signed pk digest

section Signatures
variable {P : Platform} {validatorKeys : List (Address × BlsPubKey)} {indices : List ℕ}
  {pks : List BlsPubKey} {pivotHeight chunkCount : UInt64} {stateRoot chunkRoot : H256}
  {blsQuorumSig : BlsSignature} {blsSigners : ValidatorBitmap} {quorum : ℕ}
  {Signed : BlsPubKey → H256 → Prop}

theorem signingPks_eq (h : signingPks validatorKeys indices = .ok pks) :
    pks = indices.filterMap (fun i => (validatorKeys.map Prod.snd)[i]?) := by
  induction indices generalizing pks with
  | nil =>
    cases h
    rfl
  | cons i rest ih =>
    rw [signingPks] at h
    cases hkey : validatorKeys[i]? with
    | none =>
      rw [hkey] at h
      cases h
    | some entry =>
      rw [hkey] at h
      cases hrest : signingPks validatorKeys rest with
      | error e =>
        rw [hrest] at h
        cases h
      | ok pks' =>
        rw [hrest] at h
        cases h
        simp [hkey, ih hrest]

theorem length_signingPks (h : signingPks validatorKeys indices = .ok pks) : pks.length = indices.length := by
  induction indices generalizing pks with
  | nil =>
    cases h
    rfl
  | cons i rest ih =>
    rw [signingPks] at h
    split at h
    · cases h
    · cases hrest : signingPks validatorKeys rest with
      | error e =>
        rw [hrest] at h
        cases h
      | ok pks' =>
        rw [hrest] at h
        cases h
        simp [ih hrest]

theorem filterMap_range (keys : List BlsPubKey) :
    (List.range keys.length).filterMap (fun i => keys[i]?) = keys := by
  induction keys using List.reverseRecOn with
  | nil => rfl
  | append_singleton keys pk ih =>
    have hold : (List.range keys.length).filterMap (fun i => (keys ++ [pk])[i]?) = keys := by
      refine Eq.trans (List.filterMap_congr fun i hi => ?_) ih
      exact List.getElem?_append_left (List.mem_range.mp hi)
    simp [List.range_succ, List.filterMap_append, hold]

/-- What a verified manifest comes from: an aggregate of a quorum of the keys. -/
theorem verifyManifestSignature_spec
    (h : verifyManifestSignature P pivotHeight stateRoot chunkRoot chunkCount blsQuorumSig blsSigners
      validatorKeys quorum = .ok ()) :
    ∃ pks : List BlsPubKey, pks.Sublist (validatorKeys.map Prod.snd) ∧ quorum ≤ pks.length ∧
      P.verifyAggregate blsQuorumSig pks
        (msgDigest P (manifestDigest P pivotHeight stateRoot chunkRoot chunkCount).asBytes) = true := by
  unfold verifyManifestSignature at h
  split at h
  · cases h
  · split at h
    · cases h
    · rename_i hsize
      cases hindices : blsSigners.signedIndices with
      | none => simp [hindices] at h
      | some indices =>
        cases hpks : signingPks validatorKeys indices with
        | error e =>
          simp [hindices, hpks] at h
          split at h <;> cases h
        | ok pks =>
          simp only [hindices, hpks] at h
          split at h
          · cases h
          · rename_i hquorum
            cases hverify : blsFastAggVerify P pks
                (manifestDigest P pivotHeight stateRoot chunkRoot chunkCount).asBytes blsQuorumSig with
            | error e => simp [hverify] at h
            | ok done =>
              have hsub := ValidatorBitmap.sublist_filterSet hindices
              have hall := hsub.filterMap (fun i => (validatorKeys.map Prod.snd)[i]?)
              have hlength : blsSigners.nValidators = (validatorKeys.map Prod.snd).length := by
                simpa using hsize
              rw [← signingPks_eq hpks, hlength, filterMap_range] at hall
              refine ⟨pks,hall,?_,verifyAggregate_of_blsFastAggVerify hverify⟩
              rw [length_signingPks hpks]
              omega

/-- A manifest that verifies has been signed by a quorum. -/
theorem quorumSigned_of_verify (hdistinct : (validatorKeys.map Prod.snd).Nodup)
    (hunforged : ∀ keys msg, keys.Sublist (validatorKeys.map Prod.snd) →
      P.verifyAggregate blsQuorumSig keys msg = true → ∀ pk ∈ keys, Signed pk msg)
    (h : verifyManifestSignature P pivotHeight stateRoot chunkRoot chunkCount blsQuorumSig blsSigners
      validatorKeys quorum = .ok ()) :
    QuorumSigned Signed validatorKeys quorum
      (msgDigest P (manifestDigest P pivotHeight stateRoot chunkRoot chunkCount).asBytes) := by
  obtain ⟨pks,hsub,hquorum,hverify⟩ := verifyManifestSignature_spec h
  exact ⟨pks,hdistinct.sublist hsub,hquorum,
    fun pk hpk => ⟨hsub.subset hpk,hunforged pks _ hsub hverify pk hpk⟩⟩

end Signatures

theorem mapM_eq_some_map {α β : Type} {f : α → Option β} {g : α → β} {l : List α}
    (h : ∀ a ∈ l, f a = some (g a)) : l.mapM f = some (l.map g) := by
  induction l with
  | nil => rfl
  | cons a l ih =>
    have hrest := ih (fun b hb => h b (List.mem_cons_of_mem _ hb))
    simp [h a List.mem_cons_self, hrest]

theorem verifyChunkInclusion_built (P : Platform) {chunkRoots : List H256}
    (hlength : chunkRoots.length ≤ 2 ^ 64) :
    ∃ proofs, buildInclusionProofs P chunkRoots = some proofs ∧ proofs.length = chunkRoots.length ∧
      ∀ i proof, proofs[i]? = some proof →
        verifyChunkInclusion P (UInt64.ofNat i) (chunkRoots.getD i H256.zero) proof (ChunkTree.merkleRoot P chunkRoots) = .ok () := by
  have hproof : ∀ i ∈ List.range chunkRoots.length,
      ChunkTree.merkleProof P chunkRoots i = some ((ChunkTree.merkleProof P chunkRoots i).getD ⟨[]⟩) := by
    intro i hi
    have hlt := List.mem_range.mp hi
    unfold ChunkTree.merkleProof
    rw [if_neg (by omega)]
    split <;> rfl
  refine ⟨_,mapM_eq_some_map hproof,by simp,fun i proof hi => ?_⟩
  rw [List.getElem?_map] at hi
  obtain ⟨j,hj,rfl⟩ := Option.map_eq_some_iff.mp hi
  obtain ⟨hlt,rfl⟩ := List.getElem?_eq_some_iff.mp hj
  have hbuilt := hproof i (List.mem_range.mpr (by simpa using hlt))
  have haccepted := ChunkTree.verifyProof_merkleProof hlength hbuilt
  simpa [verifyChunkInclusion] using haccepted

theorem verifyChunkInclusion_three : ∃ proofs, buildInclusionProofs .integers [1,2,3] = some proofs ∧ proofs.length = 3 ∧
    ∀ i proof, proofs[i]? = some proof → verifyChunkInclusion .integers (UInt64.ofNat i) ([1,2,3].getD i H256.zero) proof
      (ChunkTree.merkleRoot .integers [1,2,3]) = .ok () := verifyChunkInclusion_built .integers (by decide)

abbrev Leaf := H256 × List UInt8

structure StateChunk where
  id : UInt64
  startKey : H256
  endKey : H256
  stateRoot : H256
  chunkRoot : Option H256

/-- What a call on a trie stops the caller with. -/
def SyncStop.ofFault (context : String) : Fault → SyncStop
  | .error e => .error (.interrupted (context ++ Fault.display (.error e)))
  | .panic => .panic
  | .fuel => .fuel

def insertLeaves (P : Platform) (trie : MutableTrie MemoryTrieDB) :
    List Leaf → MutableTrie MemoryTrieDB × Except Fault Unit
  | [] => (trie,.ok ())
  | (key,value) :: rest =>
    match trie.insert P key.asBytes value with
    | (trie,.error e) => (trie,.error e)
    | (trie,.ok ()) => insertLeaves P trie rest

/-- The root of a new trie with the leaves, which is committed. -/
def rootOfLeaves (P : Platform) (inserting committing : String) (leaves : List Leaf) : Except SyncStop H256 :=
  match insertLeaves P (.new ⟨[]⟩) leaves with
  | (_,.error e) => .error (.ofFault inserting e)
  | (trie,.ok ()) =>
    match (trie.commit P).2 with
    | .error e => .error (.ofFault committing e)
    | .ok root => .ok root

def verifyChunk (P : Platform) (chunk : StateChunk) (leafData : List Leaf) : Except SyncStop Unit := do
  if leafData.isEmpty then throw (.error (.chunkHashMismatch chunk.id))
  if leafData.any (fun leaf => decide (leaf.1 < chunk.startKey ∨ chunk.endKey < leaf.1)) then
    throw (.error (.chunkHashMismatch chunk.id))
  match chunk.chunkRoot with
  | none => throw (.error (.interrupted
      ("chunk " ++ toString chunk.id ++ " verification requested before manifest arrived")))
  | some expected =>
    let computed ← rootOfLeaves P "trie insert: " "trie commit: " leafData
    if computed ≠ expected then throw (.error (.chunkHashMismatch chunk.id))

def verifyGlobalStateRoot (P : Platform) (pivotStateRoot : H256) (allChunks : List (List Leaf)) :
    Except SyncStop Unit := do
  let computed ← rootOfLeaves P "global trie insert: " "global trie commit: " allChunks.flatten
  if computed ≠ pivotStateRoot then
    throw (.error (.interrupted ("global state_root mismatch: computed " ++ computed.debug ++ " expected " ++
      pivotStateRoot.debug)))

section Roots
variable {P : Platform} {leaves : List Leaf} {inserting committing : String} {root : H256}

/-- The calls of `insert` for leaves. -/
def leafCalls (leaves : List Leaf) : List TrieCall :=
  TrieCall.inserts (leaves.map (fun leaf => (leaf.1.asBytes,leaf.2)))

def unionOf (leaves : List Leaf) : Contents :=
  leaves.foldl (fun m leaf => Function.update m leaf.1.asBytes (some leaf.2)) (fun _ => none)

@[simp] theorem contents_leafCalls (leaves : List Leaf) : TrieCall.contents (leafCalls leaves) = unionOf leaves := by
  rw [TrieCall.contents, leafCalls, TrieCall.inserts, List.foldl_map, List.foldl_map]
  rfl

theorem insertLeaves_ok {trie trie' : MutableTrie MemoryTrieDB}
    (h : insertLeaves P trie leaves = (trie',.ok ())) : trie' = TrieCall.after P trie (leafCalls leaves) := by
  induction leaves generalizing trie with
  | nil =>
    cases h
    rfl
  | cons leaf rest ih =>
    obtain ⟨key,value⟩ := leaf
    rw [insertLeaves] at h
    split at h
    · cases h
    · rename_i next hinsert
      have hserve : (TrieCall.serve P trie (.insert key.asBytes value)).1 = next := by
        rw [TrieCall.serve, hinsert]
      have hcalls : leafCalls ((key,value) :: rest) = .insert key.asBytes value :: leafCalls rest := rfl
      rw [ih h, hcalls, TrieCall.after, TrieCall.after, Machine.final_cons, hserve]

theorem rootOfLeaves_ok (h : rootOfLeaves P inserting committing leaves = .ok root) :
    root = (TrieCall.after P (.new (⟨[]⟩ : MemoryTrieDB)) (leafCalls leaves)).root := by
  unfold rootOfLeaves at h
  split at h
  · cases h
  · rename_i trie hinsert
    obtain ⟨db,hcommit,-⟩ := MutableTrie.persists_memory P trie
    rw [hcommit] at h
    cases h
    rw [insertLeaves_ok hinsert]

theorem verifyGlobalStateRoot_ok {pivotStateRoot : H256} {allChunks : List (List Leaf)}
    (h : verifyGlobalStateRoot P pivotStateRoot allChunks = .ok ()) :
    pivotStateRoot = (TrieCall.after P (.new (⟨[]⟩ : MemoryTrieDB)) (leafCalls allChunks.flatten)).root := by
  unfold verifyGlobalStateRoot at h
  cases hroot : rootOfLeaves P "global trie insert: " "global trie commit: " allChunks.flatten with
  | error e =>
    rw [hroot] at h
    cases h
  | ok computed =>
    rw [hroot] at h
    by_cases hsame : computed = pivotStateRoot
    · rw [← hsame]
      exact rootOfLeaves_ok hroot
    · simp [hsame, bind, Except.bind] at h

theorem contents_eq_unionOf {DB : Type} [TrieDB DB] {db : DB} {calls : List TrieCall}
    (hcommit : .commit ∈ calls → MutableTrie.Persists P DB) (hkeys : TrieCall.KeysOf 32 calls)
    (hvalues : TrieCall.NonEmptyValues calls)
    (hkeccak : Safe P {b | b ∈ TrieCall.involved P (.new db) calls ++
      TrieCall.involved P (.new (⟨[]⟩ : MemoryTrieDB)) (leafCalls leaves)})
    (hroot : (TrieCall.after P (.new db) calls).root =
      (TrieCall.after P (.new (⟨[]⟩ : MemoryTrieDB)) (leafCalls leaves)).root) :
    TrieCall.contents calls = unionOf leaves := by
  have hmap := TrieCall.after_spec hkeccak (MutableTrie.denotes_new db) hcommit hvalues
    (fun past hpast e he => List.mem_append_left _ (TrieCall.within_involved hpast e he))
  have hlength : ∀ e ∈ leaves.map (fun leaf => (leaf.1.asBytes,leaf.2)), e.1.length = 32 := by
    intro e he
    obtain ⟨leaf,-,rfl⟩ := List.mem_map.mp he
    exact H256.length_asBytes leaf.1
  have hleaves := TrieCall.after_inserts hkeccak (MutableTrie.denotes_new (⟨[]⟩ : MemoryTrieDB)) hlength
    (fun past hpast e he => List.mem_append_right _ (TrieCall.within_involved hpast e he))
  rw [← contents_leafCalls]
  exact (hmap.keys (fun k hk => TrieCall.length_of_contents hkeys hk)).contents_eq hkeccak hleaves hroot

end Roots

end ZbxChain
