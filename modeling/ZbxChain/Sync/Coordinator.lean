import ZbxChain.Foundation.Program
import ZbxChain.Sync.SnapSync
import ZbxChain.Types.Block
import Mathlib.Data.List.Chain

/-! # `zbx_sync::coordinator`: the bootstrap of a fresh node

The coordinator is a program of calls to a peer, which answers as it likes: headers in batches
of any size, any manifest and any chunks.

The header loop counts in a machine word and takes batches that may go on behind the pivot. Of
all headers it accepts, a stretch has the heights from 1 to the pivot.
-/
namespace ZbxChain

def coordSafePivot : UInt64 := 64

structure SnapshotMeta where
  pivotHeight : UInt64
  stateRoot : H256
  chunkRoots : List H256
  chunkRoot : H256
  blsQuorumSig : BlsSignature
  blsSigners : ValidatorBitmap
  deriving DecidableEq

inductive SyncCall where
  | tip
  | getHeaders (first : UInt64) (count : UInt32)
  | getSnapshotMeta (pivotHeight : UInt64)
  | getChunk (pivotHeight chunkId : UInt64)
  | reportMisbehavior (reason : String)

abbrev SyncReply : SyncCall → Type
  | .tip => Except SyncError (UInt64 × H256)
  | .getHeaders _ _ => Except SyncError (List BlockHeader)
  | .getSnapshotMeta _ => Except SyncError SnapshotMeta
  | .getChunk _ _ => Except SyncError (List Leaf)
  | .reportMisbehavior _ => Unit

/-- A part of a bootstrap. -/
abbrev SyncM (α : Type) := Framed SyncReply Unit SyncStop α

structure FastSyncOutcome where
  pivotHeight : UInt64
  pivotStateRoot : H256
  headersDownloaded : UInt64
  chunksVerified : UInt64
  deriving DecidableEq

structure SyncCoordinator where
  headersPerCall : UInt32
  validatorKeys : List (Address × BlsPubKey)
  quorum : ℕ

structure HeaderProgress where
  prevHash : Option H256
  nextFrom : UInt64
  totalHeaders : UInt64
  pivotStateRoot : Option H256

namespace SyncM

def ask (call : SyncCall) : SyncM (SyncReply call) := Framed.call call

def report (reason : String) : SyncM Unit := ask (.reportMisbehavior reason)

/-- The operator `?` on a reply. -/
def orStop {α : Type} : Except SyncError α → SyncM α
  | .ok a => pure a
  | .error e => throw (.error e)

/-- An error is reported before it is returned. -/
def orReport {α : Type} (reason : String) : Except SyncStop α → SyncM α
  | .ok a => pure a
  | .error (.error e) => do
    report reason
    throw (.error e)
  | .error stop => throw stop

end SyncM

namespace SyncCoordinator
open SyncM

/-- The assertion of the constructors. -/
def Valid (validatorKeys : List (Address × BlsPubKey)) (quorum : ℕ) : Prop :=
  validatorKeys ≠ [] ∧ 0 < quorum ∧ quorum ≤ validatorKeys.length

instance (validatorKeys : List (Address × BlsPubKey)) (quorum : ℕ) : Decidable (Valid validatorKeys quorum) :=
  inferInstanceAs (Decidable (_ ∧ _))

/-- `new`; `none` where the assertion fails. -/
def new (validatorKeys : List (Address × BlsPubKey)) (quorum : ℕ) : Option SyncCoordinator :=
  if Valid validatorKeys quorum then some ⟨256,validatorKeys,quorum⟩ else none

def withBatch (c : SyncCoordinator) (n : UInt32) : SyncCoordinator := { c with headersPerCall := max n 1 }

def updateValidatorKeys (c : SyncCoordinator) (validatorKeys : List (Address × BlsPubKey)) (quorum : ℕ) :
    Option SyncCoordinator :=
  if Valid validatorKeys quorum then some { c with validatorKeys := validatorKeys, quorum := quorum } else none

def withValidatorSet (c : SyncCoordinator) (validatorKeys : List (Address × BlsPubKey)) (quorum : ℕ) :
    Option SyncCoordinator :=
  if Valid validatorKeys quorum then some { c with validatorKeys := validatorKeys, quorum := quorum } else none

/-- The coordinators that a node can build. -/
inductive Built : SyncCoordinator → Prop
  | new {validatorKeys : List (Address × BlsPubKey)} {quorum : ℕ} {c : SyncCoordinator}
      (h : SyncCoordinator.new validatorKeys quorum = some c) : Built c
  | withBatch {c : SyncCoordinator} (hc : Built c) (n : UInt32) : Built (c.withBatch n)
  | updateValidatorKeys {c c' : SyncCoordinator} {validatorKeys : List (Address × BlsPubKey)} {quorum : ℕ}
      (hc : Built c) (h : c.updateValidatorKeys validatorKeys quorum = some c') : Built c'
  | withValidatorSet {c c' : SyncCoordinator} {validatorKeys : List (Address × BlsPubKey)} {quorum : ℕ}
      (hc : Built c) (h : c.withValidatorSet validatorKeys quorum = some c') : Built c'

theorem Built.valid {c : SyncCoordinator} (hc : c.Built) : Valid c.validatorKeys c.quorum := by
  induction hc with
  | new h =>
    unfold SyncCoordinator.new at h
    split_ifs at h with hvalid
    cases h
    exact hvalid
  | withBatch hc n ih => exact ih
  | updateValidatorKeys hc h ih =>
    unfold SyncCoordinator.updateValidatorKeys at h
    split_ifs at h with hvalid
    cases h
    exact hvalid
  | withValidatorSet hc h ih =>
    unfold SyncCoordinator.withValidatorSet at h
    split_ifs at h with hvalid
    cases h
    exact hvalid

section Run
variable (P : Platform) (c : SyncCoordinator)

/-- One header of a batch; the counts wrap, as in a release build. -/
def acceptHeader (pivotHeight : UInt64) (progress : HeaderProgress) (h : BlockHeader) :
    Except SyncError HeaderProgress :=
  if h.number ≠ progress.nextFrom then
    .error (.invalidBlock h.number ("expected height " ++ toString progress.nextFrom))
  else if progress.prevHash.any (fun prev => decide (h.parentHash ≠ prev)) then
    .error (.invalidBlock h.number "parent hash break")
  else
    .ok {
      prevHash := some (h.hash P)
      nextFrom := progress.nextFrom + 1
      totalHeaders := progress.totalHeaders + 1
      pivotStateRoot := if h.number = pivotHeight then some h.stateRoot else progress.pivotStateRoot }

/-- The headers that are asked for in one call; the cast keeps the low bits. -/
def want (pivotHeight nextFrom : UInt64) : UInt32 := min (pivotHeight - nextFrom + 1).toUInt32 c.headersPerCall

def downloadHeaders (pivotHeight : UInt64) : ℕ → HeaderProgress → SyncM HeaderProgress
  | 0, _ => throw .fuel
  | fuel + 1, progress =>
    if progress.nextFrom ≤ pivotHeight then do
      let batch ← orStop (← ask (.getHeaders progress.nextFrom (c.want pivotHeight progress.nextFrom)))
      if batch.isEmpty then
        throw (.error (.interrupted ("peer returned 0 headers from " ++ toString progress.nextFrom)))
      else do
        let progress ← orStop (batch.foldlM (acceptHeader P pivotHeight) progress)
        downloadHeaders pivotHeight fuel progress
    else pure progress

def checkManifest (pivotHeight : UInt64) (pivotStateRoot : H256) (manifest : SnapshotMeta) : SyncM Unit := do
  if manifest.pivotHeight ≠ pivotHeight then
    throw (.error (.interrupted ("manifest pivot mismatch: " ++ toString manifest.pivotHeight ++ " vs " ++
      toString pivotHeight)))
  else if manifest.stateRoot ≠ pivotStateRoot then
    throw (.error (.interrupted "manifest state_root != pivot header state_root"))
  else if manifest.chunkRoots.isEmpty then throw (.error (.interrupted "manifest has zero chunks"))
  else do
    let localChunkRoot := ChunkTree.merkleRoot P manifest.chunkRoots
    if localChunkRoot ≠ manifest.chunkRoot then do
      report "manifest_chunk_root_mismatch"
      throw (.error (.badManifestSignature ("manifest.chunk_root " ++ manifest.chunkRoot.debug ++
        " != merkle_root(chunk_roots) " ++ localChunkRoot.debug)))
    else if c.validatorKeys.isEmpty then pure ()
    else orReport "bad_manifest_signature" (verifyManifestSignature P manifest.pivotHeight
      manifest.stateRoot manifest.chunkRoot (UInt64.ofNat manifest.chunkRoots.length)
      manifest.blsQuorumSig manifest.blsSigners c.validatorKeys c.quorum)

/-- One turn of the chunk loop. -/
def fetchChunk (pivotHeight : UInt64) (pivotStateRoot : H256) (manifest : SnapshotMeta)
    (inclusionProofs : List ChunkTree.MerkleProof) (idx : ℕ) (chunkRoot : H256) : SyncM (List Leaf) := do
  let chunkId := UInt64.ofNat idx
  match inclusionProofs[idx]? with
  | none => throw .panic
  | some proof =>
    orReport "chunk_inclusion_proof_failed"
      ((verifyChunkInclusion P chunkId chunkRoot proof manifest.chunkRoot).mapError SyncStop.error)
    let reply : Except SyncError (List Leaf) ← ask (.getChunk pivotHeight chunkId)
    match reply with
    | .ok [] =>
      report "chunk_missing"
      throw (.error (.chunkRootMismatch chunkId))
    | .ok leaves =>
      orReport "chunk_payload_tampered" (verifyChunk P {
        id := chunkId
        startKey := H256.zero
        endKey := BitVec.allOnes 256
        stateRoot := pivotStateRoot
        chunkRoot := some chunkRoot } leaves)
      pure leaves
    | .error e =>
      report "chunk_fetch_error"
      throw (.error e)

def fetchChunks (pivotHeight : UInt64) (pivotStateRoot : H256) (manifest : SnapshotMeta)
    (inclusionProofs : List ChunkTree.MerkleProof) :
    ℕ → List H256 → List (List Leaf) → UInt64 → SyncM (List (List Leaf) × UInt64)
  | _, [], allLeaves, verified => pure (allLeaves,verified)
  | idx, chunkRoot :: rest, allLeaves, verified => do
    let leaves ← fetchChunk P pivotHeight pivotStateRoot manifest inclusionProofs idx chunkRoot
    fetchChunks pivotHeight pivotStateRoot manifest inclusionProofs (idx + 1) rest (allLeaves ++ [leaves])
      (verified + 1)

def run (fuel : ℕ) : SyncM FastSyncOutcome := do
  let (tip,_) ← orStop (← ask .tip)
  if tip < coordSafePivot then throw (.error (.pivotNotFinalized tip))
  else do
    let pivotHeight := tip - coordSafePivot
    let progress ← c.downloadHeaders P pivotHeight fuel ⟨none,1,0,none⟩
    match progress.pivotStateRoot with
    | none => throw (.error (.interrupted "pivot header missing from responses"))
    | some pivotStateRoot => do
      let manifest ← orStop (← ask (.getSnapshotMeta pivotHeight))
      c.checkManifest P pivotHeight pivotStateRoot manifest
      match buildInclusionProofs P manifest.chunkRoots with
      | none => throw .panic
      | some inclusionProofs => do
        let (allLeaves,verified) ← fetchChunks P pivotHeight pivotStateRoot manifest inclusionProofs 0
          manifest.chunkRoots [] 0
        orReport "global_state_root_mismatch" (verifyGlobalStateRoot P pivotStateRoot allLeaves)
        pure ⟨pivotHeight,pivotStateRoot,progress.totalHeaders,verified⟩

end Run

end SyncCoordinator

def BlockHeader.Links (P : Platform) (h h' : BlockHeader) : Prop := h'.parentHash = h.hash P

structure ChainTo (P : Platform) (pivotHeight : UInt64) (stateRoot : H256) (headers : List BlockHeader) : Prop where
  heights : headers.map BlockHeader.number = (List.range pivotHeight.toNat).map (fun i => UInt64.ofNat (i + 1))
  linked : headers.IsChain (BlockHeader.Links P)
  last : headers.getLast?.map BlockHeader.stateRoot = some stateRoot

namespace HeaderProgress

/-- The locals of the loop after the headers it has accepted. -/
structure Tracks (P : Platform) (pivotHeight : UInt64) (progress : HeaderProgress)
    (accepted : List BlockHeader) : Prop where
  numbers : ∀ (i : ℕ) (h : BlockHeader), accepted[i]? = some h → h.number = UInt64.ofNat (i + 1)
  linked : accepted.IsChain (BlockHeader.Links P)
  prevHash : progress.prevHash = accepted.getLast?.map (BlockHeader.hash P)
  nextFrom : progress.nextFrom = UInt64.ofNat (accepted.length + 1)
  pivot : ∀ root, progress.pivotStateRoot = some root →
    ∃ (i : ℕ) (h : BlockHeader), accepted[i]? = some h ∧ h.number = pivotHeight ∧ h.stateRoot = root

variable {P : Platform} {pivotHeight : UInt64} {progress next : HeaderProgress}
  {accepted batch : List BlockHeader} {h : BlockHeader}

theorem tracks_start : Tracks P pivotHeight ⟨none,1,0,none⟩ [] where
  numbers := by simp
  linked := .nil
  prevHash := rfl
  nextFrom := rfl
  pivot := by simp

theorem acceptHeader_ok (haccept : SyncCoordinator.acceptHeader P pivotHeight progress h = .ok next) :
    h.number = progress.nextFrom ∧ (∀ prev ∈ progress.prevHash, h.parentHash = prev) ∧
      next.prevHash = some (h.hash P) ∧ next.nextFrom = progress.nextFrom + 1 ∧
      next.pivotStateRoot = if h.number = pivotHeight then some h.stateRoot else progress.pivotStateRoot := by
  unfold SyncCoordinator.acceptHeader at haccept
  split at haccept
  · cases haccept
  · rename_i hnumber
    split at haccept
    · cases haccept
    · rename_i hparent
      cases haccept
      refine ⟨not_not.mp hnumber,fun prev hprev => ?_,rfl,rfl,rfl⟩
      simpa [Option.mem_def.mp hprev] using hparent

/-- An accepted header extends the stretch that is tracked. -/
theorem Tracks.accept (ht : Tracks P pivotHeight progress accepted)
    (haccept : SyncCoordinator.acceptHeader P pivotHeight progress h = .ok next) :
    Tracks P pivotHeight next (accepted ++ [h]) := by
  obtain ⟨hnumber,hparent,hprev,hfrom,hpivot⟩ := acceptHeader_ok haccept
  refine ⟨fun i g hi => ?_,?_,by simp [hprev],by simp [hfrom, ht.nextFrom],fun root hroot => ?_⟩
  · rw [List.getElem?_append] at hi
    split at hi
    · exact ht.numbers i g hi
    · rename_i hlen
      obtain ⟨hzero,rfl⟩ : i - accepted.length = 0 ∧ h = g := by simpa [List.getElem?_singleton] using hi
      have hi' : i = accepted.length := by omega
      rw [hnumber, ht.nextFrom, hi']
  · refine List.isChain_append.mpr ⟨ht.linked,.singleton h,?_⟩
    intro last hlast g hg
    cases hg
    refine hparent _ ?_
    simp [ht.prevHash, Option.mem_def.mp hlast]
  · rw [hpivot] at hroot
    split at hroot
    · rename_i heq
      exact ⟨accepted.length,h,by simp,heq,Option.some.inj hroot⟩
    · obtain ⟨i,g,hi,hg⟩ := ht.pivot root hroot
      have hlt := (List.getElem?_eq_some_iff.mp hi).1
      exact ⟨i,g,by rw [List.getElem?_append_left hlt, hi],hg⟩

theorem Tracks.acceptBatch (ht : Tracks P pivotHeight progress accepted)
    (haccept : batch.foldlM (SyncCoordinator.acceptHeader P pivotHeight) progress = .ok next) :
    Tracks P pivotHeight next (accepted ++ batch) := by
  induction batch generalizing progress accepted with
  | nil =>
    cases haccept
    simpa using ht
  | cons h rest ih =>
    rw [List.foldlM_cons] at haccept
    cases hone : SyncCoordinator.acceptHeader P pivotHeight progress h with
    | error e =>
      rw [hone] at haccept
      cases haccept
    | ok middle =>
      rw [hone] at haccept
      have hrest := ih (ht.accept hone) haccept
      rwa [List.append_assoc, List.singleton_append] at hrest

theorem Tracks.chainTo (ht : Tracks P pivotHeight progress accepted) (hpivot : pivotHeight ≠ 0) {root : H256}
    (hroot : progress.pivotStateRoot = some root) :
    ∃ before headers after, accepted = before ++ headers ++ after ∧ ChainTo P pivotHeight root headers ∧
      (accepted.length < 2 ^ 64 → before = []) := by
  obtain ⟨i,h,hi,hnumber,hstate⟩ := ht.pivot root hroot
  have hcount : (i + 1) % 2 ^ 64 = pivotHeight.toNat := by
    rw [← hnumber, ht.numbers i h hi, UInt64.toNat_ofNat']
  have hpos : pivotHeight.toNat ≠ 0 := fun hzero => hpivot (UInt64.toNat_inj.mp hzero)
  have hlt := (List.getElem?_eq_some_iff.mp hi).1
  obtain ⟨k,hk⟩ : ∃ k, i + 1 = k + pivotHeight.toNat := ⟨i + 1 - pivotHeight.toNat,by omega⟩
  have hwhole : k % 2 ^ 64 = 0 := by omega
  have hlength : ((accepted.drop k).take pivotHeight.toNat).length = pivotHeight.toNat := by
    simp
    omega
  refine ⟨accepted.take k,(accepted.drop k).take pivotHeight.toNat,(accepted.drop k).drop pivotHeight.toNat,
    by simp [List.append_assoc],⟨?_,(ht.linked.drop k).take _,?_⟩,fun hfew => ?_⟩
  · refine List.ext_getElem? fun j => ?_
    by_cases hj : j < pivotHeight.toNat
    · obtain ⟨g,hg⟩ : ∃ g, accepted[k + j]? = some g := ⟨_,List.getElem?_eq_getElem (by omega)⟩
      have hheight : UInt64.ofNat (k + j + 1) = UInt64.ofNat (j + 1) := by
        apply UInt64.toNat_inj.mp
        rw [UInt64.toNat_ofNat', UInt64.toNat_ofNat']
        omega
      simp [hj, hg, ht.numbers _ g hg, hheight]
    · rw [List.getElem?_eq_none (by simp; omega), List.getElem?_eq_none (by simp; omega)]
  · have hlast : pivotHeight.toNat - 1 < pivotHeight.toNat := by omega
    have hindex : k + (pivotHeight.toNat - 1) = i := by omega
    rw [List.getLast?_eq_getElem?, hlength, List.getElem?_take, if_pos hlast, List.getElem?_drop, hindex, hi]
    exact congrArg some hstate
  · have hzero : k = 0 := by omega
    simp [hzero]

end HeaderProgress

end ZbxChain
