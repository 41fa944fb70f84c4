import ZbxChain.Sync.Coordinator

/-! # A bootstrap accepts only the certified state

The peer is any handler of the calls. What the node has heard from it is read off the
recorded replies.
-/
namespace ZbxChain

/-- Replies of a peer, each with its call. -/
abbrev Replies := List (Σ call, SyncReply call)

namespace Replies

def headersOf : (Σ call, SyncReply call) → List BlockHeader
  | ⟨.getHeaders _ _,.ok batch⟩ => batch
  | _ => []

def manifestsOf : (Σ call, SyncReply call) → List SnapshotMeta
  | ⟨.getSnapshotMeta _,.ok manifest⟩ => [manifest]
  | _ => []

def chunksOf : (Σ call, SyncReply call) → List (List Leaf)
  | ⟨.getChunk _ _,.ok leaves⟩ => [leaves]
  | _ => []

def headers (replies : Replies) : List BlockHeader := replies.flatMap headersOf
def manifests (replies : Replies) : List SnapshotMeta := replies.flatMap manifestsOf
def chunks (replies : Replies) : List (List Leaf) := replies.flatMap chunksOf

variable (replies : Replies) (reply : Σ call, SyncReply call)

@[simp] theorem headers_snoc : headers (replies ++ [reply]) = replies.headers ++ headersOf reply := by simp [headers]
@[simp] theorem manifests_snoc : manifests (replies ++ [reply]) = replies.manifests ++ manifestsOf reply := by
  simp [manifests]
@[simp] theorem chunks_snoc : chunks (replies ++ [reply]) = replies.chunks ++ chunksOf reply := by simp [chunks]

end Replies

section Parts
variable {σ : Type} {peer : Program.Handler SyncReply σ} {P : Platform} {c : SyncCoordinator}
  {s : σ × Replies} {pivotHeight : UInt64} {pivotStateRoot : H256} {manifest : SnapshotMeta}

def Learns {α : Type} (peer : Program.Handler SyncReply σ) (p : SyncM α) (s : σ × Replies)
    (Q : α → σ × Replies → Prop) : Prop :=
  Framed.Yields (Program.recorded peer) p () s (fun a _ s' => Q a s')

section Rules
variable {α β : Type} {p : SyncM α} {q : α → SyncM β} {Q Q' : α → σ × Replies → Prop}

theorem Learns.mono (hp : Learns peer p s Q) (hQ : ∀ a s', Q a s' → Q' a s') : Learns peer p s Q' :=
  Framed.Yields.mono hp (fun a _ s' => hQ a s')

theorem learns_bind {Q : β → σ × Replies → Prop} :
    Learns peer (p >>= q) s Q ↔ Learns peer p s (fun a s' => Learns peer (q a) s' Q) := Framed.yields_bind

@[simp] theorem learns_pure {a : α} : Learns peer (pure a) s Q ↔ Q a s := Framed.yields_pure

@[simp] theorem learns_throw {stop : SyncStop} : Learns peer (throw stop : SyncM α) s Q := Framed.yields_throw

theorem learns_ask {call : SyncCall} {Q : SyncReply call → σ × Replies → Prop} :
    Learns peer (SyncM.ask call) s Q ↔
      Q (peer call s.1).1 ((peer call s.1).2,s.2 ++ [⟨call,(peer call s.1).1⟩]) := Framed.yields_call

@[simp] theorem learns_report_throw {reason : String} {stop : SyncStop} :
    Learns peer (do SyncM.report reason; throw stop : SyncM α) s Q := by
  rw [learns_bind]
  refine learns_ask.mpr ?_
  simp

@[simp] theorem learns_orStop {r : Except SyncError α} :
    Learns peer (SyncM.orStop r) s Q ↔ ∀ a, r = .ok a → Q a s := by
  cases r with
  | ok a => simp [SyncM.orStop]
  | error e => simp [SyncM.orStop]

@[simp] theorem learns_orReport {reason : String} {r : Except SyncStop α} :
    Learns peer (SyncM.orReport reason r) s Q ↔ ∀ a, r = .ok a → Q a s := by
  rcases r with (e | _ | _) | a
  · simp [SyncM.orReport]
  · simp [SyncM.orReport]
  · simp [SyncM.orReport]
  · simp [SyncM.orReport]

end Rules

theorem downloadHeaders_learns {fuel : ℕ} {progress : HeaderProgress}
    (ht : progress.Tracks P pivotHeight s.2.headers) :
    Learns peer (c.downloadHeaders P pivotHeight fuel progress) s (fun next s' =>
      next.Tracks P pivotHeight s'.2.headers ∧ s'.2.manifests = s.2.manifests ∧ s'.2.chunks = s.2.chunks) := by
  induction fuel generalizing progress s with
  | zero => simp [SyncCoordinator.downloadHeaders]
  | succ fuel ih =>
    rw [SyncCoordinator.downloadHeaders]
    split
    · rw [learns_bind]
      refine learns_ask.mpr ?_
      simp only [learns_bind, learns_orStop]
      intro batch hreply
      split
      · simp
      · simp only [learns_bind, learns_orStop]
        intro next haccept
        have hbatch := ht.acceptBatch haccept
        refine Learns.mono (ih ?_) ?_
        · simpa [hreply, Replies.headersOf] using hbatch
        · simp [hreply, Replies.manifestsOf, Replies.chunksOf]
    · simp [ht]

theorem downloadHeaders_behind {fuel : ℕ} {progress : HeaderProgress} (hbehind : ¬ progress.nextFrom ≤ pivotHeight) :
    Learns peer (c.downloadHeaders P pivotHeight fuel progress) s (fun next _ => next = progress) := by
  cases fuel with
  | zero => simp [SyncCoordinator.downloadHeaders]
  | succ fuel =>
    rw [SyncCoordinator.downloadHeaders, if_neg hbehind]
    simp

theorem checkManifest_learns (hcommittee : c.validatorKeys ≠ []) :
    Learns peer (c.checkManifest P pivotHeight pivotStateRoot manifest) s (fun _ s' => s' = s ∧
      manifest.pivotHeight = pivotHeight ∧ manifest.stateRoot = pivotStateRoot ∧
      verifyManifestSignature P manifest.pivotHeight manifest.stateRoot manifest.chunkRoot
        (UInt64.ofNat manifest.chunkRoots.length) manifest.blsQuorumSig manifest.blsSigners c.validatorKeys
        c.quorum = .ok ()) := by
  rw [SyncCoordinator.checkManifest]
  split
  · simp
  · split
    · simp
    · split
      · simp
      · dsimp only
        split
        · simp
        · rw [if_neg (by simpa using hcommittee)]
          simp_all

theorem fetchChunk_learns {proofs : List ChunkTree.MerkleProof} {idx : ℕ} {chunkRoot : H256} :
    Learns peer (SyncCoordinator.fetchChunk P pivotHeight pivotStateRoot manifest proofs idx chunkRoot) s
      (fun leaves s' => s'.2.headers = s.2.headers ∧ s'.2.manifests = s.2.manifests ∧
        s'.2.chunks = s.2.chunks ++ [leaves]) := by
  rw [SyncCoordinator.fetchChunk]
  split
  · simp
  · simp only [learns_bind, learns_orReport]
    intro _ _
    refine learns_ask.mpr ?_
    split
    · simp
    · rename_i leaves _ hreply
      simp only [learns_bind, learns_orReport]
      intro _ _
      simp [hreply, Replies.headersOf, Replies.manifestsOf, Replies.chunksOf]
    · simp

theorem fetchChunks_learns {proofs : List ChunkTree.MerkleProof} {idx : ℕ} {chunkRoots : List H256}
    {allLeaves : List (List Leaf)} {verified : UInt64} :
    Learns peer (SyncCoordinator.fetchChunks P pivotHeight pivotStateRoot manifest proofs idx chunkRoots allLeaves
        verified) s (fun result s' => s'.2.headers = s.2.headers ∧ s'.2.manifests = s.2.manifests ∧
      ∃ fetched, s'.2.chunks = s.2.chunks ++ fetched ∧ result.1 = allLeaves ++ fetched) := by
  induction chunkRoots generalizing idx allLeaves verified s with
  | nil => simp [SyncCoordinator.fetchChunks]
  | cons chunkRoot rest ih =>
    rw [SyncCoordinator.fetchChunks, learns_bind]
    refine fetchChunk_learns.mono ?_
    rintro leaves s₁ ⟨hheaders,hmanifests,hchunks⟩
    refine ih.mono ?_
    rintro result s₂ ⟨hheaders',hmanifests',fetched,hchunks',hresult⟩
    refine ⟨hheaders'.trans hheaders,hmanifests'.trans hmanifests,leaves :: fetched,?_,?_⟩
    · simp [hchunks', hchunks]
    · simp [hresult]

structure Learnt (P : Platform) (c : SyncCoordinator) (outcome : FastSyncOutcome) (replies : Replies) : Prop where
  pivot : outcome.pivotHeight ≠ 0
  headers : ∃ progress : HeaderProgress, progress.Tracks P outcome.pivotHeight replies.headers ∧
    progress.pivotStateRoot = some outcome.pivotStateRoot
  manifest : ∃ manifest ∈ replies.manifests, verifyManifestSignature P outcome.pivotHeight
    outcome.pivotStateRoot manifest.chunkRoot (UInt64.ofNat manifest.chunkRoots.length)
    manifest.blsQuorumSig manifest.blsSigners c.validatorKeys c.quorum = .ok ()
  chunks : verifyGlobalStateRoot P outcome.pivotStateRoot replies.chunks = .ok ()

theorem run_learns (hcommittee : c.validatorKeys ≠ []) {fuel : ℕ} {start : σ} :
    Learns peer (c.run P fuel) (start,[]) (fun outcome s' => Learnt P c outcome s'.2) := by
  rw [SyncCoordinator.run, learns_bind]
  refine learns_ask.mpr ?_
  simp only [learns_bind, learns_orStop]
  rintro ⟨tip,tipHash⟩ htip
  split
  · simp
  · simp only [learns_bind]
    by_cases hzero : tip - coordSafePivot = 0
    · refine (downloadHeaders_behind (by simp [hzero])).mono ?_
      rintro progress s₁ rfl
      simp
    · refine (downloadHeaders_learns ?_).mono ?_
      · simpa [htip, Replies.headers, Replies.headersOf] using HeaderProgress.tracks_start
      · rintro progress s₁ ⟨ht,hmanifests,hchunks⟩
        split
        · simp
        · rename_i pivotStateRoot hroot
          rw [learns_bind]
          refine learns_ask.mpr ?_
          simp only [learns_bind, learns_orStop]
          intro manifest hmanifest
          refine (checkManifest_learns hcommittee).mono ?_
          rintro - s₂ ⟨rfl,hpivot,hstate,hverify⟩
          split
          · simp
          · simp only [learns_bind]
            refine fetchChunks_learns.mono ?_
            rintro ⟨allLeaves,verified⟩ s₃ ⟨hheaders,hmanifests',fetched,hchunks',hall⟩
            simp only [learns_orReport, learns_pure]
            intro _ hglobal
            have hnone : s₁.2.chunks = [] := hchunks
            simp [Replies.headersOf] at hheaders
            simp [hmanifest, Replies.manifestsOf] at hmanifests'
            simp [hnone, Replies.chunksOf] at hchunks'
            simp at hall
            refine ⟨hzero,⟨progress,by rwa [hheaders],hroot⟩,⟨manifest,by simp [hmanifests'],?_⟩,?_⟩
            · rwa [hpivot, hstate] at hverify
            · rwa [hchunks', ← hall]

end Parts

namespace SyncCoordinator
variable {σ : Type}

def bootstrap (P : Platform) (c : SyncCoordinator) (peer : Program.Handler SyncReply σ) (fuel : ℕ) (start : σ) :
    Except SyncStop FastSyncOutcome × Replies :=
  let ended := (c.run P fuel ()).run (Program.recorded peer) (start,[])
  (ended.1.1,ended.2.2)

/-- Nothing about the chain or its state can be omitted, added, moved or altered by a peer that
cannot forge the quorum's signature. -/
theorem bootstrap_certified (P : Platform) {c : SyncCoordinator} (hbuilt : c.Built)
    (hdistinct : (c.validatorKeys.map Prod.snd).Nodup) (peer : Program.Handler SyncReply σ) (fuel : ℕ) (start : σ)
    {outcome : FastSyncOutcome} {replies : Replies} (hok : c.bootstrap P peer fuel start = (.ok outcome,replies))
    {Signed : BlsPubKey → H256 → Prop}
    (hunforged : ∀ manifest ∈ replies.manifests, ∀ keys msg, keys.Sublist (c.validatorKeys.map Prod.snd) →
      P.verifyAggregate manifest.blsQuorumSig keys msg = true → ∀ pk ∈ keys, Signed pk msg) :
    (∃ chunkRoot chunkCount, QuorumSigned Signed c.validatorKeys c.quorum
      (msgDigest P (manifestDigest P outcome.pivotHeight outcome.pivotStateRoot chunkRoot chunkCount).asBytes)) ∧
    (∃ before headers after, replies.headers = before ++ headers ++ after ∧
      ChainTo P outcome.pivotHeight outcome.pivotStateRoot headers ∧
      (replies.headers.length < 2 ^ 64 → before = [])) ∧
    ∀ {DB : Type} [TrieDB DB] (db : DB) (calls : List TrieCall),
      (.commit ∈ calls → MutableTrie.Persists P DB) → TrieCall.KeysOf 32 calls → TrieCall.NonEmptyValues calls →
      Safe P {b | b ∈ TrieCall.involved P (.new db) calls ++
        TrieCall.involved P (.new (⟨[]⟩ : MemoryTrieDB)) (leafCalls replies.chunks.flatten)} →
      (TrieCall.after P (.new db) calls).root = outcome.pivotStateRoot →
      TrieCall.contents calls = unionOf replies.chunks.flatten := by
  have hlearnt : Learnt P c outcome replies := by
    obtain ⟨hanswer,hreplies⟩ := Prod.mk.inj hok
    rw [← hreplies]
    exact run_learns hbuilt.valid.1 outcome hanswer
  obtain ⟨progress,ht,hroot⟩ := hlearnt.headers
  obtain ⟨manifest,hmanifest,hverify⟩ := hlearnt.manifest
  refine ⟨⟨_,_,quorumSigned_of_verify hdistinct (hunforged manifest hmanifest) hverify⟩,
    ht.chainTo hlearnt.pivot hroot,?_⟩
  intro DB _ db calls hcommit hkeys hvalues hkeccak hsame
  exact contents_eq_unionOf hcommit hkeys hvalues hkeccak (hsame.trans (verifyGlobalStateRoot_ok hlearnt.chunks))

def leavesRoot (leaves : List Leaf) : H256 :=
  (TrieCall.after .integersEmptyRoot (.new (⟨[]⟩ : MemoryTrieDB)) (leafCalls leaves)).root

/-- A state of two words, in two chunks, and the header of its block behind that of block 1. -/
def demoChunks : List (List Leaf) := [[(5,[7])],[(6,[8])]]

def demoRoot : H256 := leavesRoot demoChunks.flatten

def demoHeader (number : UInt64) (parentHash stateRoot : H256) : BlockHeader :=
  ⟨parentHash,0,0,stateRoot,0,0,0,0,number,0,0,0,[],0,0,0,[],0,none⟩

def demoHeaders : List BlockHeader :=
  [demoHeader 1 0 0,demoHeader 2 ((demoHeader 1 0 0).hash .integersEmptyRoot) demoRoot]

def demoKey : BlsPubKey := Platform.integersEmptyRoot.toPubkey 1

def demoChunkRoots : List H256 := demoChunks.map leavesRoot

def demoChunkRoot : H256 := ChunkTree.merkleRoot .integersEmptyRoot demoChunkRoots

def demoDigest : H256 := msgDigest .integersEmptyRoot (manifestDigest .integersEmptyRoot 2 demoRoot demoChunkRoot 2).asBytes

def demoManifest : SnapshotMeta :=
  ⟨2,demoRoot,demoChunkRoots,demoChunkRoot,Platform.integersEmptyRoot.sign 1 demoDigest,⟨[1],1⟩⟩

def demoPeer : Program.Handler SyncReply Unit
  | .tip, _ => (.ok (66,0),())
  | .getHeaders _ _, _ => (.ok demoHeaders,())
  | .getSnapshotMeta _, _ => (.ok demoManifest,())
  | .getChunk _ chunk, _ => (.ok (demoChunks.getD chunk.toNat []),())
  | .reportMisbehavior _, _ => ((),())

def demoCoordinator : SyncCoordinator := ⟨256,[(1,demoKey)],1⟩

def demoReplies : Replies := (demoCoordinator.bootstrap .integersEmptyRoot demoPeer 2 ()).2

/-- A signature of its own that the key verifies. -/
def demoSigned (pk : BlsPubKey) (msg : H256) : Prop :=
  Platform.integersEmptyRoot.verifyAggregate demoManifest.blsQuorumSig [pk] msg = true

/-- Two headers and two chunks from a peer that the only validator has signed for. -/
theorem bootstrap_certified_two_chunks :
    (∃ chunkRoot chunkCount, QuorumSigned demoSigned [(1,demoKey)] 1
      (msgDigest .integersEmptyRoot (manifestDigest .integersEmptyRoot 2 demoRoot chunkRoot chunkCount).asBytes)) ∧
      TrieCall.contents (leafCalls demoChunks.flatten) = unionOf demoReplies.chunks.flatten := by
  have hnew : SyncCoordinator.new [(1,demoKey)] 1 = some demoCoordinator :=
    if_pos ⟨List.cons_ne_nil _ _,Nat.zero_lt_one,le_rfl⟩
  have hok : demoCoordinator.bootstrap .integersEmptyRoot demoPeer 2 () = (.ok ⟨2,demoRoot,2,2⟩,demoReplies) :=
    Prod.ext (by decide +kernel) (by simp only [demoReplies])
  have hmanifests : demoReplies.manifests = [demoManifest] := by decide +kernel
  have hunforged : ∀ manifest ∈ demoReplies.manifests, ∀ keys msg,
      keys.Sublist (demoCoordinator.validatorKeys.map Prod.snd) →
      Platform.integersEmptyRoot.verifyAggregate manifest.blsQuorumSig keys msg = true →
        ∀ pk ∈ keys, demoSigned pk msg := by
    intro manifest hmanifest keys msg hkeys hverify pk hpk
    rw [hmanifests, List.mem_singleton] at hmanifest
    subst hmanifest
    have hone : keys = [] ∨ keys = [demoKey] := by
      simpa [demoCoordinator, List.sublist_cons_iff] using hkeys
    rcases hone with rfl | rfl
    · simp at hpk
    · rw [List.mem_singleton] at hpk
      rwa [← hpk] at hverify
  obtain ⟨hsigned,-,hmap⟩ := bootstrap_certified .integersEmptyRoot (.new hnew) (by simp [demoCoordinator])
    demoPeer 2 () hok hunforged
  refine ⟨hsigned,hmap (⟨[]⟩ : MemoryTrieDB) (leafCalls demoChunks.flatten)
    (fun _ => MutableTrie.persists_memory _) ?_ ?_ ?_ rfl⟩
  · intro key value hmem
    simp [leafCalls, TrieCall.inserts, demoChunks] at hmem
    rcases hmem with ⟨rfl,-⟩ | ⟨rfl,-⟩
    · exact H256.length_asBytes 5
    · exact H256.length_asBytes 6
  · intro key value hmem
    simp [leafCalls, TrieCall.inserts, demoChunks] at hmem
    rcases hmem with ⟨-,rfl⟩ | ⟨-,rfl⟩
    · exact List.cons_ne_nil _ _
    · exact List.cons_ne_nil _ _
  · exact safe_of_list (by decide +kernel) (by decide +kernel) (by decide +kernel) (by decide +kernel)

end SyncCoordinator

end ZbxChain
