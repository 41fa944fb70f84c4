import ZbxChain.Pruner.ReachedTries

/-! # A run of the pruner by itself

Without commits beside it, `run_once` goes on to the sweep unless the walk meets a node that is
not there. The trie layer never stores the empty node, but the walk looks for it under the root of
every empty trie.
-/
namespace ZbxChain
open Marking PruneState

/-- A checkpoint's account trie, as `compute_state_root_with_db` builds it, is in the column, and
so is every storage trie that a leaf names, if it is not empty. -/
structure CheckpointComplete (P : Platform) (E : Set (List UInt8)) (trieNodes : Table H256 (List UInt8))
    (root : H256) : Prop where
  built : ∃ (accounts : Accounts) (storage : Storage) (db : ZbxDbTrieAdapter),
    (∀ b ∈ stateHashedWithDb P accounts storage db, b ∈ E) ∧
      (computeStateRootWithDb P accounts storage db).2 = .ok root
  complete : ∃ u, HoldsTrie P trieNodes root u ∧ ∀ sr, Names u sr →
    sr = H256.zero ∨ sr = emptyStorageRoot ∨ ∃ w, HoldsTrie P trieNodes sr w ∧ SlotTree w

section Exact
variable (P : Platform) (config : RocksDbPrunerConfig) (head : UInt64) (trieNodes : Table H256 (List UInt8))
  (retained : List Retained)

def PruneState.Swept (s : PruneState) : Prop := ∃ roots stats, s.phase = .swept roots stats

/-- `run_once` is not aborted, and leaves exactly the nodes that the checkpoints of the window reach. -/
def PrunedExactly : Prop :=
  ∃ n, let s := after config head trieNodes retained (List.replicate n .prune)
    s.Swept ∧ ∀ h,
      (LiveNode P trieNodes (windowRoots config head retained) h → s.trieNodes.lookup h = trieNodes.lookup h) ∧
      (¬ LiveNode P trieNodes (windowRoots config head retained) h → s.trieNodes.lookup h = none)

/-- The state of a root is empty, or the storage of one of its accounts. -/
def NamesEmpty (roots : List H256) : Prop :=
  emptyRoot ∈ roots ∨ ∃ root ∈ roots, ∃ u, HoldsTrie P trieNodes root u ∧ Names u emptyStorageRoot

/-- There is a checkpoint in the window; the empty node is there if a state or a storage is empty; and
no node hashes to zero. -/
structure Prunable : Prop where
  window : windowRoots config head retained ≠ []
  empty_stored : NamesEmpty P trieNodes (windowRoots config head retained) → trieNodes.lookup emptyRoot ≠ none
  nonzero : ¬ LiveNode P trieNodes (windowRoots config head retained) H256.zero

end Exact

section Built
variable {P : Platform} {E : Set (List UInt8)} {trieNodes : Table H256 (List UInt8)} {root : H256}

theorem holdsTrie_empty (P : Platform) (trieNodes : Table H256 (List UInt8)) :
    HoldsTrie P trieNodes emptyRoot .empty := MutableTrie.represents_new (columnDb trieNodes)

theorem accountTree_of_built (hsafe : Safe P E) (hE : ∀ b ∈ (columnDb trieNodes).nodes, b ∈ E)
    {accounts : Accounts} {storage : Storage} {db : ZbxDbTrieAdapter}
    (hhashed : ∀ b ∈ stateHashedWithDb P accounts storage db, b ∈ E)
    (hroot : (computeStateRootWithDb P accounts storage db).2 = .ok root) {u : NibbleTree}
    (hu : HoldsTrie P trieNodes root u) : AccountTree u := by
  obtain ⟨hcomputed,m,⟨u',hr,hget,hwords⟩,hover⟩ := computeStateRootWithDb_of_roots hsafe
    (fun addr state haccount => rootInDb_of_computed hroot haccount) hhashed
  have hsame : root = (accountTrieWithDb P accounts storage db).1.root := by
    rw [hcomputed] at hroot
    exact (Except.ok.inj hroot).symm
  obtain rfl : u = u' := (hu.within hE).carries.tree_eq hsafe hr.carries hsame
  intro key v hv
  obtain ⟨k,rfl⟩ := hwords key (by simp [Patricia.Has, hv])
  rw [hget] at hv
  by_cases hkey : ∃ addr ∈ accounts.keys, addressKey P addr = k
  · obtain ⟨addr,haddr,rfl⟩ := hkey
    rw [hover.written addr haddr] at hv
    obtain ⟨state,-,hleaf⟩ := Option.bind_eq_some_iff.mp hv
    split at hleaf
    · cases hleaf
    · obtain ⟨sr,-,rfl⟩ := Option.map_eq_some_iff.mp hleaf
      exact ⟨state,sr,rfl⟩
  · rw [hover.kept k (fun addr haddr heq => hkey ⟨addr,haddr,heq⟩)] at hv
    cases hv

theorem CheckpointComplete.tries (hsafe : Safe P E) (hE : ∀ b ∈ (columnDb trieNodes).nodes, b ∈ E)
    (h : CheckpointComplete P E trieNodes root) : TriesComplete P trieNodes root := by
  obtain ⟨accounts,storage,db,hhashed,hroot⟩ := h.built
  obtain ⟨u,hu,hstorages⟩ := h.complete
  refine ⟨u,hu,accountTree_of_built hsafe hE hhashed hroot hu,fun sr hnames => ?_⟩
  rcases hstorages sr hnames with hzero | rfl | hstorage
  · exact .inl hzero
  · exact .inr ⟨.empty,holdsTrie_empty P trieNodes,nofun⟩
  · exact .inr hstorage

end Built

namespace PruneState
section Walks
variable (config : RocksDbPrunerConfig) (head : UInt64) {trieNodes : Table H256 (List UInt8)} {roots : List H256}

theorem walk_goes_on (live : Finset H256) {call : WalkCall} (calls : List WalkCall)
    (hlinks : ¬ IsNull call → ∃ l, callLinks trieNodes call = some l) :
    walk trieNodes live call calls = .ok ⟨live,calls⟩ ∨
      ∃ more, walk trieNodes live call calls = .ok ⟨insert call.1 live,more⟩ ∧
        call.1 ∈ trieNodes.keys.toFinset \ live := by
  unfold walk
  split
  · exact .inl rfl
  · rename_i hnew
    rw [not_or] at hnew
    obtain ⟨l,hl⟩ := hlinks hnew.1
    unfold callLinks at hl
    cases hlookup : trieNodes.lookup call.1 with
    | none => simp [hlookup] at hl
    | some bytes =>
      have hkey : call.1 ∈ trieNodes.keys := by
        by_contra habsent
        rw [AList.lookup_eq_none.mpr (by simpa [AList.mem_keys] using habsent)] at hlookup
        cases hlookup
      simp only [hlookup] at hl ⊢
      cases hdecode : TrieNode.decode bytes with
      | error e => simp [hdecode] at hl
      | ok node => exact .inr ⟨_,rfl,Finset.mem_sdiff.mpr ⟨List.mem_toFinset.mpr hkey,hnew.2⟩⟩

theorem marking_ends (s : PruneState)
    (hlinks : ∀ call, Reaches s.trieNodes roots call → ∃ l, callLinks s.trieNodes call = some l)
    {live : Finset H256} {calls : List WalkCall} {V : Set WalkCall}
    (hmarked : Marked Prod.fst IsNull (callLinks s.trieNodes) (rootCalls roots) ⟨live,calls⟩ V) :
    ∃ n, ((prune config head)^[n] { s with phase := .marking roots ⟨live,calls⟩ }).Swept := by
  induction hcard : (s.trieNodes.keys.toFinset \ live).card using Nat.strong_induction_on
    generalizing live calls V with
  | _ k ihnode =>
    induction calls generalizing V with
    | nil => exact ⟨1,roots,_,rfl⟩
    | cons call calls ihcall =>
      have hstep : ∀ {mark}, walk s.trieNodes live call calls = .ok mark →
          prune config head { s with phase := .marking roots ⟨live,call :: calls⟩ } =
            { s with phase := .marking roots mark } := by
        intro mark hwalk
        simp [prune, hwalk]
      rcases walk_goes_on live calls fun hne =>
          hlinks call ((hmarked.calls_reached call List.mem_cons_self).resolve_left hne) with
        hwalk | ⟨more,hwalk,hnode⟩
      · obtain ⟨V',hmarked'⟩ := walk_marked hmarked hwalk
        obtain ⟨n,hn⟩ := ihcall hmarked'
        exact ⟨n + 1,by rwa [Function.iterate_succ_apply, hstep hwalk]⟩
      · obtain ⟨V',hmarked'⟩ := walk_marked hmarked hwalk
        have hless : (s.trieNodes.keys.toFinset \ insert call.1 live).card < k := by
          rw [← hcard, Finset.sdiff_insert]
          exact Finset.card_erase_lt_of_mem hnode
        obtain ⟨n,hn⟩ := ihnode _ hless hmarked' rfl
        exact ⟨n + 1,by rwa [Function.iterate_succ_apply, hstep hwalk]⟩

end Walks

section Alone
variable (config : RocksDbPrunerConfig) (head : UInt64) (trieNodes : Table H256 (List UInt8))
  (retained : List Retained)

/-- What is so in a run of the pruner by itself. -/
structure Alone (s : PruneState) : Prop where
  stored : s.stored = trieNodes
  since : s.since = []
  kept : s.retained = retained
  window : match s.phase with
    | .inWindow => windowRoots config head retained ≠ []
    | .marking roots _ => roots = windowRoots config head retained ∧ roots ≠ []
    | .swept roots _ => roots = windowRoots config head retained ∧ roots ≠ []
    | _ => True

variable {config head trieNodes retained}

theorem Alone.prune {s : PruneState} (h : Alone config head trieNodes retained s) :
    Alone config head trieNodes retained (s.prune config head) := by
  obtain ⟨nodes,retained',phase,stored,since,committed⟩ := s
  obtain ⟨hstored,hsince,rfl,hwindow⟩ := h
  cases phase with
  | called =>
    refine ⟨hstored,hsince,rfl,?_⟩
    by_cases hnone : retained'.isEmpty
    · simp [PruneState.prune, hnone]
    · simp [PruneState.prune, hnone]
  | nonEmpty =>
    refine ⟨hstored,hsince,rfl,?_⟩
    by_cases hnone : config.snapshotRetained retained' head = []
    · simp [PruneState.prune, hnone]
    · simp [PruneState.prune, hnone, windowRoots]
  | inWindow => exact ⟨hstored,hsince,rfl,rfl,hwindow⟩
  | marking roots mark =>
    obtain ⟨live,calls⟩ := mark
    cases calls with
    | nil => exact ⟨hstored,rfl,rfl,hwindow⟩
    | cons call calls =>
      simp only [PruneState.prune]
      cases walk nodes live call calls with
      | error e => exact ⟨hstored,hsince,rfl,trivial⟩
      | ok mark => exact ⟨hstored,hsince,rfl,hwindow⟩
  | aborted => exact ⟨hstored,hsince,rfl,trivial⟩
  | swept roots stats => exact ⟨hstored,hsince,rfl,hwindow⟩

theorem after_replicate (n : ℕ) : after config head trieNodes retained (List.replicate n .prune) =
    (prune config head)^[n] (start trieNodes retained) := Machine.final_replicate ..

theorem alone_after (n : ℕ) :
    Alone config head trieNodes retained (after config head trieNodes retained (List.replicate n .prune)) ∧
      Pruning config head retained (after config head trieNodes retained (List.replicate n .prune)) := by
  rw [after_replicate]
  induction n with
  | zero => exact ⟨⟨rfl,rfl,rfl,trivial⟩,pruning_start trieNodes retained⟩
  | succ n ih =>
    rw [Function.iterate_succ_apply']
    exact ⟨ih.1.prune,ih.2.prune⟩

/-- When a sweep has ended, exactly the marked nodes are left. -/
theorem swept_after {n : ℕ} (h : (after config head trieNodes retained (List.replicate n .prune)).Swept) :
    windowRoots config head retained ≠ [] ∧ ∃ live V,
      Marked Prod.fst IsNull (callLinks trieNodes) (rootCalls (windowRoots config head retained)) ⟨live,[]⟩ V ∧
        ∀ h, (after config head trieNodes retained (List.replicate n .prune)).trieNodes.lookup h =
          if h ∈ live then trieNodes.lookup h else none := by
  have halone : Alone config head trieNodes retained (after config head trieNodes retained (List.replicate n .prune)) :=
    (alone_after n).1
  have hpruning : Pruning config head retained (after config head trieNodes retained (List.replicate n .prune)) :=
    (alone_after n).2
  generalize after config head trieNodes retained (List.replicate n .prune) = s at h halone hpruning ⊢
  obtain ⟨roots,stats,hphase⟩ := h
  have hwindow := halone.window
  have hnodes := hpruning.nodes
  rw [hphase] at hwindow hnodes
  obtain ⟨rfl,hne⟩ := hwindow
  obtain ⟨-,live,V,hmarked,hlookup⟩ := hnodes
  rw [halone.stored] at hmarked
  refine ⟨hne,live,V,hmarked,fun h => ?_⟩
  simpa [halone.since, halone.stored] using hlookup h

theorem swept_of_links (hwindow : windowRoots config head retained ≠ [])
    (hlinks : ∀ call, Reaches trieNodes (windowRoots config head retained) call →
      ∃ l, callLinks trieNodes call = some l) :
    ∃ n, (after config head trieNodes retained (List.replicate n .prune)).Swept := by
  have hsnapshot : config.snapshotRetained retained head ≠ [] := fun hnone => hwindow (by simp [windowRoots, hnone])
  have hretained : retained ≠ [] := by
    rintro rfl
    exact hsnapshot rfl
  obtain ⟨n,hn⟩ := marking_ends config head (start trieNodes retained) hlinks (Marked.start fun _ => Iff.rfl)
  refine ⟨n + 3,?_⟩
  rw [after_replicate, Function.iterate_add_apply]
  simpa [prune, start, hsnapshot, hretained] using hn

end Alone
end PruneState

section Results
variable {P : Platform} {E : Set (List UInt8)} {config : RocksDbPrunerConfig} {head : UInt64}
  {trieNodes : Table H256 (List UInt8)} {retained : List Retained} {roots : List H256} {h : H256}

theorem NamesEmpty.live (h : NamesEmpty P trieNodes roots) : LiveNode P trieNodes roots emptyRoot := by
  rcases h with hroot | ⟨root,hroot,u,hu,hnames⟩
  · exact ⟨emptyRoot,hroot,.empty,holdsTrie_empty P trieNodes,.inl (.inl rfl)⟩
  · exact ⟨root,hroot,u,hu,.inr ⟨emptyStorageRoot,.empty,hnames,holdsTrie_empty P trieNodes,.inl rfl⟩⟩

theorem LiveNode.stored (hlive : LiveNode P trieNodes roots h) : h = emptyRoot ∨ trieNodes.lookup h ≠ none := by
  have htrie : ∀ {root : H256} {u : NibbleTree}, HoldsTrie P trieNodes root u → TrieNodeHash P u h →
      h = emptyRoot ∨ trieNodes.lookup h ≠ none := by
    intro root u hu hhash
    rcases hhash.cases with ⟨-,hroot⟩ | ⟨w,hne,hw,rfl⟩
    · exact .inl hroot
    · exact .inr (by simp [(hu.lookup hne hw).1])
  obtain ⟨root,-,u,hu,hhash | ⟨sr,w,-,hw,hhash⟩⟩ := hlive
  · exact htrie hu hhash
  · exact htrie hw hhash

variable (hsafe : Safe P E) (hE : ∀ b ∈ (columnDb trieNodes).nodes, b ∈ E)
  (hempty : ∀ b, trieNodes.lookup emptyRoot = some b → b = [0x80])
include hsafe hE hempty

theorem namesEmpty_of_reaches (htries : ∀ root ∈ roots, TriesComplete P trieNodes root) {role : Bool}
    (h : Reaches trieNodes roots (emptyRoot,role)) : NamesEmpty P trieNodes roots := by
  obtain ⟨root,u,⟨hu,hwalked⟩,hhash⟩ := walked_of_reaches hsafe hE hempty htries h
  rcases hhash.cases with ⟨rfl,hroot⟩ | ⟨w,hne,hw,hhash⟩
  · obtain rfl : root = emptyRoot := hu.root_eq
    split at hwalked
    · exact .inl hwalked.1
    · obtain ⟨-,account,t,haccount,ht,hnames⟩ := hwalked
      exact .inr ⟨account,haccount,t,ht,hnames⟩
  · exact absurd hhash.symm (hu.hash_ne_empty hsafe hE hne hw)

section Complete
variable (hcomplete : ∀ root ∈ windowRoots config head retained, CheckpointComplete P E trieNodes root)
include hcomplete

theorem PrunedExactly.prunable (h : PrunedExactly P config head trieNodes retained) :
    Prunable P config head trieNodes retained := by
  have htries : ∀ root ∈ windowRoots config head retained, TriesComplete P trieNodes root :=
    fun root hroot => (hcomplete root hroot).tries hsafe hE
  obtain ⟨n,hswept,hexact⟩ := h
  obtain ⟨hwindow,live,V,hmarked,hlookup⟩ := swept_after hswept
  have hzero : ¬ LiveNode P trieNodes (windowRoots config head retained) H256.zero := by
    intro hlive
    have hkept := (hexact H256.zero).1 hlive
    have hnot : H256.zero ∉ live := by
      intro hmem
      obtain ⟨call,hkey,hreached⟩ := hmarked.sound hmem
      exact hreached.not_null hkey
    rw [hlookup, if_neg hnot] at hkept
    rcases LiveNode.stored hlive with heq | hstored
    · revert heq
      decide
    · exact hstored hkept.symm
  refine ⟨hwindow,fun hnames hnone => ?_,hzero⟩
  obtain ⟨role,hreached⟩ := reaches_of_live hsafe hE htries hzero hnames.live
  have hmem : emptyRoot ∈ live := hmarked.complete (agrees_of_tries hsafe hE hempty htries) hreached
  obtain ⟨⟨hash,role⟩,hcall,hkey⟩ := (hmarked.live_iff emptyRoot).mp hmem
  obtain rfl : hash = emptyRoot := hkey
  obtain ⟨l,hl,-⟩ := hmarked.followed _ hcall
  simp [callLinks, hnone] at hl

theorem Prunable.exact (h : Prunable P config head trieNodes retained) :
    PrunedExactly P config head trieNodes retained := by
  have htries : ∀ root ∈ windowRoots config head retained, TriesComplete P trieNodes root :=
    fun root hroot => (hcomplete root hroot).tries hsafe hE
  obtain ⟨hwindow,hstored,hzero⟩ := h
  have hlinks : ∀ call, Reaches trieNodes (windowRoots config head retained) call →
      ∃ l, callLinks trieNodes call = some l := by
    rintro ⟨hash,role⟩ hreached
    rcases callLinks_of_reaches hsafe hE hempty htries hreached with hroot | hlinks
    · obtain rfl : hash = emptyRoot := hroot
      obtain ⟨b,hb⟩ := Option.ne_none_iff_exists'.mp
        (hstored (namesEmpty_of_reaches hsafe hE hempty htries hreached))
      exact ⟨[],callLinks_emptyRoot (hempty b hb ▸ hb) role⟩
    · exact hlinks
  obtain ⟨n,hswept⟩ := swept_of_links hwindow hlinks
  obtain ⟨-,live,V,hmarked,hlookup⟩ := swept_after hswept
  refine ⟨n,hswept,fun h => ⟨fun hlive => ?_,fun hdead => ?_⟩⟩
  · obtain ⟨role,hreached⟩ := reaches_of_live hsafe hE htries hzero hlive
    have hmem : h ∈ live := hmarked.complete (agrees_of_tries hsafe hE hempty htries) hreached
    rw [hlookup, if_pos hmem]
  · have hnot : h ∉ live := by
      intro hmem
      obtain ⟨call,rfl,hreached⟩ := hmarked.sound hmem
      exact hdead (live_of_reaches hsafe hE hempty htries hreached)
    rw [hlookup, if_neg hnot]

theorem pruned_exactly_iff :
    PrunedExactly P config head trieNodes retained ↔ Prunable P config head trieNodes retained :=
  ⟨PrunedExactly.prunable hsafe hE hempty hcomplete,Prunable.exact hsafe hE hempty hcomplete⟩

end Complete
end Results

section Lone
variable {trieNodes : Table H256 (List UInt8)}

def loneTree : NibbleTree := .leaf (Nibbles.fromBytes (addressKey .integersEmptyRoot 1))
  (encodeAccountRlp { AccountState.fresh with nonce := 1 } emptyStorageRoot)

def loneRoot : H256 := rootHash .integersEmptyRoot loneTree

def loneNodes : Table H256 (List UInt8) :=
  (∅ : Table H256 (List UInt8)).insert loneRoot (encoding .integersEmptyRoot loneTree)

def loneCheckpoint : List Retained := [⟨5,loneRoot⟩]

def loneHashed : Set (List UInt8) := {b | b ∈ stateHashedWithDb .integersEmptyRoot loneAccount ∅ emptyDb}

theorem safe_lone : Safe .integersEmptyRoot loneHashed :=
  safe_of_list (by decide +kernel) (by decide +kernel) (by decide +kernel) (by decide +kernel)

theorem names_lone {sr : H256} : Names loneTree sr ↔ sr = emptyStorageRoot := by
  constructor
  · rintro ⟨key,st,hget⟩
    rw [loneTree, Patricia.get_leaf] at hget
    split at hget
    · have hsame := congrArg (Option.map accountStorageRoot) hget
      simpa [accountStorageRoot_encode] using hsame.symm
    · cases hget
  · rintro rfl
    exact ⟨_,_,by rw [loneTree, Patricia.get_leaf, if_pos rfl]⟩

theorem holdsTrie_lone (hlookup : trieNodes.lookup loneRoot = some (encoding .integersEmptyRoot loneTree)) :
    HoldsTrie .integersEmptyRoot trieNodes loneRoot loneTree where
  normal := trivial
  filled := by
    intro key v hget
    rw [loneTree, Patricia.get_leaf] at hget
    split at hget
    · cases hget
      decide +kernel
    · cases hget
  root := rfl
  top := by
    have hfound := lookup_columnDb trieNodes loneRoot loneRoot
    rw [hlookup] at hfound
    exact fun _ => ⟨ZbxDbTrieAdapter.mem_nodes_of_get hfound,hfound⟩
  stored := trivial

theorem complete_lone (hlookup : trieNodes.lookup loneRoot = some (encoding .integersEmptyRoot loneTree)) {root : H256}
    (hroot : root ∈ windowRoots demoConfig 5 loneCheckpoint) :
    CheckpointComplete .integersEmptyRoot loneHashed trieNodes root := by
  obtain rfl : root = loneRoot := List.mem_singleton.mp hroot
  exact ⟨⟨loneAccount,∅,emptyDb,fun b hb => hb,by decide +kernel⟩,
    loneTree,holdsTrie_lone hlookup,fun sr hnames => .inr (.inl (names_lone.mp hnames))⟩

/-- The run is aborted as the walk looks for the storage trie of an account without storage. -/
theorem empty_storage_aborts : ¬ ∀ (P : Platform) (E : Set (List UInt8)) (config : RocksDbPrunerConfig)
    (head : UInt64) (trieNodes : Table H256 (List UInt8)) (retained : List Retained), Safe P E →
      (∀ b ∈ (columnDb trieNodes).nodes, b ∈ E) → (∀ b, trieNodes.lookup emptyRoot = some b → b = [0x80]) →
        (∀ root ∈ windowRoots config head retained, CheckpointComplete P E trieNodes root) →
          windowRoots config head retained ≠ [] → PrunedExactly P config head trieNodes retained := by
  intro hall
  have hE : ∀ b ∈ (columnDb loneNodes).nodes, b ∈ loneHashed := by
    change ∀ b ∈ (columnDb loneNodes).nodes, b ∈ stateHashedWithDb .integersEmptyRoot loneAccount ∅ emptyDb
    decide +kernel
  have hnone : loneNodes.lookup emptyRoot = none := by decide +kernel
  have hempty : ∀ b, loneNodes.lookup emptyRoot = some b → b = [0x80] := by simp [hnone]
  have hcomplete : ∀ root ∈ windowRoots demoConfig 5 loneCheckpoint,
      CheckpointComplete .integersEmptyRoot loneHashed loneNodes root :=
    fun root hroot => complete_lone (by decide +kernel) hroot
  have hexact := hall .integersEmptyRoot loneHashed demoConfig 5 loneNodes loneCheckpoint safe_lone hE hempty
    hcomplete (by decide +kernel)
  have hnames : NamesEmpty .integersEmptyRoot loneNodes (windowRoots demoConfig 5 loneCheckpoint) :=
    .inr ⟨loneRoot,List.mem_singleton_self _,loneTree,holdsTrie_lone (by decide +kernel),names_lone.mpr rfl⟩
  exact (hexact.prunable safe_lone hE hempty hcomplete).empty_stored hnames hnone

/-- The same column with the empty node under its hash. -/
def keptNodes : Table H256 (List UInt8) := loneNodes.insert emptyRoot [0x80]

theorem stored_empty_pruned : PrunedExactly .integersEmptyRoot demoConfig 5 keptNodes loneCheckpoint := by
  have hE : ∀ b ∈ (columnDb keptNodes).nodes, b ∈ loneHashed := by
    change ∀ b ∈ (columnDb keptNodes).nodes, b ∈ stateHashedWithDb .integersEmptyRoot loneAccount ∅ emptyDb
    decide +kernel
  have hstored : keptNodes.lookup emptyRoot = some [0x80] := by decide +kernel
  have hempty : ∀ b, keptNodes.lookup emptyRoot = some b → b = [0x80] := by
    rintro b hb
    exact (Option.some.inj (hstored.symm.trans hb)).symm
  refine (pruned_exactly_iff safe_lone hE hempty (fun root hroot => complete_lone (by decide +kernel) hroot)).mpr
    ⟨by decide +kernel,fun _ => by simp [hstored],fun hlive => ?_⟩
  rcases LiveNode.stored hlive with heq | hzero
  · revert heq
    decide
  · exact hzero (by decide +kernel)

end Lone
end ZbxChain
