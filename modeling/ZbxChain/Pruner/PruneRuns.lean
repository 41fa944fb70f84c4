import ZbxChain.Pruner.RocksDbPruner
import ZbxChain.Trie.MapLaws

/-! # Runs of the pruner among block commits

The mark phase finds what the retained roots of its snapshot lead to. A commit that stores its
nodes before the sweep and is not among them loses these nodes, as the lock is only held from the
sweep on.
-/
namespace ZbxChain
open Marking

def IsNull (call : WalkCall) : Prop := call.1 = H256.zero

instance (call : WalkCall) : Decidable (IsNull call) := inferInstanceAs (Decidable (call.1 = H256.zero))

/-- What a node in the database leads to. -/
def callLinks (trieNodes : Table H256 (List UInt8)) (call : WalkCall) : Option (List WalkCall) :=
  match trieNodes.lookup call.1 with
  | none => none
  | some bytes =>
    match TrieNode.decode bytes with
    | .error _ => none
    | .ok node => some (node.calls call.2)

def rootCalls (roots : List H256) (call : WalkCall) : Prop := call ∈ roots.map (fun root => (root,true))

/-- The nodes of the tries of some state roots: account tries, and the storage tries that their
leaves name. -/
def Reaches (trieNodes : Table H256 (List UInt8)) (roots : List H256) (call : WalkCall) : Prop :=
  Reached IsNull (callLinks trieNodes) (rootCalls roots) call

namespace PruneState
variable (config : RocksDbPrunerConfig) (head : UInt64)

/-- Of the retained roots inside the window and of the blocks committed during the run, every node
that has ever been stored is still there. -/
def LiveKept (s : PruneState) : Prop :=
  ∀ root ∈ windowRoots config head s.retained ++ s.committed, ∀ call, Reaches s.stored [root] call →
    s.trieNodes.lookup call.1 = s.stored.lookup call.1

/-- A node that the marked roots lead to both as one of an account trie and as one of a storage
trie names no storage trie. -/
def LinksAgree (s : PruneState) : Prop :=
  ∀ roots stats, s.phase = .swept roots stats → Agrees Prod.fst IsNull (callLinks s.stored) (rootCalls roots)

/-- A node that a root leads to which came after the start is one that the marked roots lead to,
or it has been stored since the sweep. -/
def NothingLate (retained : List Retained) (s : PruneState) : Prop :=
  ∀ roots stats, s.phase = .swept roots stats →
    ∀ root ∈ windowRoots config head s.retained ++ s.committed, root ∉ windowRoots config head retained →
      ∀ call, Reaches s.stored [root] call → s.stored.lookup call.1 ≠ none →
        call.1 ∈ s.since ∨ ∃ walkStorageRoot, Reaches s.stored roots (call.1,walkStorageRoot)

/-- A node that is stored under a hash is the one that has been stored under it. -/
def PutFits (s : PruneState) : PruneAction → Prop
  | .putTrieNode hash node => s.stored.lookup hash = none ∨ s.stored.lookup hash = some node
  | .prune => True
  | .commitBlock _ => True
  | .retain _ => True

instance (s : PruneState) (action : PruneAction) : Decidable (PutFits s action) :=
  match action with
  | .putTrieNode hash node =>
    inferInstanceAs (Decidable (s.stored.lookup hash = none ∨ s.stored.lookup hash = some node))
  | .prune => instDecidableTrue
  | .commitBlock _ => instDecidableTrue
  | .retain _ => instDecidableTrue

/-- What a step keeps, for a run that starts with the checkpoints `retained`. -/
structure Pruning (retained : List Retained) (s : PruneState) : Prop where
  grown : retained <+: s.retained
  nodes : match s.phase with
    | .marking roots mark => (∀ h, s.trieNodes.lookup h = s.stored.lookup h) ∧
        (∀ root ∈ windowRoots config head retained, root ∈ roots) ∧
        ∃ V, Marked Prod.fst IsNull (callLinks s.stored) (rootCalls roots) mark V
    | .swept roots _ => (∀ root ∈ windowRoots config head retained, root ∈ roots) ∧
        ∃ live V, Marked Prod.fst IsNull (callLinks s.stored) (rootCalls roots) ⟨live,[]⟩ V ∧
          ∀ h, s.trieNodes.lookup h = if h ∈ live ∨ h ∈ s.since then s.stored.lookup h else none
    | _ => ∀ h, s.trieNodes.lookup h = s.stored.lookup h

section Steps
variable {config head} {retained : List Retained} {s : PruneState}

theorem callLinks_congr {t t' : Table H256 (List UInt8)} (h : ∀ hash, t.lookup hash = t'.lookup hash) :
    callLinks t = callLinks t' := by
  funext call
  simp only [callLinks, h]

theorem grows_put {t : Table H256 (List UInt8)} {hash : H256} {node : List UInt8}
    (hfit : t.lookup hash = none ∨ t.lookup hash = some node) :
    Grows (callLinks t) (callLinks (t.insert hash node)) := by
  intro call l hl
  by_cases hsame : call.1 = hash
  · subst hsame
    rcases hfit with hnone | hsome
    · simp [callLinks, hnone] at hl
    · simp only [callLinks, hsome] at hl
      simp only [callLinks, AList.lookup_insert]
      exact hl
  · simpa only [callLinks, AList.lookup_insert_ne hsame] using hl

theorem lookup_put_congr {t t' : Table H256 (List UInt8)} (h : ∀ k, t.lookup k = t'.lookup k) (hash : H256)
    (node : List UInt8) (k : H256) : (t.insert hash node).lookup k = (t'.insert hash node).lookup k := by
  by_cases hk : k = hash
  · subst hk
    simp [AList.lookup_insert]
  · simp [AList.lookup_insert_ne hk, h]

theorem walk_marked {t : Table H256 (List UInt8)} {roots : List H256} {live : Finset H256} {call : WalkCall}
    {calls : List WalkCall} {mark : Traversal WalkCall H256} {V : Set WalkCall}
    (h : Marked Prod.fst IsNull (callLinks t) (rootCalls roots) ⟨live,call :: calls⟩ V)
    (hwalk : walk t live call calls = .ok mark) :
    ∃ V', Marked Prod.fst IsNull (callLinks t) (rootCalls roots) mark V' := by
  unfold walk at hwalk
  split at hwalk
  · rename_i hdone
    cases hwalk
    exact ⟨V,h.drop hdone⟩
  · rename_i hnew
    rw [not_or] at hnew
    split at hwalk
    · cases hwalk
    · rename_i bytes hbytes
      split at hwalk
      · cases hwalk
      · rename_i node hnode
        cases hwalk
        exact ⟨_,h.visit hnew.1 (by simp only [callLinks, hbytes, hnode])⟩

theorem windowRoots_mono (h : retained <+: s.retained) :
    ∀ root ∈ windowRoots config head retained, root ∈ windowRoots config head s.retained := by
  intro root hroot
  obtain ⟨c,hc,rfl⟩ := List.mem_map.mp hroot
  obtain ⟨hmem,hwindow⟩ := List.mem_filter.mp hc
  exact List.mem_map.mpr ⟨c,List.mem_filter.mpr ⟨h.subset hmem,hwindow⟩,rfl⟩

theorem pruning_start (trieNodes : Table H256 (List UInt8)) (retained : List Retained) :
    Pruning config head retained (start trieNodes retained) := ⟨List.prefix_refl retained,fun _ => rfl⟩

theorem Pruning.prune (h : Pruning config head retained s) :
    Pruning config head retained (s.prune config head) := by
  obtain ⟨trieNodes,retained',phase,stored,since,committed⟩ := s
  obtain ⟨hgrown,hnodes⟩ := h
  cases phase with
  | called =>
    refine ⟨hgrown,?_⟩
    by_cases hempty : retained'.isEmpty
    · simpa [PruneState.prune, hempty] using hnodes
    · simpa [PruneState.prune, hempty] using hnodes
  | nonEmpty =>
    refine ⟨hgrown,?_⟩
    by_cases hempty : (config.snapshotRetained retained' head).isEmpty
    · simpa [PruneState.prune, hempty] using hnodes
    · simpa [PruneState.prune, hempty] using hnodes
  | inWindow => exact ⟨hgrown,hnodes,windowRoots_mono hgrown,∅,Marked.start fun root => Iff.rfl⟩
  | marking roots mark =>
    obtain ⟨hsame,hwindow,V,hmarked⟩ := hnodes
    obtain ⟨live,calls⟩ := mark
    cases calls with
    | nil =>
      refine ⟨hgrown,hwindow,live,V,hmarked,fun k => ?_⟩
      simp only [PruneState.prune, lookup_sweep, List.not_mem_nil, or_false, hsame]
    | cons call calls =>
      rw [← callLinks_congr hsame] at hmarked
      simp only [PruneState.prune]
      cases hwalk : walk trieNodes live call calls with
      | error e => exact ⟨hgrown,hsame⟩
      | ok mark =>
        obtain ⟨V',hmarked'⟩ := walk_marked hmarked hwalk
        rw [callLinks_congr hsame] at hmarked'
        exact ⟨hgrown,hsame,hwindow,V',hmarked'⟩
  | aborted => exact ⟨hgrown,hnodes⟩
  | swept roots stats => exact ⟨hgrown,hnodes⟩

theorem Pruning.putTrieNode (h : Pruning config head retained s) {hash : H256} {node : List UInt8}
    (hfit : s.stored.lookup hash = none ∨ s.stored.lookup hash = some node) :
    Pruning config head retained (s.step config head (.putTrieNode hash node)).1 := by
  obtain ⟨trieNodes,retained',phase,stored,since,committed⟩ := s
  obtain ⟨hgrown,hnodes⟩ := h
  have hgrows := grows_put hfit
  cases phase with
  | called => exact ⟨hgrown,lookup_put_congr hnodes hash node⟩
  | nonEmpty => exact ⟨hgrown,lookup_put_congr hnodes hash node⟩
  | inWindow => exact ⟨hgrown,lookup_put_congr hnodes hash node⟩
  | aborted => exact ⟨hgrown,lookup_put_congr hnodes hash node⟩
  | marking roots mark =>
    obtain ⟨hsame,hwindow,V,hmarked⟩ := hnodes
    exact ⟨hgrown,lookup_put_congr hsame hash node,hwindow,V,hmarked.mono hgrows⟩
  | swept roots stats =>
    obtain ⟨hwindow,live,V,hmarked,hkept⟩ := hnodes
    refine ⟨hgrown,hwindow,live,V,hmarked.mono hgrows,fun k => ?_⟩
    by_cases hk : k = hash
    · subst hk
      simp [PruneState.step, AList.lookup_insert]
    · simpa [PruneState.step, AList.lookup_insert_ne hk, hk] using hkept k

theorem Pruning.step (h : Pruning config head retained s) (action : PruneAction) (hfit : PutFits s action) :
    Pruning config head retained (s.step config head action).1 := by
  cases action with
  | prune => exact h.prune
  | putTrieNode hash node => exact h.putTrieNode hfit
  | commitBlock stateRoot => exact ⟨h.grown,h.nodes⟩
  | retain checkpoint => exact ⟨h.grown.trans (List.prefix_append _ _),h.nodes⟩

end Steps

section Runs
variable {config head} {retained : List Retained} {s : PruneState}

theorem reaches_of_mem {t : Table H256 (List UInt8)} {root : H256} {roots : List H256} {call : WalkCall}
    (hroot : root ∈ roots) (h : Reaches t [root] call) : Reaches t roots call := by
  obtain ⟨start,hstart,hne,hpath⟩ := h
  obtain ⟨r,hr,rfl⟩ := List.mem_map.mp hstart
  rw [List.mem_singleton.mp hr] at hne hpath
  exact ⟨_,List.mem_map.mpr ⟨root,hroot,rfl⟩,hne,hpath⟩

theorem Pruning.nothingLate (h : Pruning config head retained s) (hkept : LiveKept config head s) :
    NothingLate config head retained s := by
  intro roots stats hphase root hroot _ call hcall hstored
  have hnodes := h.nodes
  rw [hphase] at hnodes
  obtain ⟨-,live,V,hmarked,hlookup⟩ := hnodes
  have hthere := hkept root hroot call hcall
  rw [hlookup] at hthere
  by_cases hlive : call.1 ∈ live
  · obtain ⟨⟨hash,walkStorageRoot⟩,rfl,hreached⟩ := hmarked.sound hlive
    exact .inr ⟨walkStorageRoot,hreached⟩
  · refine .inl ?_
    by_contra hsince
    rw [if_neg (not_or.mpr ⟨hlive,hsince⟩)] at hthere
    exact hstored hthere.symm

theorem Pruning.liveKept (h : Pruning config head retained s) (hagree : LinksAgree s)
    (hlate : NothingLate config head retained s) : LiveKept config head s := by
  intro root hroot call hcall
  have hnodes := h.nodes
  cases hphase : s.phase with
  | swept roots stats =>
    rw [hphase] at hnodes
    obtain ⟨hwindow,live,V,hmarked,hlookup⟩ := hnodes
    have hcomplete : ∀ call, Reaches s.stored roots call → call.1 ∈ live :=
      fun call hreached => hmarked.complete (hagree roots stats hphase) hreached
    rw [hlookup]
    by_cases hkept : call.1 ∈ live ∨ call.1 ∈ s.since
    · rw [if_pos hkept]
    · rw [if_neg hkept]
      rw [not_or] at hkept
      by_cases hearly : root ∈ windowRoots config head retained
      · exact absurd (hcomplete call (reaches_of_mem (hwindow root hearly) hcall)) hkept.1
      · by_contra hstored
        rcases hlate roots stats hphase root hroot hearly call hcall (Ne.symm hstored) with hsince | ⟨role,hreached⟩
        · exact hkept.2 hsince
        · exact hkept.1 (hcomplete (call.1,role) hreached)
  | called =>
    rw [hphase] at hnodes
    exact hnodes call.1
  | nonEmpty =>
    rw [hphase] at hnodes
    exact hnodes call.1
  | inWindow =>
    rw [hphase] at hnodes
    exact hnodes call.1
  | marking roots mark =>
    rw [hphase] at hnodes
    exact hnodes.1 call.1
  | aborted =>
    rw [hphase] at hnodes
    exact hnodes call.1

def after (config : RocksDbPrunerConfig) (head : UInt64) (trieNodes : Table H256 (List UInt8))
    (retained : List Retained) (actions : List PruneAction) : PruneState :=
  Machine.final (step config head) (start trieNodes retained) actions

/-- Whatever the interleaving, live nodes are only lost if they came late, and if none came late
and the nodes of account and storage tries do not get mixed up, none are lost. -/
theorem live_kept (config : RocksDbPrunerConfig) (head : UInt64) (trieNodes : Table H256 (List UInt8))
    (retained : List Retained) (actions : List PruneAction)
    (hputs : ∀ e ∈ Machine.history (step config head) (start trieNodes retained) actions, PutFits e.before e.call) :
    (LiveKept config head (after config head trieNodes retained actions) →
        NothingLate config head retained (after config head trieNodes retained actions)) ∧
      (LinksAgree (after config head trieNodes retained actions) →
        NothingLate config head retained (after config head trieNodes retained actions) →
          LiveKept config head (after config head trieNodes retained actions)) := by
  have hrun := (Machine.state_invariant (step config head) (pruning_start trieNodes retained)
    (fun s action h hfit => h.step action hfit) actions hputs).2
  exact ⟨hrun.nothingLate,hrun.liveKept⟩

def demoNodes : Table H256 (List UInt8) := (∅ : Table H256 (List UInt8)).insert emptyRoot [0x80]

def demoConfig : RocksDbPrunerConfig := ⟨128,1000⟩

/-- The leaf of a trie with one value, which is no account. -/
def leafNode : List UInt8 := [0xC2,0x20,0x05]

def leafHash : H256 := Platform.integersEmptyRoot.keccak256 leafNode

def demoCommit : List PruneAction :=
  [.putTrieNode leafHash leafNode,.commitBlock leafHash,.retain ⟨6,leafHash⟩]

/-- The steps of `run_once` up to the end of the mark phase. -/
def demoMark : List PruneAction := [.prune,.prune,.prune,.prune]

/-- The same commit in front of the mark phase. -/
def demoEarly : PruneState :=
  after demoConfig 6 demoNodes [⟨5,emptyRoot⟩] (demoCommit ++ demoMark ++ [.prune,.prune])

def sweptRoots (s : PruneState) : List H256 :=
  match s.phase with
  | .swept roots _ => roots
  | _ => []

theorem sweptRoots_of_phase {roots : List H256} {stats : RunStats} (h : s.phase = .swept roots stats) :
    sweptRoots s = roots := by
  simp [sweptRoots, h]

theorem links_demoEarly {call : WalkCall} {l : List WalkCall} (h : callLinks demoEarly.stored call = some l) :
    l = [] := by
  have hstored : demoEarly.stored = (demoNodes : Table H256 (List UInt8)).insert leafHash leafNode :=
    AList.ext (by decide +kernel)
  have hbytes : ∀ bytes, demoEarly.stored.lookup call.1 = some bytes → bytes ∈ [[0x80],leafNode] := by
    intro bytes hlookup
    rw [hstored] at hlookup
    rcases AList.lookup_insert_some hlookup with ⟨-,rfl⟩ | ⟨-,hfirst⟩
    · exact List.mem_cons_of_mem _ (List.mem_singleton_self _)
    · rcases AList.lookup_insert_some hfirst with ⟨-,rfl⟩ | ⟨-,hnone⟩
      · exact List.mem_cons_self
      · cases hnone
  have hcalls : ∀ bytes ∈ [[0x80],leafNode], ∀ isAccountTrie : Bool,
      (TrieNode.decode bytes).toOption.all (fun node => decide (node.calls isAccountTrie = [])) = true := by
    decide +kernel
  unfold callLinks at h
  cases hlookup : demoEarly.stored.lookup call.1 with
  | none => simp [hlookup] at h
  | some bytes =>
    have hnone := hcalls bytes (hbytes bytes hlookup) call.2
    cases hdecode : TrieNode.decode bytes with
    | error e => simp [hlookup, hdecode] at h
    | ok node =>
      rw [hdecode] at hnone
      simp only [hlookup, hdecode, Option.some.injEq] at h
      rw [← h]
      exact of_decide_eq_true hnone

/-- In front of the mark phase the commit keeps its node. -/
theorem early_node_kept : LiveKept demoConfig 6 demoEarly := by
  refine (live_kept demoConfig 6 demoNodes [⟨5,emptyRoot⟩] (demoCommit ++ demoMark ++ [.prune,.prune])
    (by decide +kernel)).2 ?_ ?_
  · intro roots stats _ r r' s _ _ _ hlink
    obtain ⟨l,hl,hs,-⟩ := hlink
    rw [links_demoEarly hl] at hs
    cases hs
  · intro roots stats hphase root hroot _ call hcall _
    have hmarked : sweptRoots demoEarly = [emptyRoot,leafHash] := by decide +kernel
    have hlast : windowRoots demoConfig 6 demoEarly.retained ++ demoEarly.committed = [emptyRoot,leafHash,leafHash] := by
      decide +kernel
    have hroots : roots = [emptyRoot,leafHash] := (sweptRoots_of_phase hphase).symm.trans hmarked
    have hmem : root ∈ [emptyRoot,leafHash,leafHash] := hlast ▸ hroot
    refine .inr ⟨call.2,reaches_of_mem ?_ hcall⟩
    rw [hroots]
    simpa using hmem

/-- A commit that falls between the mark phase and the sweep loses its node. -/
theorem late_node_swept : ¬ ∀ (config : RocksDbPrunerConfig) (head : UInt64) (trieNodes : Table H256 (List UInt8))
    (retained : List Retained) (actions : List PruneAction),
    (∀ e ∈ Machine.history (step config head) (start trieNodes retained) actions, PutFits e.before e.call) →
      LiveKept config head (after config head trieNodes retained actions) := by
  intro hall
  have hkept := hall demoConfig 5 demoNodes [⟨5,emptyRoot⟩] (demoMark ++ demoCommit ++ [.prune]) (by decide +kernel)
  have hthere := hkept leafHash (List.mem_append_right _ (by decide +kernel)) (leafHash,true)
    ⟨(leafHash,true),List.mem_singleton_self _,by decide,.refl⟩
  revert hthere
  decide +kernel

end Runs

end PruneState

end ZbxChain
