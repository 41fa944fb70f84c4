import ZbxChain.Foundation.Machine
import ZbxChain.Foundation.Marking
import ZbxChain.Foundation.Table
import ZbxChain.Trie.Node

/-! # `zbx_pruner::rocksdb_pruner`: mark and sweep over the trie nodes

`run_once` takes its steps in between those of the block commits. A recursive `walk` is the list
of the calls that are still to come, of which one step makes the first. The disk and the locks do
not fail; the sweep holds the lock against every write, and so is one step.
-/
namespace ZbxChain
open Marking (Traversal)

abbrev WalkCall := H256 × Bool

structure Retained where
  block : UInt64
  stateRoot : H256
  deriving DecidableEq

structure RocksDbPrunerConfig where
  retainBlocks : UInt64
  sweepBatch : ℕ

structure RunStats where
  nodesSwept : ℕ
  nodesKept : ℕ
  bytesFreed : ℕ
  deriving DecidableEq

inductive MarkError where
  | decodeFailed (e : Fault)
  | missingNode (h : H256)

def accountStorageRoot (value : List UInt8) : Option H256 :=
  let rlp : Rlp := ⟨value⟩
  if ¬ rlp.isList then none
  else match rlp.itemCount with
    | .error _ => none
    | .ok count =>
      if count ≠ 4 ∧ count ≠ 5 then none
      else match rlp.bytesAt 2 with
        | .error _ => none
        | .ok srBytes => if srBytes.length ≠ 32 then none else some (H256.fromSlice srBytes)

/-- The storage trie that a value leads to. -/
def storageCalls (walkStorageRoot : Bool) (value : List UInt8) : List WalkCall :=
  if walkStorageRoot then ((accountStorageRoot value).map (fun sr => (sr,false))).toList else []

mutual
/-- The calls of `walk` that a node leads to, at once or through inline nodes. -/
def TrieNode.calls (walkStorageRoot : Bool) : TrieNode → List WalkCall
  | .empty => []
  | .leaf _ value => storageCalls walkStorageRoot value
  | .extension _ child => child.calls walkStorageRoot
  | .branch children value =>
    (List.finRange 16).flatMap (fun i => (children i).calls walkStorageRoot) ++
      match value with
      | some v => storageCalls walkStorageRoot v
      | none => []

/-- `descend`. -/
def NodeRef.calls (walkStorageRoot : Bool) : NodeRef → List WalkCall
  | .hash h => [(h,walkStorageRoot)]
  | .inline node => node.calls walkStorageRoot
  | .empty => []
end

/-- `walk`, up to the calls that it makes. -/
def walk (trieNodes : Table H256 (List UInt8)) (live : Finset H256) (call : WalkCall) (calls : List WalkCall) :
    Except MarkError (Traversal WalkCall H256) :=
  if call.1 = H256.zero ∨ call.1 ∈ live then .ok ⟨live,calls⟩
  else match trieNodes.lookup call.1 with
    | none => .error (.missingNode call.1)
    | some bytes =>
      match TrieNode.decode bytes with
      | .error e => .error (.decodeFailed e)
      | .ok node => .ok ⟨insert call.1 live,node.calls call.2 ++ calls⟩

namespace RocksDbPrunerConfig
variable (config : RocksDbPrunerConfig)

def snapshotRetained (retained : List Retained) (head : UInt64) : List Retained :=
  let cutoff := saturatingSub64 (saturatingAdd64 head 1) config.retainBlocks
  retained.filter (fun c => cutoff ≤ c.block ∧ c.block ≤ head)

structure Sweep where
  trieNodes : Table H256 (List UInt8)
  toDelete : List H256
  pendingBytes : ℕ
  stats : RunStats

def Sweep.flush (s : Sweep) : Sweep where
  trieNodes := s.trieNodes.eraseAll s.toDelete
  toDelete := []
  pendingBytes := 0
  stats :=
    { s.stats with
      nodesSwept := s.stats.nodesSwept + s.toDelete.length
      bytesFreed := s.stats.bytesFreed + s.pendingBytes }

def sweepNode (live : Finset H256) (s : Sweep) (e : Σ _ : H256, List UInt8) : Sweep :=
  if e.1 ∈ live then { s with stats := { s.stats with nodesKept := s.stats.nodesKept + 1 } }
  else
    let s := { s with toDelete := s.toDelete ++ [e.1], pendingBytes := s.pendingBytes + e.2.length }
    if config.sweepBatch ≤ s.toDelete.length then s.flush else s

/-- The sweep of `run_once`, over the nodes that are there when it starts. -/
def sweep (live : Finset H256) (trieNodes : Table H256 (List UInt8)) : Sweep :=
  let s := trieNodes.entries.foldl (config.sweepNode live) ⟨trieNodes,[],0,⟨0,0,0⟩⟩
  if s.toDelete.isEmpty then s else s.flush

end RocksDbPrunerConfig

/-- Where `run_once` is. -/
inductive PrunePhase where
  | called
  | nonEmpty
  | inWindow
  | marking (roots : List H256) (mark : Traversal WalkCall H256)
  | aborted
  | swept (roots : List H256) (stats : RunStats)

/-- The database and the retained list, and where the run of the pruner is. What has been stored
at any time, what has been stored since the sweep and the state roots of the blocks that were
committed are remembered next to them. -/
structure PruneState where
  trieNodes : Table H256 (List UInt8)
  retained : List Retained
  phase : PrunePhase
  stored : Table H256 (List UInt8)
  since : List H256
  committed : List H256

inductive PruneAction where
  | prune
  | putTrieNode (hash : H256) (node : List UInt8)
  | commitBlock (stateRoot : H256)
  | retain (checkpoint : Retained)

namespace PruneState
variable (config : RocksDbPrunerConfig) (head : UInt64)

/-- `run_once` is called. -/
def start (trieNodes : Table H256 (List UInt8)) (retained : List Retained) : PruneState :=
  ⟨trieNodes,retained,.called,trieNodes,[],[]⟩

def windowRoots (retained : List Retained) : List H256 :=
  (config.snapshotRetained retained head).map Retained.stateRoot

/-- The next step of `run_once`. -/
def prune (s : PruneState) : PruneState :=
  match s.phase with
  | .called => { s with phase := if s.retained.isEmpty then .aborted else .nonEmpty }
  | .nonEmpty => { s with phase := if (config.snapshotRetained s.retained head).isEmpty then .aborted else .inWindow }
  | .inWindow =>
    let roots := windowRoots config head s.retained
    { s with phase := .marking roots ⟨∅,roots.map (fun root => (root,true))⟩ }
  | .marking roots ⟨live,[]⟩ =>
    let done := config.sweep live s.trieNodes
    { s with trieNodes := done.trieNodes, phase := .swept roots done.stats, since := [] }
  | .marking roots ⟨live,call :: calls⟩ =>
    match walk s.trieNodes live call calls with
    | .error _ => { s with phase := .aborted }
    | .ok mark => { s with phase := .marking roots mark }
  | .aborted => s
  | .swept _ _ => s

def step (s : PruneState) : PruneAction → PruneState × Unit
  | .prune => (s.prune config head,())
  | .putTrieNode hash node =>
    ({ s with
        trieNodes := s.trieNodes.insert hash node
        stored := s.stored.insert hash node
        since := hash :: s.since },())
  | .commitBlock stateRoot => ({ s with committed := stateRoot :: s.committed },())
  | .retain checkpoint => ({ s with retained := s.retained ++ [checkpoint] },())

end PruneState

section Sweeping
variable {config : RocksDbPrunerConfig} {live : Finset H256}
open RocksDbPrunerConfig

theorem lookup_flush (s : Sweep) (h : H256) :
    s.flush.trieNodes.lookup h = if h ∈ s.toDelete then none else s.trieNodes.lookup h :=
  AList.lookup_eraseAll s.trieNodes s.toDelete h

theorem lookup_sweepNode (s : Sweep) (e : Σ _ : H256, List UInt8) (h : H256) :
    (config.sweepNode live s e).flush.trieNodes.lookup h =
      if h = e.1 ∧ e.1 ∉ live then none else s.flush.trieNodes.lookup h := by
  unfold sweepNode
  by_cases hlive : e.1 ∈ live
  · simp [hlive, lookup_flush]
  · dsimp only
    rw [if_neg hlive]
    split
    · simp only [Sweep.flush, AList.lookup_eraseAll]
      by_cases hh : h = e.1
      · simp [hh, hlive]
      · simp [hh]
    · simp only [lookup_flush]
      by_cases hh : h = e.1
      · simp [hh, hlive]
      · simp [hh]

/-- A sweep keeps the live nodes, in whatever batches. -/
theorem lookup_sweep (live : Finset H256) (trieNodes : Table H256 (List UInt8)) (h : H256) :
    (config.sweep live trieNodes).trieNodes.lookup h = if h ∈ live then trieNodes.lookup h else none := by
  have hloop : ∀ (l : List (Σ _ : H256, List UInt8)) (s : Sweep),
      (l.foldl (config.sweepNode live) s).flush.trieNodes.lookup h =
        if h ∈ l.map Sigma.fst ∧ h ∉ live then none else s.flush.trieNodes.lookup h := by
    intro l
    induction l with
    | nil => simp
    | cons e l ih =>
      intro s
      rw [List.foldl_cons, ih, lookup_sweepNode]
      by_cases hh : h = e.1
      · subst hh
        by_cases hlive : e.1 ∈ live
        · simp [hlive]
        · simp [hlive]
      · simp only [List.map_cons, List.mem_cons, hh, false_or, false_and, if_false]
  have hend : (config.sweep live trieNodes).trieNodes.lookup h =
      (trieNodes.entries.foldl (config.sweepNode live) ⟨trieNodes,[],0,⟨0,0,0⟩⟩).flush.trieNodes.lookup h := by
    unfold sweep
    dsimp only
    split
    · rename_i hempty
      rw [lookup_flush, List.isEmpty_iff.mp hempty, if_neg List.not_mem_nil]
    · rfl
  rw [hend, hloop, lookup_flush, if_neg List.not_mem_nil]
  by_cases hlive : h ∈ live
  · simp [hlive]
  · rw [if_neg hlive]
    split
    · rfl
    · rename_i hnot
      have habsent : h ∉ trieNodes.keys := fun hmem => hnot ⟨hmem,hlive⟩
      exact AList.lookup_eq_none.mpr (by simpa [AList.mem_keys] using habsent)

end Sweeping

end ZbxChain
