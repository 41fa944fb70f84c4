import ZbxChain.Crypto.Platform
import ZbxChain.Trie.Node

/-! # `zbx_trie::trie`: the mutable trie over a node database

A hash map of nodes is the log of its insertions, the newest in front, of which a lookup
sees the first entry for its key. The recursive operations carry a bound on their depth:
every level of a trie takes at least one nibble off the key.
-/
namespace ZbxChain

def emptyRoot : H256 := 0x56e81f171bcc55a6ff8345e692c0f86e5b48e01b996cadc001622fb5e363b421

abbrev NodeMap := List (H256 × List UInt8)

def NodeMap.current : NodeMap → NodeMap
  | [] => []
  | e :: m => e :: (current m).filter (fun e' => decide (e'.1 ≠ e.1))

class TrieDB (DB : Type) where
  get : DB → H256 → Except TrieError (Option (List UInt8))
  insert : DB → H256 → List UInt8 → DB × Except TrieError Unit

structure MemoryTrieDB where
  store : NodeMap
  deriving DecidableEq

instance : TrieDB MemoryTrieDB where
  get db hash := .ok (db.store.lookup hash)
  insert db hash value := (⟨(hash,value) :: db.store⟩, .ok ())

structure MutableTrie (DB : Type) where
  root : H256
  db : DB
  cache : NodeMap
  deriving DecidableEq

def NodeRef.isEmpty : NodeRef → Bool
  | .empty => true
  | _ => false

namespace MutableTrie
variable (P : Platform) {DB : Type} [TrieDB DB]

def new (db : DB) : MutableTrie DB := ⟨emptyRoot,db,[]⟩

def fromRoot (root : H256) (db : DB) : MutableTrie DB := ⟨root,db,[]⟩

def storeNode (t : MutableTrie DB) (node : TrieNode) : MutableTrie DB × NodeRef :=
  let encoded := node.encode
  if encoded.length < 32 then (t, .inline node)
  else
    let hash := P.keccak256 encoded
    ({ t with cache := (hash,encoded) :: t.cache }, .hash hash)

/-- The bytes under a hash: the cache first, then what the database gives without an error. -/
def lookup (t : MutableTrie DB) (h : H256) : Option (List UInt8) :=
  match t.cache.lookup h with
  | some bytes => some bytes
  | none => (TrieDB.get t.db h).toOption.join

def resolve (t : MutableTrie DB) : NodeRef → Except Fault TrieNode
  | .empty => .ok .empty
  | .inline node => .ok node
  | .hash h =>
    if h = emptyRoot then .ok .empty
    else match t.lookup h with
      | none => .error (.error (.missingNode h.debug))
      | some bytes => TrieNode.decode bytes

def commitRoot (t : MutableTrie DB) (node : TrieNode) : MutableTrie DB × H256 :=
  match node with
  | .empty => (t, emptyRoot)
  | node =>
    let encoded := node.encode
    let hash := P.keccak256 encoded
    ({ t with cache := (hash,encoded) :: t.cache }, hash)

def noChildren : Fin 16 → NodeRef := fun _ => .empty

/-- A branch below the first `cp` nibbles of the key, if there are any. -/
def wrapBranch (t : MutableTrie DB) (keyRemaining : Nibbles) (cp : ℕ) (branch : TrieNode) :
    MutableTrie DB × TrieNode :=
  if 0 < cp then
    let (t,ref) := t.storeNode P branch
    (t,.extension (keyRemaining.sub 0 cp) ref)
  else (t,branch)

/-- The last part of a split: the new key goes below the branch or is its value. -/
def placeKey (t : MutableTrie DB) (keyRemaining : Nibbles) (cp : ℕ) (children : Fin 16 → NodeRef)
    (branchValue : Option (List UInt8)) (value : List UInt8) : MutableTrie DB × TrieNode :=
  if cp = keyRemaining.length then t.wrapBranch P keyRemaining cp (.branch children (some value))
  else
    let newLeaf := .leaf (keyRemaining.sub (cp + 1) (keyRemaining.length - cp - 1)) value
    let (t,ref) := t.storeNode P newLeaf
    t.wrapBranch P keyRemaining cp
      (.branch (Function.update children (keyRemaining.nibbleAt cp) ref) branchValue)

def insertNode : ℕ → MutableTrie DB → TrieNode → Nibbles → ℕ → List UInt8 →
    MutableTrie DB × Except Fault TrieNode
  | 0, t, _, _, _, _ => (t, .error .fuel)
  | fuel + 1, t, node, key, depth, value =>
    let keyRemaining := key.slice depth
    match node with
    | .empty => (t, .ok (.leaf keyRemaining value))
    | .leaf path oldVal =>
      let cp := keyRemaining.commonPrefixLen path
      if cp = path.length ∧ cp = keyRemaining.length then (t, .ok (.leaf path value))
      else
        -- the existing leaf
        let (t,children,branchValue) :=
          if cp = path.length then (t,noChildren,some oldVal)
          else
            let (t,ref) := t.storeNode P (.leaf (path.sub (cp + 1) (path.length - cp - 1)) oldVal)
            (t,Function.update noChildren (path.nibbleAt cp) ref,none)
        let (t,node) := t.placeKey P keyRemaining cp children branchValue value
        (t, .ok node)
    | .extension path child =>
      let cp := keyRemaining.commonPrefixLen path
      if cp = path.length then
        match t.resolve child with
        | .error e => (t, .error e)
        | .ok childNode =>
          match insertNode fuel t childNode key (depth + cp) value with
          | (t, .error e) => (t, .error e)
          | (t, .ok newChild) =>
            let (t,ref) := t.storeNode P newChild
            (t, .ok (.extension path ref))
      else
        -- the rest of the path still leads to the child
        let extRemaining :=
          if cp + 1 < path.length then path.sub (cp + 1) (path.length - cp - 1) else []
        let (t,ref) :=
          if extRemaining = [] then (t,child) else t.storeNode P (.extension extRemaining child)
        let (t,node) := t.placeKey P keyRemaining cp
          (Function.update noChildren (path.nibbleAt cp) ref) none value
        (t, .ok node)
    | .branch children branchVal =>
      if depth = key.length then (t, .ok (.branch children (some value)))
      else
        let idx := key.nibbleAt depth
        match t.resolve (children idx) with
        | .error e => (t, .error e)
        | .ok childNode =>
          match insertNode fuel t childNode key (depth + 1) value with
          | (t, .error e) => (t, .error e)
          | (t, .ok newChild) =>
            let (t,ref) := t.storeNode P newChild
            (t, .ok (.branch (Function.update children idx ref) branchVal))

def insert (t : MutableTrie DB) (key value : List UInt8) : MutableTrie DB × Except Fault Unit :=
  let nibbles := Nibbles.fromBytes key
  let oldRoot := if t.root = emptyRoot then .ok .empty else t.resolve (.hash t.root)
  match oldRoot with
  | .error e => (t, .error e)
  | .ok node =>
    match t.insertNode P (nibbles.length + 1) node nibbles 0 value with
    | (t, .error e) => (t, .error e)
    | (t, .ok newRoot) =>
      let (t,root) := t.commitRoot P newRoot
      ({ t with root := root }, .ok ())

def getNode : ℕ → MutableTrie DB → NodeRef → Nibbles → ℕ → Except Fault (Option (List UInt8))
  | 0, _, _, _, _ => .error .fuel
  | fuel + 1, t, r, key, depth => do
    let node ← t.resolve r
    let keyRemaining := key.slice depth
    match node with
    | .empty => pure none
    | .leaf path value =>
      if keyRemaining.commonPrefixLen path = path.length ∧ path.length = keyRemaining.length then
        pure (some value)
      else pure none
    | .extension path child =>
      let cp := keyRemaining.commonPrefixLen path
      if cp < path.length then pure none else getNode fuel t child key (depth + cp)
    | .branch children value =>
      if depth = key.length then pure value
      else getNode fuel t (children (key.nibbleAt depth)) key (depth + 1)

def get (t : MutableTrie DB) (key : List UInt8) : Except Fault (Option (List UInt8)) :=
  if t.root = emptyRoot then .ok none
  else
    let nibbles := Nibbles.fromBytes key
    t.getNode (nibbles.length + 1) (.hash t.root) nibbles 0

def maybeCollapseBranch (t : MutableTrie DB) (children : Fin 16 → NodeRef)
    (value : Option (List UInt8)) : MutableTrie DB × Except Fault TrieNode :=
  let nonEmpty := (List.finRange 16).filter (fun i => !(children i).isEmpty)
  match nonEmpty, value with
  | [], none => (t, .ok .empty)
  | [], some v => (t, .ok (.leaf [] v))
  | [idx], none =>
    match t.resolve (children idx) with
    | .error e => (t, .error e)
    | .ok childNode =>
      let front := Nibbles.single idx
      match childNode with
      | .leaf path v => (t, .ok (.leaf (front.concat path) v))
      | .extension path child => (t, .ok (.extension (front.concat path) child))
      | .branch grandchildren v =>
        let (t,ref) := t.storeNode P (.branch grandchildren v)
        (t, .ok (.extension front ref))
      | .empty => (t, .ok .empty)
  | _, _ => (t, .ok (.branch children value))

def deleteNode : ℕ → MutableTrie DB → TrieNode → Nibbles → ℕ →
    MutableTrie DB × Except Fault (TrieNode × Bool)
  | 0, t, _, _, _ => (t, .error .fuel)
  | fuel + 1, t, node, key, depth =>
    let keyRemaining := key.slice depth
    match node with
    | .empty => (t, .ok (.empty,false))
    | .leaf path value =>
      if keyRemaining.length = path.length ∧ keyRemaining.commonPrefixLen path = path.length then
        (t, .ok (.empty,true))
      else (t, .ok (.leaf path value,false))
    | .extension path child =>
      let cp := keyRemaining.commonPrefixLen path
      if cp ≠ path.length then (t, .ok (.extension path child,false))
      else
        match t.resolve child with
        | .error e => (t, .error e)
        | .ok childNode =>
          match deleteNode fuel t childNode key (depth + path.length) with
          | (t, .error e) => (t, .error e)
          | (t, .ok (_,false)) => (t, .ok (.extension path child,false))
          | (t, .ok (newChild,true)) =>
            match newChild with
            | .empty => (t, .ok (.empty,true))
            | .leaf path' value => (t, .ok (.leaf (path.concat path') value,true))
            | .extension path' grandchild => (t, .ok (.extension (path.concat path') grandchild,true))
            | .branch children value =>
              let (t,ref) := t.storeNode P (.branch children value)
              (t, .ok (.extension path ref,true))
    | .branch children branchVal =>
      if depth = key.length then
        if branchVal.isSome then
          match t.maybeCollapseBranch P children none with
          | (t, .error e) => (t, .error e)
          | (t, .ok collapsed) => (t, .ok (collapsed,true))
        else (t, .ok (.branch children none,false))
      else
        let idx := key.nibbleAt depth
        match t.resolve (children idx) with
        | .error e => (t, .error e)
        | .ok childNode =>
          match deleteNode fuel t childNode key (depth + 1) with
          | (t, .error e) => (t, .error e)
          | (t, .ok (_,false)) => (t, .ok (.branch children branchVal,false))
          | (t, .ok (newChild,true)) =>
            let (t,ref) := match newChild with
              | .empty => (t,NodeRef.empty)
              | other => t.storeNode P other
            match t.maybeCollapseBranch P (Function.update children idx ref) branchVal with
            | (t, .error e) => (t, .error e)
            | (t, .ok collapsed) => (t, .ok (collapsed,true))

def delete (t : MutableTrie DB) (key : List UInt8) : MutableTrie DB × Except Fault Bool :=
  if t.root = emptyRoot then (t, .ok false)
  else
    let nibbles := Nibbles.fromBytes key
    match t.resolve (.hash t.root) with
    | .error e => (t, .error e)
    | .ok oldRoot =>
      match t.deleteNode P (nibbles.length + 1) oldRoot nibbles 0 with
      | (t, .error e) => (t, .error e)
      | (t, .ok (_,false)) => (t, .ok false)
      | (t, .ok (newRoot,true)) =>
        let (t,root) := t.commitRoot P newRoot
        ({ t with root := root }, .ok true)

/-- The loop of `commit`, up to the first error. -/
def flush (db : DB) : NodeMap → DB × Except TrieError Unit
  | [] => (db, .ok ())
  | (hash,bytes) :: rest =>
    match TrieDB.insert db hash bytes with
    | (db, .error e) => (db, .error e)
    | (db, .ok ()) => flush db rest

/-- `commit`; the drained cache is empty even after an error. -/
def commit (t : MutableTrie DB) : MutableTrie DB × Except Fault H256 :=
  match flush t.db (P.iterOrder t.cache.current) with
  | (db, .error e) => ({ t with db := db, cache := [] }, .error (.error e))
  | (db, .ok ()) => ({ t with db := db, cache := [] }, .ok t.root)

section Equations
variable {P} {t : MutableTrie DB} {fuel depth : ℕ} {key path : Nibbles} {v : List UInt8}
  {child : NodeRef} {childNode : TrieNode} {refs : Fin 16 → NodeRef} {branchVal : Option (List UInt8)}

theorem insertNode_branch_of_end (h : depth = key.length) :
    t.insertNode P (fuel + 1) (.branch refs branchVal) key depth v =
      (t, .ok (.branch refs (some v))) := by
  simp only [insertNode, if_pos h]

theorem insertNode_branch_of_ne {newChild : TrieNode} (h : depth ≠ key.length)
    (hchild : t.resolve (refs (key.nibbleAt depth)) = .ok childNode)
    {r : MutableTrie DB × Except Fault TrieNode}
    (hcall : t.insertNode P fuel childNode key (depth + 1) v = r) (hok : r.2 = .ok newChild) :
    t.insertNode P (fuel + 1) (.branch refs branchVal) key depth v =
      ((r.1.storeNode P newChild).1, .ok (.branch (Function.update refs (key.nibbleAt depth)
        (r.1.storeNode P newChild).2) branchVal)) := by
  obtain ⟨t',r⟩ := r
  cases hok
  simp only [insertNode, if_neg h, hchild, hcall]

/-- A key that leaves the path of an extension is not there. -/
theorem deleteNode_ext_of_ne (h : (key.slice depth).commonPrefixLen path ≠ path.length) :
    t.deleteNode P (fuel + 1) (.extension path child) key depth =
      (t, .ok (.extension path child,false)) := by
  simp only [deleteNode, if_pos h]

theorem deleteNode_ext_of_error (h : (key.slice depth).commonPrefixLen path = path.length)
    {e : Fault} (hchild : t.resolve child = .error e) :
    t.deleteNode P (fuel + 1) (.extension path child) key depth = (t, .error e) := by
  simp only [deleteNode, h, ne_eq, not_true_eq_false, if_false, hchild]

theorem deleteNode_branch_of_error (h : depth ≠ key.length) {e : Fault}
    (hchild : t.resolve (refs (key.nibbleAt depth)) = .error e) :
    t.deleteNode P (fuel + 1) (.branch refs branchVal) key depth = (t, .error e) := by
  simp only [deleteNode, if_neg h, hchild]

end Equations

end MutableTrie

end ZbxChain
