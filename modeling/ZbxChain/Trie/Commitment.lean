import ZbxChain.Trie.MutableTrie

/-! # The nodes that stand for a Patricia tree

A tree over nibbles is committed to by nodes that refer to their children inline below 32
bytes and by hash otherwise. A trie holds a tree when the encoding of every subtree that
is referred to by its hash is found under that hash.
-/
namespace ZbxChain

abbrev NibbleTree := Patricia (Fin 16) (List UInt8)

/-- How `store_node` refers to a node; an empty one is not referred to. -/
def refOf (P : Platform) : TrieNode → NodeRef
  | .empty => .empty
  | node => if node.encode.length < 32 then .inline node else .hash (P.keccak256 node.encode)

def toNode (P : Platform) : NibbleTree → TrieNode
  | .empty => .empty
  | .leaf path value => .leaf path value
  | .ext path child => .extension path (refOf P (toNode P child))
  | .branch children value => .branch (fun i => refOf P (toNode P (children i))) value

def treeRef (P : Platform) (u : NibbleTree) : NodeRef := refOf P (toNode P u)

def encoding (P : Platform) (u : NibbleTree) : List UInt8 := (toNode P u).encode

def rootHash (P : Platform) : NibbleTree → H256
  | .empty => emptyRoot
  | u => P.keccak256 (encoding P u)

/-- What is assumed of Keccak on a set of encodings: `EMPTY_ROOT` is the hash of the empty
string's encoding, and no two of them collide. They fit in memory. -/
structure Safe (P : Platform) (E : Set (List UInt8)) : Prop where
  empty : P.keccak256 [0x80] = emptyRoot
  mem_empty : [0x80] ∈ E
  inj : Set.InjOn P.keccak256 E
  fits : ∀ b ∈ E, b.length < 2 ^ 63

variable {P : Platform} {E : Set (List UInt8)} {u : NibbleTree}

theorem Safe.congr (hsafe : Safe P E) {P' : Platform} (hhash : P'.keccak256 = P.keccak256) : Safe P' E where
  empty := by rw [hhash, hsafe.empty]
  mem_empty := hsafe.mem_empty
  inj := by rw [hhash]; exact hsafe.inj
  fits := hsafe.fits

@[simp] theorem toNode_empty : toNode P .empty = .empty := rfl
@[simp] theorem toNode_leaf (path : Nibbles) (value : List UInt8) :
    toNode P (.leaf path value) = .leaf path value := rfl
@[simp] theorem toNode_ext (path : Nibbles) (child : NibbleTree) :
    toNode P (.ext path child) = .extension path (treeRef P child) := rfl
@[simp] theorem toNode_branch (children : Fin 16 → NibbleTree) (value : Option (List UInt8)) :
    toNode P (.branch children value) = .branch (fun i => treeRef P (children i)) value := rfl

@[simp] theorem encoding_empty : encoding P .empty = [0x80] := TrieNode.encode_empty

theorem toNode_ne_empty (h : u ≠ .empty) : toNode P u ≠ .empty := by
  cases u with
  | empty => exact absurd rfl h
  | leaf path value => exact nofun
  | ext path child => exact nofun
  | branch children value => exact nofun

@[simp] theorem treeRef_empty : treeRef P .empty = .empty := rfl

theorem treeRef_of_ne (h : u ≠ .empty) : treeRef P u =
    if (encoding P u).length < 32 then .inline (toNode P u)
    else .hash (P.keccak256 (encoding P u)) := by
  unfold treeRef encoding refOf
  cases u with
  | empty => exact absurd rfl h
  | leaf path value => rfl
  | ext path child => rfl
  | branch children value => rfl

theorem treeRef_isEmpty : (treeRef P u).isEmpty = true ↔ u = .empty := by
  constructor
  · intro h
    by_contra hne
    rw [treeRef_of_ne hne] at h
    split at h
    · cases h
    · cases h
  · rintro rfl
    rfl

theorem rootHash_of_ne (h : u ≠ .empty) : rootHash P u = P.keccak256 (encoding P u) := by
  cases u with
  | empty => exact absurd rfl h
  | leaf path value => rfl
  | ext path child => rfl
  | branch children value => rfl

theorem toNode_congr {P' : Platform} (hhash : P'.keccak256 = P.keccak256) (u : NibbleTree) :
    toNode P' u = toNode P u := by
  have href : ∀ node, refOf P' node = refOf P node := by
    intro node
    cases node <;> simp only [refOf, hhash]
  induction u with
  | empty => rfl
  | leaf path value => rfl
  | ext path child ih => simp only [toNode, ih, href]
  | branch children value ih => simp only [toNode, ih, href]

/-- The root hash depends on the hash function alone. -/
theorem rootHash_congr {P' : Platform} (hhash : P'.keccak256 = P.keccak256) (u : NibbleTree) :
    rootHash P' u = rootHash P u := by
  by_cases hne : u = .empty
  · subst hne
    rfl
  · rw [rootHash_of_ne hne, rootHash_of_ne hne, encoding, encoding, toNode_congr hhash, hhash]

theorem encoding_congr {P' : Platform} (hhash : P'.keccak256 = P.keccak256) (u : NibbleTree) :
    encoding P' u = encoding P u := by rw [encoding, encoding, toNode_congr hhash]

/-- All values are non-empty, as the decoder needs them in branches. -/
def Filled (u : NibbleTree) : Prop := ∀ key v, u.get key = some v → v ≠ []

theorem Filled.child {path : Nibbles} (h : Filled (.ext path u)) : Filled u := by
  intro key v hv
  exact h (path ++ key) v (by simp [hv])

theorem Filled.children {children : Fin 16 → NibbleTree} {value : Option (List UInt8)}
    (h : Filled (.branch children value)) (i : Fin 16) : Filled (children i) := by
  intro key v hv
  exact h (i :: key) v hv

theorem proper_refOf {node : TrieNode} (h : node.Proper) : (refOf P node).Proper := by
  have hnode : node ≠ .empty → (if node.encode.length < 32 then NodeRef.inline node
      else .hash (P.keccak256 node.encode)).Proper := by
    intro hne
    split
    · exact ⟨hne,h⟩
    · trivial
  cases node with
  | empty => trivial
  | leaf path value => exact hnode nofun
  | extension path child => exact hnode nofun
  | branch children value => exact hnode nofun

/-- No branch has an empty value, which the decoder would take for none. -/
def Clean : NibbleTree → Prop
  | .empty => True
  | .leaf _ _ => True
  | .ext _ child => Clean child
  | .branch children value => (∀ i, Clean (children i)) ∧ value ≠ some []

theorem Filled.clean (h : Filled u) : Clean u := by
  induction u with
  | empty => trivial
  | leaf path value => trivial
  | ext path child ih => exact ih h.child
  | branch children value ih =>
    refine ⟨fun i => ih i (h.children i),?_⟩
    rintro rfl
    exact h [] [] rfl rfl

theorem proper_toNode (h : Clean u) : (toNode P u).Proper := by
  induction u with
  | empty => trivial
  | leaf path value => trivial
  | ext path child ih => exact proper_refOf (ih h)
  | branch children value ih => exact ⟨fun i => proper_refOf (ih i (h.1 i)),h.2⟩

namespace MutableTrie
variable {DB : Type} [TrieDB DB] {t t' t'' : MutableTrie DB}

/-- The cache takes new nodes in under their hashes; nothing else changes. -/
structure Grows (P : Platform) (t t' : MutableTrie DB) : Prop where
  db : t'.db = t.db
  root : t'.root = t.root
  cache : ∃ added : NodeMap, t'.cache = added ++ t.cache ∧ ∀ e ∈ added, e.1 = P.keccak256 e.2

def Within (E : Set (List UInt8)) (t : MutableTrie DB) : Prop := ∀ e ∈ t.cache, e.2 ∈ E

def Holds (P : Platform) (E : Set (List UInt8)) (t : MutableTrie DB) (encoded : List UInt8) : Prop :=
  encoded ∈ E ∧ t.lookup (P.keccak256 encoded) = some encoded

/-- A subtree that is referred to by its hash is found under it. -/
def Linked (P : Platform) (E : Set (List UInt8)) (t : MutableTrie DB) (u : NibbleTree) : Prop :=
  32 ≤ (encoding P u).length → Holds P E t (encoding P u)

def Stored (P : Platform) (E : Set (List UInt8)) (t : MutableTrie DB) : NibbleTree → Prop
  | .empty => True
  | .leaf _ _ => True
  | .ext _ child => Linked P E t child ∧ Stored P E t child
  | .branch children _ => ∀ i, Linked P E t (children i) ∧ Stored P E t (children i)

/-- A subtree that can be reached through its reference. -/
def Held (P : Platform) (E : Set (List UInt8)) (t : MutableTrie DB) (u : NibbleTree) : Prop :=
  Linked P E t u ∧ Stored P E t u

omit [TrieDB DB] in
theorem Grows.refl (t : MutableTrie DB) : Grows P t t := ⟨rfl,rfl,[],rfl,nofun⟩

omit [TrieDB DB] in
theorem Grows.trans (h : Grows P t t') (h' : Grows P t' t'') : Grows P t t'' := by
  obtain ⟨added,hcache,hkeys⟩ := h.cache
  obtain ⟨added',hcache',hkeys'⟩ := h'.cache
  refine ⟨h'.db.trans h.db,h'.root.trans h.root,added' ++ added,?_,?_⟩
  · rw [hcache', hcache, List.append_assoc]
  · intro e he
    rcases List.mem_append.mp he with he | he
    · exact hkeys' e he
    · exact hkeys e he

omit [TrieDB DB] in
theorem Grows.within (h : Grows P t t') (hw : Within E t') : Within E t := by
  obtain ⟨added,hcache,-⟩ := h.cache
  intro e he
  exact hw e (by rw [hcache]; exact List.mem_append_right _ he)

theorem Holds.grows {encoded : List UInt8} (hsafe : Safe P E) (h : Holds P E t encoded)
    (hg : Grows P t t') (hw : Within E t') : Holds P E t' encoded := by
  obtain ⟨added,hcache,hkeys⟩ := hg.cache
  obtain ⟨hmem,hlook⟩ := h
  have hadded : ∀ e ∈ added, e.1 = P.keccak256 encoded → e.2 = encoded := by
    intro e he heq
    rw [hkeys e he] at heq
    exact hsafe.inj (hw e (by rw [hcache]; exact List.mem_append_left _ he)) hmem heq
  refine ⟨hmem,?_⟩
  unfold lookup at hlook ⊢
  rw [hcache, hg.db]
  clear hkeys hcache
  induction added with
  | nil => exact hlook
  | cons e added ih =>
    obtain ⟨k,b⟩ := e
    rw [List.cons_append, List.lookup_cons]
    by_cases hk : P.keccak256 encoded = k
    · rw [beq_iff_eq.mpr hk]
      exact congrArg some (hadded (k,b) List.mem_cons_self hk.symm)
    · rw [beq_eq_false_iff_ne.mpr hk]
      exact ih (fun e he => hadded e (List.mem_cons_of_mem _ he))

theorem Linked.imp {P' : Platform} (hhash : P'.keccak256 = P.keccak256) {DB' : Type} [TrieDB DB']
    {s : MutableTrie DB'} {E' : Set (List UInt8)} (hlinked : Linked P E t u)
    (h : ∀ encoded, Holds P E t encoded → Holds P' E' s encoded) : Linked P' E' s u := by
  intro hlen
  rw [encoding_congr hhash] at hlen ⊢
  exact h _ (hlinked hlen)

theorem Stored.imp {P' : Platform} (hhash : P'.keccak256 = P.keccak256) {DB' : Type} [TrieDB DB']
    {s : MutableTrie DB'} {E' : Set (List UInt8)} (hstored : Stored P E t u)
    (h : ∀ encoded, Holds P E t encoded → Holds P' E' s encoded) : Stored P' E' s u := by
  induction u with
  | empty => trivial
  | leaf path value => trivial
  | ext path child ih => exact ⟨hstored.1.imp hhash h,ih hstored.2⟩
  | branch children value ih => exact fun i => ⟨(hstored i).1.imp hhash h,ih i (hstored i).2⟩

theorem Linked.grows (hsafe : Safe P E) (h : Linked P E t u) (hg : Grows P t t')
    (hw : Within E t') : Linked P E t' u := fun hlen => (h hlen).grows hsafe hg hw

theorem Stored.grows (hsafe : Safe P E) (h : Stored P E t u) (hg : Grows P t t')
    (hw : Within E t') : Stored P E t' u := h.imp rfl (fun _ hheld => hheld.grows hsafe hg hw)

theorem Held.grows (hsafe : Safe P E) (h : Held P E t u) (hg : Grows P t t') (hw : Within E t') :
    Held P E t' u := ⟨h.1.grows hsafe hg hw,h.2.grows hsafe hg hw⟩

theorem held_empty : Held P E t .empty := by
  refine ⟨fun hlen => ?_,trivial⟩
  have hone : (encoding P .empty).length = 1 := congrArg List.length encoding_empty
  omega

theorem resolve_hash (hsafe : Safe P E) (hclean : Clean u) (hne : u ≠ .empty)
    (h : Holds P E t (encoding P u)) :
    P.keccak256 (encoding P u) ≠ emptyRoot ∧
      t.resolve (.hash (P.keccak256 (encoding P u))) = .ok (toNode P u) := by
  have hroot : P.keccak256 (encoding P u) ≠ emptyRoot := by
    intro heq
    rw [← hsafe.empty] at heq
    exact TrieNode.encode_ne (toNode_ne_empty hne) (hsafe.inj h.1 hsafe.mem_empty heq)
  refine ⟨hroot,?_⟩
  rw [resolve, if_neg hroot, h.2]
  exact TrieNode.decode_encode_node (proper_toNode hclean) (hsafe.fits _ h.1)

/-- A reference to a stored tree resolves to its node. -/
theorem resolve_treeRef (hsafe : Safe P E) (hclean : Clean u) (h : Linked P E t u) :
    t.resolve (treeRef P u) = .ok (toNode P u) := by
  by_cases hne : u = .empty
  · subst hne
    rfl
  · rw [treeRef_of_ne hne]
    split
    · rfl
    · rename_i hlen
      exact (resolve_hash hsafe hclean hne (h (Nat.le_of_not_lt hlen))).2

omit [TrieDB DB] in
theorem grows_storeNode (t : MutableTrie DB) (node : TrieNode) : Grows P t (t.storeNode P node).1 := by
  unfold storeNode
  dsimp only
  split
  · exact Grows.refl t
  · exact ⟨rfl,rfl,[(P.keccak256 node.encode,node.encode)],rfl,by simp⟩

/-- Storing a node gives its reference and keeps it readable. -/
theorem storeNode_toNode (hsafe : Safe P E) (hne : u ≠ .empty) (h : Stored P E t u)
    (hw : Within E (t.storeNode P (toNode P u)).1) :
    (t.storeNode P (toNode P u)).2 = treeRef P u ∧ Held P E (t.storeNode P (toNode P u)).1 u := by
  have hg := grows_storeNode (P := P) t (toNode P u)
  refine ⟨?_,?_,h.grows hsafe hg hw⟩
  · rw [treeRef_of_ne hne]
    unfold storeNode encoding
    dsimp only
    split
    · rfl
    · rfl
  · intro hlen
    have hlong : ¬ (toNode P u).encode.length < 32 := Nat.not_lt.mpr hlen
    unfold storeNode at hw ⊢
    simp only [if_neg hlong] at hw ⊢
    refine ⟨hw _ List.mem_cons_self,?_⟩
    simp only [lookup, encoding, List.lookup_cons, beq_self_eq_true]

end MutableTrie

end ZbxChain
