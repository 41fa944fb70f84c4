import ZbxChain.Trie.Proof

/-! # Proofs that are made

`prove` collects the nodes on the path of a key. A value of 32 bytes or more makes every node
above it one that is referred to by its hash, so the verifier follows the proof to the end, be it
the value or the place where the key is missing.
-/
namespace ZbxChain

structure MerkleProof where
  key : List UInt8
  value : Option (List UInt8)
  nodes : List (List UInt8)

def MerkleProof.verify (P : Platform) (p : MerkleProof) (root : H256) : Option Bool :=
  verifyProof P root p.key p.value p.nodes

namespace MutableTrie
variable {DB : Type} [TrieDB DB]

abbrev Found := Option (List UInt8) × List (List UInt8)

/-- A round of the loop of `prove` at a node, with the rounds that follow. -/
def visitNode (next : NodeRef → ℕ → Except Fault Found) (nibbles : Nibbles) (depth : ℕ) :
    TrieNode → Except Fault Found
  | .empty => .ok (none,[])
  | .leaf path value =>
    let rest := nibbles.slice depth
    .ok (if rest.length = path.length ∧ rest.commonPrefixLen path = path.length then some value else none,[])
  | .extension path child =>
    let cp := (nibbles.slice depth).commonPrefixLen path
    if cp ≠ path.length then .ok (none,[]) else next child (depth + cp)
  | .branch children value =>
    if depth = nibbles.length then .ok (value,[]) else next (children (nibbles.nibbleAt depth)) (depth + 1)

/-- The loop of `prove` from a reference on: the value and the nodes. -/
def proveFrom (t : MutableTrie DB) (nibbles : Nibbles) : ℕ → NodeRef → ℕ → Except Fault Found
  | 0, _, _ => .error .fuel
  | fuel + 1, current, depth =>
    match current with
    | .empty => .ok (none,[])
    | .inline node => visitNode (proveFrom t nibbles fuel) nibbles depth node
    | .hash h =>
      if h = emptyRoot then .ok (none,[])
      else match t.lookup h with
        | none => .error (.error (.missingNode h.debug))
        | some bytes =>
          match TrieNode.decode bytes with
          | .error e => .error e
          | .ok node =>
            match visitNode (proveFrom t nibbles fuel) nibbles depth node with
            | .error e => .error e
            | .ok (value,nodes) => .ok (value,bytes :: nodes)

def prove (t : MutableTrie DB) (key : List UInt8) : Except Fault MerkleProof :=
  match t.proveFrom (Nibbles.fromBytes key) ((Nibbles.fromBytes key).length + 1) (.hash t.root) 0 with
  | .error e => .error e
  | .ok (value,nodes) => .ok ⟨key,value,nodes⟩

end MutableTrie

section Paths
variable (P : Platform)

/-- What a subtree adds to a proof: nothing where it stands inline. -/
def own (u : NibbleTree) : List (List UInt8) :=
  if (encoding P u).length < 32 then [] else [encoding P u]

/-- The nodes of a proof below the root node. -/
def below : NibbleTree → Nibbles → List (List UInt8)
  | .empty, _ => []
  | .leaf _ _, _ => []
  | .ext path child, key =>
    match key.dropPrefix? path with
    | none => []
    | some rest => own P child ++ below child rest
  | .branch _ _, [] => []
  | .branch children _, a :: rest => own P (children a) ++ below (children a) rest

variable {P} {E : Set (List UInt8)} {u : NibbleTree} {DB : Type} [TrieDB DB] {t : MutableTrie DB}
  {nibbles : Nibbles} {v : List UInt8}

/-- A node with a long value below it is referred to by its hash. -/
theorem long_of_get {key : Nibbles} (hget : u.get key = some v) (hv : 32 ≤ v.length) :
    32 ≤ (encoding P u).length := by
  have hitem : ∀ {u : NibbleTree} {item : List UInt8}, u ≠ .empty → item ∈ (toNode P u).items →
      32 ≤ item.length → 32 ≤ (encoding P u).length := by
    intro u item hne hmem hlen
    have hlt := TrieNode.item_lt (toNode_ne_empty hne) hmem
    exact (hlen.trans_lt hlt).le
  have hvalue : 32 ≤ (RlpStream.stringBytes v).length := hv.trans (Rlp.length_le_stringBytes v)
  have href : ∀ child : NibbleTree, 32 ≤ (encoding P child).length → 32 ≤ (treeRef P child).bytes.length := by
    intro child hlong
    have hne : child ≠ .empty := by
      rintro rfl
      simp at hlong
    rw [treeRef_of_ne hne, if_neg (Nat.not_lt.mpr hlong)]
    have hhash := Rlp.length_le_stringBytes (P.keccak256 (encoding P child)).asBytes
    rw [H256.length_asBytes] at hhash
    exact hhash
  induction u generalizing key with
  | empty => cases hget
  | leaf path value =>
    rw [Patricia.get_leaf] at hget
    split at hget
    · cases hget
      exact hitem nofun (List.mem_cons_of_mem _ List.mem_cons_self) hvalue
    · cases hget
  | ext path child ih =>
    rw [Patricia.get_ext] at hget
    obtain ⟨rest,-,hrest⟩ := Option.bind_eq_some_iff.mp hget
    exact hitem nofun (List.mem_cons_of_mem _ List.mem_cons_self) (href child (ih hrest))
  | branch children value ih =>
    cases key with
    | nil =>
      rw [Patricia.get_branch_nil] at hget
      subst hget
      exact hitem nofun (List.mem_append_right _ List.mem_cons_self) hvalue
    | cons a rest =>
      rw [Patricia.get_branch_cons] at hget
      refine hitem nofun (List.mem_append_left _ ?_) (href (children a) (ih a hget))
      exact List.mem_map.mpr ⟨a,List.mem_finRange a,rfl⟩

theorem own_of_long (hlong : 32 ≤ (encoding P u).length) : own P u = [encoding P u] :=
  if_neg (Nat.not_lt.mpr hlong)

theorem treeRef_of_long (hlong : 32 ≤ (encoding P u).length) :
    treeRef P u = .hash (P.keccak256 (encoding P u)) := by
  have hne : u ≠ .empty := by
    rintro rfl
    simp at hlong
  rw [treeRef_of_ne hne, if_neg (Nat.not_lt.mpr hlong)]

/-- Every node on the path of a key, below the root node, is referred to by its hash. -/
def Followed (P : Platform) : NibbleTree → Nibbles → Prop
  | .empty, _ => True
  | .leaf _ _, _ => True
  | .ext path child, key =>
    match key.dropPrefix? path with
    | none => True
    | some rest => 32 ≤ (encoding P child).length ∧ Followed P child rest
  | .branch _ _, [] => True
  | .branch children _, a :: rest =>
    children a = .empty ∨ 32 ≤ (encoding P (children a)).length ∧ Followed P (children a) rest

theorem followed_of_get {key : Nibbles} (hget : u.get key = some v) (hv : 32 ≤ v.length) : Followed P u key := by
  induction u generalizing key with
  | empty => trivial
  | leaf path value => trivial
  | ext path child ih =>
    rw [Patricia.get_ext] at hget
    obtain ⟨rest,hdropped,hrest⟩ := Option.bind_eq_some_iff.mp hget
    rw [Followed, hdropped]
    exact ⟨long_of_get hrest hv,ih hrest⟩
  | branch children value ih =>
    cases key with
    | nil => trivial
    | cons a rest => exact Or.inr ⟨long_of_get hget hv,ih a hget⟩

theorem long_of_values (hnormal : u.Normal) (hne : u ≠ .empty)
    (hlong : ∀ key v, u.get key = some v → 32 ≤ v.length) : 32 ≤ (encoding P u).length := by
  obtain ⟨key,hkey⟩ := hnormal.has hne
  obtain ⟨v,hv⟩ := Option.ne_none_iff_exists'.mp hkey
  exact long_of_get hv (hlong key v hv)

theorem followed_of_long (hnormal : u.Normal) (hlong : ∀ key v, u.get key = some v → 32 ≤ v.length)
    (key : Nibbles) : Followed P u key := by
  induction u generalizing key with
  | empty => trivial
  | leaf path value => trivial
  | ext path child ih =>
    have hchild : ∀ key v, child.get key = some v → 32 ≤ v.length := by
      intro key v hv
      exact hlong (path ++ key) v (by simp [hv])
    rw [Followed]
    split
    · trivial
    · exact ⟨long_of_values hnormal.2.2 hnormal.2.1.ne_empty hchild,ih hnormal.2.2 hchild _⟩
  | branch children value ih =>
    cases key with
    | nil => trivial
    | cons a rest =>
      have hchild : ∀ key v, (children a).get key = some v → 32 ≤ v.length :=
        fun key v hv => hlong (a :: key) v hv
      by_cases hne : children a = .empty
      · exact Or.inl hne
      · exact Or.inr ⟨long_of_values (hnormal.1 a) hne hchild,ih a (hnormal.1 a) hchild rest⟩

/-- The nodes on a path that can be followed are accepted as a proof of what is there. -/
theorem verifyNodes_complete (hsafe : Safe P E) (hfilled : Filled u) (hmem : encoding P u ∈ E)
    (hstored : t.Stored P E u) {depth : ℕ} (hdepth : depth ≤ nibbles.length)
    (hfollowed : Followed P u (nibbles.drop depth)) :
    verifyNodes P nibbles (u.get (nibbles.drop depth)) (P.keccak256 (encoding P u)) depth
      (encoding P u :: below P u (nibbles.drop depth)) = some true := by
  have hdecode : TrieNode.decode (encoding P u) = .ok (toNode P u) :=
    TrieNode.decode_encode_node (proper_toNode hfilled.clean) (hsafe.fits _ hmem)
  have hslice : nibbles.slice depth = nibbles.drop depth := rfl
  induction u generalizing depth with
  | empty =>
    rw [verifyNodes, if_neg (not_not.mpr rfl), hdecode]
    rfl
  | leaf path value =>
    rw [verifyNodes, if_neg (not_not.mpr rfl), hdecode, Patricia.get_leaf]
    simp only [toNode_leaf, hslice, leaf_path_iff hdepth]
    by_cases hkey : nibbles.drop depth = path
    · rw [if_pos hkey, if_pos hkey]
      simp
    · rw [if_neg hkey, if_neg hkey]
      rfl
  | ext path child ih =>
    have hdrop := Nibbles.dropPrefix?_eq (nibbles.drop depth) path
    obtain ⟨hle,-⟩ := Nibbles.commonPrefixLen_le (nibbles.drop depth) path
    rw [List.length_drop] at hle
    rw [verifyNodes, if_neg (not_not.mpr rfl), hdecode, Patricia.get_ext]
    simp only [toNode_ext, hslice]
    by_cases hall : Nibbles.commonPrefixLen (nibbles.drop depth) path = path.length
    · rw [if_pos hall, List.drop_drop] at hdrop
      rw [Followed, hdrop] at hfollowed
      obtain ⟨hlong,hrest⟩ := hfollowed
      have hmem' := (hstored.1 hlong).1
      have hbelow : below P (.ext path child) (nibbles.drop depth) =
          encoding P child :: below P child (nibbles.drop (depth + path.length)) := by
        rw [below, hdrop]
        dsimp only
        rw [own_of_long hlong, List.singleton_append]
      rw [hall] at hle
      rw [hdrop, hbelow]
      simp only [hall, ne_eq, not_true_eq_false, if_false, treeRef_of_long hlong, Option.bind_some]
      exact ih hfilled.child hmem' hstored.2 (by omega) hrest
        (TrieNode.decode_encode_node (proper_toNode hfilled.child.clean) (hsafe.fits _ hmem')) rfl
    · rw [if_neg hall] at hdrop
      rw [if_pos hall, hdrop]
      rfl
  | branch children value ih =>
    rw [verifyNodes, if_neg (not_not.mpr rfl), hdecode]
    simp only [toNode_branch]
    by_cases hend : depth = nibbles.length
    · rw [if_pos hend, hend, List.drop_length]
      simp [below]
    · have hlt : depth < nibbles.length := Nat.lt_of_le_of_ne hdepth hend
      rw [Nibbles.drop_eq_cons hlt] at hfollowed
      rw [if_neg hend, Nibbles.drop_eq_cons hlt, Patricia.get_branch_cons, below]
      rcases hfollowed with hempty | ⟨hlong,hrest⟩
      · rw [hempty, treeRef_empty]
        rfl
      · have hmem' := ((hstored (nibbles.nibbleAt depth)).1 hlong).1
        rw [treeRef_of_long hlong, own_of_long hlong, List.singleton_append]
        exact ih _ (hfilled.children _) hmem' (hstored _).2 hlt hrest
          (TrieNode.decode_encode_node (proper_toNode (hfilled.children _).clean) (hsafe.fits _ hmem')) rfl

end Paths

section Proving
variable {P : Platform} {E : Set (List UInt8)} {u : NibbleTree} {DB : Type} [TrieDB DB] {t : MutableTrie DB}
  {nibbles : Nibbles} {v key : List UInt8}

/-- A round answers for a subtree if the next ones answer for its children. -/
theorem visitNode_spec (next : NodeRef → ℕ → Except Fault MutableTrie.Found) (hnormal : u.Normal)
    (hfilled : Filled u) (hstored : t.Stored P E u) {depth : ℕ} (hdepth : depth ≤ nibbles.length)
    (hnext : ∀ child depth', depth < depth' → depth' ≤ nibbles.length → child.Normal → Filled child →
      t.Linked P E child → t.Stored P E child → next (treeRef P child) depth' =
        .ok (child.get (nibbles.drop depth'),own P child ++ below P child (nibbles.drop depth'))) :
    MutableTrie.visitNode next nibbles depth (toNode P u) =
      .ok (u.get (nibbles.drop depth),below P u (nibbles.drop depth)) := by
  have hslice : nibbles.slice depth = nibbles.drop depth := rfl
  cases u with
  | empty => rfl
  | leaf path value =>
    have hkey := Nibbles.eq_path_iff (nibbles.drop depth) path
    simp only [toNode_leaf, MutableTrie.visitNode, hslice, Patricia.get_leaf, below]
    by_cases hsame : nibbles.drop depth = path
    · obtain ⟨hall,hlen⟩ := hkey.mpr hsame
      rw [if_pos ⟨hlen.symm,hall⟩, if_pos hsame]
    · rw [if_neg (fun hboth => hsame (hkey.mp ⟨hboth.2,hboth.1.symm⟩)), if_neg hsame]
  | ext path child =>
    have hdrop := Nibbles.dropPrefix?_eq (nibbles.drop depth) path
    obtain ⟨hle,-⟩ := Nibbles.commonPrefixLen_le (nibbles.drop depth) path
    rw [List.length_drop] at hle
    simp only [toNode_ext, MutableTrie.visitNode, hslice, Patricia.get_ext, below]
    by_cases hall : Nibbles.commonPrefixLen (nibbles.drop depth) path = path.length
    · have hpath := List.length_pos_iff.mpr hnormal.1
      rw [if_pos hall, List.drop_drop] at hdrop
      rw [hall] at hle ⊢
      rw [if_neg (not_not.mpr rfl), hdrop]
      exact hnext child (depth + path.length) (by omega) (by omega) hnormal.2.2 hfilled.child hstored.1 hstored.2
    · rw [if_neg hall] at hdrop
      rw [if_pos hall, hdrop]
      rfl
  | branch children value =>
    simp only [toNode_branch, MutableTrie.visitNode]
    by_cases hend : depth = nibbles.length
    · rw [if_pos hend, hend, List.drop_length]
      rfl
    · have hlt : depth < nibbles.length := Nat.lt_of_le_of_ne hdepth hend
      rw [if_neg hend, Nibbles.drop_eq_cons hlt, Patricia.get_branch_cons]
      exact hnext (children (nibbles.nibbleAt depth)) (depth + 1) (Nat.lt_succ_self _) hlt (hnormal.1 _)
        (hfilled.children _) (hstored _).1 (hstored _).2

theorem proveFrom_spec (hsafe : Safe P E) {fuel depth : ℕ} (hdepth : depth ≤ nibbles.length)
    (hfuel : nibbles.length - depth < fuel) (hnormal : u.Normal) (hfilled : Filled u) (hlinked : t.Linked P E u)
    (hstored : t.Stored P E u) : t.proveFrom nibbles fuel (treeRef P u) depth =
      .ok (u.get (nibbles.drop depth),own P u ++ below P u (nibbles.drop depth)) := by
  induction fuel generalizing u depth with
  | zero => omega
  | succ fuel ih =>
    have hvisit := visitNode_spec (P := P) (E := E) (t := t) (t.proveFrom nibbles fuel) hnormal hfilled hstored
      hdepth (fun child depth' hlt hdepth' => ih hdepth' (by omega))
    by_cases hne : u = .empty
    · subst hne
      have hown : own P .empty = [] := by simp [own]
      rw [hown]
      rfl
    · by_cases hshort : (encoding P u).length < 32
      · rw [treeRef_of_ne hne, if_pos hshort, own, if_pos hshort]
        exact hvisit
      · have hlong := Nat.le_of_not_lt hshort
        have hmem := (hlinked hlong).1
        rw [treeRef_of_long hlong, own_of_long hlong, MutableTrie.proveFrom, if_neg (MutableTrie.resolve_hash hsafe hfilled.clean hne (hlinked hlong)).1, (hlinked hlong).2]
        dsimp only
        rw [show TrieNode.decode (encoding P u) = .ok (toNode P u) from
          TrieNode.decode_encode_node (proper_toNode hfilled.clean) (hsafe.fits _ hmem)]
        dsimp only
        rw [hvisit]
        rfl

def proofNodes (P : Platform) : NibbleTree → Nibbles → List (List UInt8)
  | .empty, _ => []
  | u, nibbles => encoding P u :: below P u nibbles

theorem proofNodes_of_ne (hne : u ≠ .empty) : proofNodes P u nibbles = encoding P u :: below P u nibbles := by
  cases u with
  | empty => exact absurd rfl hne
  | leaf path value => rfl
  | ext path child => rfl
  | branch children value => rfl

theorem MutableTrie.Represents.prove (hsafe : Safe P E) (hr : t.Represents P E u) (key : List UInt8) :
    t.prove key = .ok ⟨key,u.get (Nibbles.fromBytes key),proofNodes P u (Nibbles.fromBytes key)⟩ := by
  have hroot := hr.root
  by_cases hne : u = .empty
  · subst hne
    have hempty : t.root = emptyRoot := hroot
    simp [MutableTrie.prove, MutableTrie.proveFrom, hempty, proofNodes]
  · rw [rootHash_of_ne hne] at hroot
    have hheld := hr.top hne
    have hvisit := visitNode_spec (P := P) (E := E) (t := t)
      (t.proveFrom (Nibbles.fromBytes key) (Nibbles.fromBytes key).length) hr.normal hr.filled hr.stored
      (Nat.zero_le _) (fun child depth' hlt hdepth' hn hf hl hs => proveFrom_spec hsafe hdepth' (by omega) hn hf hl hs)
    rw [MutableTrie.prove, MutableTrie.proveFrom, hroot, if_neg (MutableTrie.resolve_hash hsafe hr.filled.clean hne hheld).1,
      hheld.2]
    dsimp only
    rw [show TrieNode.decode (encoding P u) = .ok (toNode P u) from
      TrieNode.decode_encode_node (proper_toNode hr.filled.clean) (hsafe.fits _ hheld.1)]
    dsimp only
    rw [hvisit, proofNodes_of_ne hne]
    rfl

theorem MutableTrie.Represents.verify_of_followed (hsafe : Safe P E) (hr : t.Represents P E u)
    (hfollowed : Followed P u (Nibbles.fromBytes key)) :
    verifyProof P t.root key (u.get (Nibbles.fromBytes key)) (proofNodes P u (Nibbles.fromBytes key)) = some true := by
  have hroot := hr.root
  by_cases hne : u = .empty
  · subst hne
    have hempty : t.root = emptyRoot := hroot
    simp [proofNodes, verifyProof, hempty]
  · rw [rootHash_of_ne hne] at hroot
    rw [proofNodes_of_ne hne, verifyProof, if_neg (by simp), hroot]
    exact verifyNodes_complete hsafe hr.filled (hr.top hne).1 hr.stored (Nat.zero_le _) hfollowed

theorem MutableTrie.Represents.verify_prove (hsafe : Safe P E) (hr : t.Represents P E u)
    (hget : u.get (Nibbles.fromBytes key) = some v) (hv : 32 ≤ v.length) :
    verifyProof P t.root key (some v) (proofNodes P u (Nibbles.fromBytes key)) = some true := by
  rw [← hget]
  exact hr.verify_of_followed hsafe (followed_of_get hget hv)

theorem own_mem (hlinked : t.Linked P E u) : ∀ b ∈ own P u, b ∈ E := by
  intro b hb
  unfold own at hb
  split at hb
  · cases hb
  · rename_i hshort
    rw [List.mem_singleton.mp hb]
    exact (hlinked (Nat.le_of_not_lt hshort)).1

theorem below_mem (hstored : t.Stored P E u) (nibbles : Nibbles) : ∀ b ∈ below P u nibbles, b ∈ E := by
  induction u generalizing nibbles with
  | empty => exact nofun
  | leaf path value => exact nofun
  | ext path child ih =>
    intro b hb
    rw [below] at hb
    split at hb
    · cases hb
    · rename_i rest hrest
      rcases List.mem_append.mp hb with hb | hb
      · exact own_mem hstored.1 b hb
      · exact ih hstored.2 rest b hb
  | branch children value ih =>
    intro b hb
    cases nibbles with
    | nil => cases hb
    | cons a rest =>
      rcases List.mem_append.mp hb with hb | hb
      · exact own_mem (hstored a).1 b hb
      · exact ih a (hstored a).2 rest b hb

theorem MutableTrie.Represents.proofNodes_mem (hr : t.Represents P E u) (nibbles : Nibbles) :
    ∀ b ∈ proofNodes P u nibbles, b ∈ E := by
  by_cases hne : u = .empty
  · subst hne
    exact nofun
  · rw [proofNodes_of_ne hne]
    exact List.forall_mem_cons.mpr ⟨(hr.top hne).1,below_mem hr.stored nibbles⟩

end Proving

section Completeness
open TrieCall

variable {P : Platform} {DB : Type} [TrieDB DB]

/-- Where all values are long, every key has a proof of what the trie says of it, and it verifies. -/
theorem prove_complete (db : DB) (calls : List TrieCall)
    (hcommit : commit ∈ calls → MutableTrie.Persists P DB) (hvalues : NonEmptyValues calls)
    (hlong : ∀ key v, contents calls key = some v → 32 ≤ v.length)
    (hkeccak : Safe P {b | b ∈ involved P (MutableTrie.new db) calls}) (key : List UInt8) :
    let t := after P (MutableTrie.new db) calls
    ∃ proof, t.prove key = .ok proof ∧ proof.key = key ∧ t.get key = .ok proof.value ∧
      proof.verify P t.root = some true := by
  intro t
  obtain ⟨u,hr,hget,hwords⟩ := after_spec hkeccak (MutableTrie.denotes_new db) hcommit hvalues
    (fun past hpast => within_involved hpast)
  have htree : ∀ word v, u.get word = some v → 32 ≤ v.length := by
    intro word v hv
    have hhas : u.Has word := by
      rw [Patricia.Has, hv]
      exact Option.some_ne_none v
    obtain ⟨k,rfl⟩ := hwords word hhas
    exact hlong k v (hget k ▸ hv)
  refine ⟨_,hr.prove hkeccak key,rfl,hr.get hkeccak key,?_⟩
  exact hr.verify_of_followed hkeccak (followed_of_long hr.normal htree _)

/-- The proof that a key is missing from the demonstration trie. -/
theorem prove_complete_missing :
    let t := after .integersEmptyRoot (MutableTrie.new (⟨[]⟩ : MemoryTrieDB))
      [insert [0x12] (List.replicate 32 7),insert [0x12,0x34] (List.replicate 40 9),commit]
    ∃ proof, t.prove [0x12,0x35] = .ok proof ∧ t.get [0x12,0x35] = .ok proof.value ∧
      proof.verify .integersEmptyRoot t.root = some true := by
  intro t
  have hvalues : NonEmptyValues
      [insert [0x12] (List.replicate 32 7),insert [0x12,0x34] (List.replicate 40 9),commit] :=
    nonEmptyValues_cons nofun (nonEmptyValues_cons nofun (nonEmptyValues_cons nofun nofun))
  have hlong : ∀ key v, contents
      [insert [0x12] (List.replicate 32 7),insert [0x12,0x34] (List.replicate 40 9),commit] key = some v →
        32 ≤ v.length := by
    intro key v hv
    simp only [contents, List.foldl_cons, List.foldl_nil, change, Function.update_apply] at hv
    split_ifs at hv
    · cases hv
      decide
    · cases hv
      decide
  have hkeccak : Safe .integersEmptyRoot
      {b | b ∈ involved .integersEmptyRoot (MutableTrie.new (⟨[]⟩ : MemoryTrieDB))
        [insert [0x12] (List.replicate 32 7),insert [0x12,0x34] (List.replicate 40 9),commit]} :=
    safe_of_list (by decide +kernel) (by decide +kernel) (by decide +kernel) (by decide +kernel)
  obtain ⟨proof,hprove,-,hget,hverify⟩ :=
    prove_complete _ _ (fun _ => MutableTrie.persists_memory _) hvalues hlong hkeccak [0x12,0x35]
  exact ⟨proof,hprove,hget,hverify⟩

end Completeness

end ZbxChain
