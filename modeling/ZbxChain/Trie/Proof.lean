import ZbxChain.Trie.MapLaws

/-! # Merkle proofs

The nodes of a proof come from anywhere. A node under the hash that its parent gives is
the node of the trie, so a proof that is accepted has followed the trie's own path.
-/
namespace ZbxChain

/-- The loop of `verify_proof`; `none` where the source panics. -/
def verifyNodes (P : Platform) (nibbles : Nibbles) (expectedValue : Option (List UInt8)) :
    H256 → ℕ → List (List UInt8) → Option Bool
  | _, _, [] => some false
  | expectedHash, depth, encoded :: rest =>
    if P.keccak256 encoded ≠ expectedHash then some false
    else match TrieNode.decode encoded with
      | .error (.error _) => some false
      | .error _ => none
      | .ok (.leaf path value) =>
        let cp := (nibbles.slice depth).commonPrefixLen path
        if cp = path.length ∧ depth + cp = nibbles.length then
          some (decide (expectedValue = some value))
        else some expectedValue.isNone
      | .ok (.extension path child) =>
        let cp := (nibbles.slice depth).commonPrefixLen path
        if cp ≠ path.length then some expectedValue.isNone
        else match child with
          | .hash h => verifyNodes P nibbles expectedValue h (depth + cp) rest
          | .empty => some expectedValue.isNone
          | .inline _ => some false
      | .ok (.branch children value) =>
        if depth = nibbles.length then
          if rest ≠ [] then some false else some (decide (expectedValue = value))
        else match children (nibbles.nibbleAt depth) with
          | .hash h => verifyNodes P nibbles expectedValue h (depth + 1) rest
          | .empty => some expectedValue.isNone
          | .inline _ => some false
      | .ok .empty => some expectedValue.isNone

def verifyProof (P : Platform) (root : H256) (key : List UInt8) (expectedValue : Option (List UInt8))
    (nodes : List (List UInt8)) : Option Bool :=
  if nodes.isEmpty then some (decide (root = emptyRoot) && expectedValue.isNone)
  else verifyNodes P (Nibbles.fromBytes key) expectedValue root 0 nodes

section Soundness
variable {P : Platform} {DB : Type} [TrieDB DB] {E : Set (List UInt8)} {t : MutableTrie DB}
  {u : NibbleTree} {nibbles : Nibbles} {claimed : Option (List UInt8)}

theorem treeRef_eq_hash {h : H256} (heq : treeRef P u = .hash h) :
    h = P.keccak256 (encoding P u) ∧ 32 ≤ (encoding P u).length := by
  by_cases hne : u = .empty
  · subst hne
    cases heq
  · rw [treeRef_of_ne hne] at heq
    split at heq
    · cases heq
    · rename_i hlen
      cases heq
      exact ⟨rfl,Nat.le_of_not_lt hlen⟩

theorem treeRef_eq_empty (heq : treeRef P u = .empty) : u = .empty :=
  (treeRef_isEmpty (P := P)).mp (by rw [heq]; rfl)

theorem claimed_of_child {depth : ℕ} {rest : List (List UInt8)} (hlinked : t.Linked P E u)
    (hchild : encoding P u ∈ E →
      verifyNodes P nibbles claimed (P.keccak256 (encoding P u)) depth rest = some true →
      claimed = u.get (nibbles.drop depth))
    (h : (match treeRef P u with
      | .hash h => verifyNodes P nibbles claimed h depth rest
      | .empty => some claimed.isNone
      | .inline _ => some false) = some true) :
    claimed = u.get (nibbles.drop depth) := by
  cases href : treeRef P u with
  | empty =>
    rw [href] at h
    rw [treeRef_eq_empty href]
    simpa using h
  | inline node =>
    rw [href] at h
    cases h
  | hash hh =>
    obtain ⟨rfl,hlong⟩ := treeRef_eq_hash href
    rw [href] at h
    exact hchild (hlinked hlong).1 h

theorem leaf_path_iff {depth : ℕ} (hdepth : depth ≤ nibbles.length) (path : Nibbles) :
    (Nibbles.commonPrefixLen (nibbles.drop depth) path = path.length ∧
      depth + Nibbles.commonPrefixLen (nibbles.drop depth) path = nibbles.length) ↔
      nibbles.drop depth = path := by
  have hlen : (nibbles.drop depth).length = nibbles.length - depth := List.length_drop
  rw [← Nibbles.eq_path_iff]
  constructor
  · rintro ⟨hall,hend⟩
    exact ⟨hall,by omega⟩
  · rintro ⟨hall,hend⟩
    exact ⟨hall,by omega⟩

/-- The verifier goes down the tree whose root it was given the hash of. -/
theorem verifyNodes_sound (hsafe : Safe P E) {nodes : List (List UInt8)} (hnodes : ∀ b ∈ nodes, b ∈ E)
    {depth : ℕ} (hdepth : depth ≤ nibbles.length) (hfilled : Filled u) (hmem : encoding P u ∈ E)
    (hstored : t.Stored P E u)
    (h : verifyNodes P nibbles claimed (P.keccak256 (encoding P u)) depth nodes = some true) :
    claimed = u.get (nibbles.drop depth) := by
  induction nodes generalizing u depth with
  | nil => cases h
  | cons encoded rest ih =>
    have hrest : ∀ b ∈ rest, b ∈ E := fun b hb => hnodes b (List.mem_cons_of_mem _ hb)
    have hslice : nibbles.slice depth = nibbles.drop depth := rfl
    by_cases hhash : P.keccak256 encoded = P.keccak256 (encoding P u)
    · have hsame := hsafe.inj (hnodes encoded List.mem_cons_self) hmem hhash
      have hdecode : TrieNode.decode encoded = .ok (toNode P u) := by
        rw [hsame]
        exact TrieNode.decode_encode_node (proper_toNode hfilled.clean) (hsafe.fits _ hmem)
      rw [verifyNodes, if_neg (not_not.mpr hhash), hdecode] at h
      cases u with
      | empty => simpa using h
      | leaf path value =>
        simp only [toNode_leaf, hslice, leaf_path_iff hdepth] at h
        rw [Patricia.get_leaf]
        by_cases hkey : nibbles.drop depth = path
        · rw [if_pos hkey] at h ⊢
          simpa using h
        · rw [if_neg hkey] at h ⊢
          simpa using h
      | ext path child =>
        have hdrop := Nibbles.dropPrefix?_eq (nibbles.drop depth) path
        obtain ⟨hle,-⟩ := Nibbles.commonPrefixLen_le (nibbles.drop depth) path
        rw [List.length_drop] at hle
        simp only [toNode_ext, hslice] at h
        rw [Patricia.get_ext]
        by_cases hall : Nibbles.commonPrefixLen (nibbles.drop depth) path = path.length
        · rw [hall] at hle h
          rw [if_pos hall] at hdrop
          rw [if_neg (not_not.mpr rfl)] at h
          rw [hdrop, Option.bind_some, List.drop_drop]
          exact claimed_of_child hstored.1
            (fun hmem' => ih hrest (by omega) hfilled.child hmem' hstored.2) h
        · rw [if_pos hall] at h
          rw [hdrop, if_neg hall]
          simpa using h
      | branch children value =>
        simp only [toNode_branch] at h
        by_cases hend : depth = nibbles.length
        · rw [if_pos hend] at h
          rw [hend, List.drop_length, Patricia.get_branch_nil]
          split at h
          · cases h
          · simpa using h
        · have hlt : depth < nibbles.length := Nat.lt_of_le_of_ne hdepth hend
          rw [if_neg hend] at h
          rw [Nibbles.drop_eq_cons hlt, Patricia.get_branch_cons]
          exact claimed_of_child (hstored _).1
            (fun hmem' => ih hrest hlt (hfilled.children _) hmem' (hstored _).2) h
    · rw [verifyNodes, if_pos hhash] at h
      cases h

theorem MutableTrie.Represents.verifyProof_spec (hsafe : Safe P E) (hr : t.Represents P E u)
    {key : List UInt8} {nodes : List (List UInt8)} (hnodes : ∀ b ∈ nodes, b ∈ E)
    (h : verifyProof P t.root key claimed nodes = some true) :
    claimed = u.get (Nibbles.fromBytes key) := by
  have hroot : rootHash P u = P.keccak256 (encoding P u) := by
    cases u with
    | empty => exact (encoding_empty (P := P) ▸ hsafe.empty).symm
    | leaf path value => rfl
    | ext path child => rfl
    | branch children value => rfl
  have hmem : encoding P u ∈ E := by
    by_cases hne : u = .empty
    · subst hne
      exact encoding_empty (P := P) ▸ hsafe.mem_empty
    · exact (hr.top hne).1
  unfold verifyProof at h
  split at h
  · -- without nodes the trie has to be empty
    simp only [Option.some.injEq, Bool.and_eq_true, decide_eq_true_eq] at h
    rw [(hr.resolve_root hsafe).1.mp h.1]
    simpa using h.2
  · rw [hr.root, hroot] at h
    exact verifyNodes_sound hsafe hnodes (Nat.zero_le _) hr.filled hmem hr.stored h

end Soundness

open TrieCall in
/-- Whatever nodes come with it, an accepted claim is what the trie says. -/
theorem verifyProof_sound {P : Platform} {DB : Type} [TrieDB DB] (db : DB) (calls : List TrieCall)
    (hedits : commit ∉ calls) (hvalues : NonEmptyValues calls) (key : List UInt8)
    (claimed : Option (List UInt8)) (nodes : List (List UInt8))
    (hkeccak : Safe P {b | b ∈ involved P (MutableTrie.new db) calls ++ nodes})
    (h : verifyProof P (after P (MutableTrie.new db) calls).root key claimed nodes = some true) :
    (after P (MutableTrie.new db) calls).get key = .ok claimed := by
  have hwithin : ∀ past, past <+: calls →
      MutableTrie.Within {b | b ∈ involved P (MutableTrie.new db) calls ++ nodes}
        (after P (MutableTrie.new db) past) :=
    fun past hpast e he => List.mem_append_left _ (within_involved hpast e he)
  obtain ⟨u,hr,-⟩ := after_spec hkeccak (MutableTrie.denotes_new db) (fun h => absurd h hedits) hvalues
    hwithin
  rw [hr.get hkeccak, hr.verifyProof_spec hkeccak (fun b hb => List.mem_append_right _ hb) h]

open TrieCall in
def demoTrie : MutableTrie MemoryTrieDB :=
  after .integersEmptyRoot (MutableTrie.new ⟨[]⟩)
    [insert [0x12] [7],insert [0x12,0x34] (List.replicate 40 9)]

def demoNodes : List (List UInt8) := (demoTrie.cache.map Prod.snd).take 3

open TrieCall in
theorem verifyProof_sound_demoTrie :
    verifyProof .integersEmptyRoot demoTrie.root [0x12,0x34] (some (List.replicate 40 9)) demoNodes =
        some true ∧
      demoTrie.get [0x12,0x34] = .ok (some (List.replicate 40 9)) := by
  have hvalues : NonEmptyValues [insert [0x12] [7],insert [0x12,0x34] (List.replicate 40 9)] :=
    nonEmptyValues_cons nofun (nonEmptyValues_cons nofun nofun)
  have hkeccak : Safe .integersEmptyRoot
      {b | b ∈ involved .integersEmptyRoot (MutableTrie.new (⟨[]⟩ : MemoryTrieDB))
        [insert [0x12] [7],insert [0x12,0x34] (List.replicate 40 9)] ++ demoNodes} :=
    safe_of_list (by decide +kernel) (by decide +kernel) (by decide +kernel) (by decide +kernel)
  have haccepted : verifyProof .integersEmptyRoot demoTrie.root [0x12,0x34]
      (some (List.replicate 40 9)) demoNodes = some true := by decide +kernel
  exact ⟨haccepted,verifyProof_sound _ _ (by decide) hvalues _ _ demoNodes hkeccak haccepted⟩

end ZbxChain
