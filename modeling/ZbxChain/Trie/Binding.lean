import ZbxChain.Trie.MapLaws

/-! # A root hash binds the map it was made from

Where all keys have one length, no key ends inside another one: all values are at leaves, where
they may be empty.
-/
namespace ZbxChain

section Roots
variable {P P' : Platform} {E : Set (List UInt8)} {DB DB' : Type} [TrieDB DB] [TrieDB DB']
  {t : MutableTrie DB} {s : MutableTrie DB'} {u u' : NibbleTree}

theorem toNode_eq_of_encoding (hsafe : Safe P E) (hclean : Clean u) (hclean' : Clean u')
    (hmem : encoding P u ∈ E) (h : encoding P u = encoding P u') : toNode P u = toNode P u' := by
  have hmem' : encoding P u' ∈ E := h ▸ hmem
  have hdecode := TrieNode.decode_encode_node (proper_toNode (P := P) hclean) (hsafe.fits _ hmem)
  have hdecode' := TrieNode.decode_encode_node (proper_toNode (P := P) hclean')
    (hsafe.fits _ hmem')
  have hencode : (toNode P u).encode = (toNode P u').encode := h
  rw [hencode, hdecode'] at hdecode
  exact (Except.ok.inj hdecode).symm

theorem toNode_eq_of_treeRef (hsafe : Safe P E) (hclean : Clean u) (hclean' : Clean u')
    (hlinked : t.Linked P E u) (hlinked' : s.Linked P E u') (h : treeRef P u = treeRef P u') :
    toNode P u = toNode P u' := by
  by_cases hne : u = .empty
  · subst hne
    have hempty : u' = .empty := (treeRef_isEmpty (P := P)).mp (by rw [← h]; rfl)
    rw [hempty]
  · have hne' : u' ≠ .empty := by
      rintro rfl
      exact hne ((treeRef_isEmpty (P := P)).mp (by rw [h]; rfl))
    rw [treeRef_of_ne hne, treeRef_of_ne hne'] at h
    split at h <;> rename_i hlen <;> split at h <;> rename_i hlen'
    · exact NodeRef.inline.inj h
    · cases h
    · cases h
    · have hmem := (hlinked (Nat.le_of_not_lt hlen)).1
      have hmem' := (hlinked' (Nat.le_of_not_lt hlen')).1
      exact toNode_eq_of_encoding hsafe hclean hclean' hmem
        (hsafe.inj hmem hmem' (NodeRef.hash.inj h))

/-- Stored trees are told apart by their root nodes. -/
theorem tree_eq_of_toNode (hsafe : Safe P E) (hclean : Clean u) (hclean' : Clean u')
    (hstored : t.Stored P E u) (hstored' : s.Stored P E u') (h : toNode P u = toNode P u') : u = u' := by
  induction u generalizing u' with
  | empty =>
    cases u' with
    | empty => rfl
    | leaf path value => cases h
    | ext path child => cases h
    | branch children value => cases h
  | leaf path value =>
    cases u' with
    | empty => cases h
    | leaf path' value' =>
      cases h
      rfl
    | ext path' child => cases h
    | branch children value' => cases h
  | ext path child ih =>
    cases u' with
    | empty => cases h
    | leaf path' value => cases h
    | ext path' child' =>
      rw [toNode_ext, toNode_ext] at h
      obtain ⟨rfl,href⟩ := TrieNode.extension.inj h
      have hchild : Clean child := hclean
      have hchild' : Clean child' := hclean'
      have hnode := toNode_eq_of_treeRef hsafe hchild hchild' hstored.1 hstored'.1 href
      rw [ih hchild hchild' hstored.2 hstored'.2 hnode]
    | branch children value => cases h
  | branch children value ih =>
    cases u' with
    | empty => cases h
    | leaf path' value' => cases h
    | ext path' child => cases h
    | branch children' value' =>
      rw [toNode_branch, toNode_branch] at h
      obtain ⟨hrefs,rfl⟩ := TrieNode.branch.inj h
      have hsame : children = children' := by
        funext i
        have hnode := toNode_eq_of_treeRef hsafe (hclean.1 i) (hclean'.1 i)
          (hstored i).1 (hstored' i).1 (congrFun hrefs i)
        exact ih i (hclean.1 i) (hclean'.1 i) (hstored i).2 (hstored' i).2 hnode
      rw [hsame]

namespace MutableTrie

theorem Carries.tree_eq (hsafe : Safe P E) (hr : Carries P E t u) (hr' : Carries P E s u')
    (hroot : t.root = s.root) : u = u' := by
  have hempty := (hr.resolve_root hsafe).1
  have hempty' := (hr'.resolve_root hsafe).1
  by_cases hne : u = .empty
  · rw [hne, eq_comm]
    exact hempty'.mp (hroot ▸ hempty.mpr hne)
  · have hne' : u' ≠ .empty := fun h => hne (hempty.mp (hroot ▸ hempty'.mpr h))
    have hhash := hr.root.symm.trans (hroot.trans hr'.root)
    rw [rootHash_of_ne hne, rootHash_of_ne hne'] at hhash
    have hencoding := hsafe.inj (hr.top hne).1 (hr'.top hne').1 hhash
    exact tree_eq_of_toNode hsafe hr.clean hr'.clean hr.stored hr'.stored
      (toNode_eq_of_encoding hsafe hr.clean hr'.clean (hr.top hne).1 hencoding)

theorem Denotes.contents_eq (hsafe : Safe P E) {m m' : Contents} (hm : Denotes P E t m)
    (hm' : Denotes P E s m') (hroot : t.root = s.root) : m = m' := by
  obtain ⟨u,hr,hget,-⟩ := hm
  obtain ⟨u',hr',hget',-⟩ := hm'
  have hsame := hr.carries.tree_eq hsafe hr'.carries hroot
  funext k
  rw [← hget, ← hget', hsame]

theorem Holds.platform (hhash : P'.keccak256 = P.keccak256) {encoded : List UInt8}
    (h : Holds P' E t encoded) : Holds P E t encoded := by
  obtain ⟨hmem,hlook⟩ := h
  exact ⟨hmem,by rw [← hhash, hlook]⟩

theorem Denotes.platform (hhash : P'.keccak256 = P.keccak256) {m : Contents} (hm : Denotes P' E t m) :
    Denotes P E t m := hm.imp hhash.symm rfl (fun _ hheld => hheld.platform hhash)

end MutableTrie

end Roots

variable {P : Platform} {E : Set (List UInt8)} {DB DB' : Type} [TrieDB DB] [TrieDB DB']
  {t : MutableTrie DB} {s : MutableTrie DB'} {u : NibbleTree} {m m' : Contents} {n : ℕ}
  {key v : List UInt8}

theorem clean_of_length (hnormal : u.Normal) (hlength : ∀ word, u.Has word → word.length = n) :
    Clean u := by
  induction u generalizing n with
  | empty => trivial
  | leaf path value => trivial
  | ext path child ih =>
    refine ih (n := n - path.length) hnormal.2.2 fun rest hrest => ?_
    have hword := hlength (path ++ rest) (Patricia.has_ext.mpr ⟨rest,rfl,hrest⟩)
    simp at hword
    omega
  | branch children value ih =>
    refine ⟨fun i => ih i (n := n - 1) (hnormal.1 i) fun rest hrest => ?_,?_⟩
    · have hword := hlength (i :: rest) hrest
      simp at hword
      omega
    · simp [hnormal.value_eq_none hlength]

namespace MutableTrie

/-- The trie stands for a map whose keys have `n` bytes. -/
def DenotesKeys (P : Platform) (E : Set (List UInt8)) (n : ℕ) (t : MutableTrie DB) (m : Contents) : Prop :=
  ∃ u, Carries P E t u ∧ (∀ k, u.get (Nibbles.fromBytes k) = m k) ∧
    ∀ word, u.Has word → ∃ k, k.length = n ∧ word = Nibbles.fromBytes k

theorem Denotes.keys (hm : Denotes P E t m) (hkeys : ∀ k, m k ≠ none → k.length = n) :
    DenotesKeys P E n t m := by
  obtain ⟨u,hr,hget,hwords⟩ := hm
  refine ⟨u,hr.carries,hget,fun word hword => ?_⟩
  obtain ⟨k,rfl⟩ := hwords word hword
  exact ⟨k,hkeys k (by rwa [← hget]),rfl⟩

/-- With keys of one length even an empty value is stored. -/
theorem DenotesKeys.insert (hsafe : Safe P E) (hm : DenotesKeys P E n t m) (hkey : key.length = n)
    (hw : Within E (t.insert P key v).1) :
    (t.insert P key v).2 = .ok () ∧
      DenotesKeys P E n (t.insert P key v).1 (Function.update m key (some v)) := by
  obtain ⟨u,hr,hget,hwords⟩ := hm
  have hwords' : ∀ word, (Patricia.insert u (Nibbles.fromBytes key) v).Has word →
      ∃ k, k.length = n ∧ word = Nibbles.fromBytes k := by
    intro word hword
    by_cases hnew : word = Nibbles.fromBytes key
    · exact ⟨key,hkey,hnew⟩
    · rw [Patricia.Has, Patricia.get_insert, if_neg hnew] at hword
      exact hwords word hword
  have hclean : Clean (Patricia.insert u (Nibbles.fromBytes key) v) := by
    refine clean_of_length (n := 2 * n) (hr.normal.insert _ v) fun word hword => ?_
    obtain ⟨k,rfl,rfl⟩ := hwords' word hword
    exact Nibbles.length_fromBytes k
  obtain ⟨hok,hr'⟩ := hr.insert hsafe hclean hw
  refine ⟨hok,_,hr',fun k => ?_,hwords'⟩
  rw [Patricia.get_insert]
  by_cases hk : k = key
  · simp [hk]
  · rw [if_neg (fun h => hk (Nibbles.fromBytes_inj h)), Function.update_of_ne hk, hget]

theorem DenotesKeys.contents_eq (hsafe : Safe P E) (hm : DenotesKeys P E n t m)
    (hm' : DenotesKeys P E n s m') (hroot : t.root = s.root) : m = m' := by
  obtain ⟨u,hr,hget,-⟩ := hm
  obtain ⟨u',hr',hget',-⟩ := hm'
  have hsame := hr.tree_eq hsafe hr' hroot
  funext k
  simp [← hget, ← hget', hsame]

end MutableTrie

namespace TrieCall

def inserts (leaves : List (List UInt8 × List UInt8)) : List TrieCall := leaves.map (fun e => insert e.1 e.2)

def KeysOf (n : ℕ) (calls : List TrieCall) : Prop := ∀ key value, insert key value ∈ calls → key.length = n

variable {start : MutableTrie DB} {calls : List TrieCall} {leaves : List (List UInt8 × List UInt8)}

theorem length_of_contents (hkeys : KeysOf n calls) {k : List UInt8} (h : contents calls k ≠ none) :
    k.length = n := by
  induction calls using List.reverseRecOn with
  | nil => exact absurd rfl h
  | append_singleton calls call ih =>
    have hpast := ih (fun key value hmem => hkeys key value (List.mem_append_left _ hmem))
    rw [contents, List.foldl_append] at h
    cases call with
    | insert key value =>
      by_cases hk : k = key
      · exact hk ▸ hkeys key value (List.mem_append_right _ (List.mem_singleton_self _))
      · simp only [List.foldl_cons, List.foldl_nil, change, Function.update_of_ne hk] at h
        exact hpast h
    | delete key =>
      by_cases hk : k = key
      · simp [hk, change] at h
      · simp only [List.foldl_cons, List.foldl_nil, change, Function.update_of_ne hk] at h
        exact hpast h
    | commit => exact hpast h

theorem after_inserts (hsafe : Safe P E) (hstart : start.Denotes P E (fun _ => none))
    (hkeys : ∀ e ∈ leaves, e.1.length = n)
    (hw : ∀ past, past <+: inserts leaves → MutableTrie.Within E (after P start past)) :
    (after P start (inserts leaves)).DenotesKeys P E n (contents (inserts leaves)) := by
  induction leaves using List.reverseRecOn with
  | nil => exact hstart.keys (fun k hk => absurd rfl hk)
  | append_singleton leaves e ih =>
    have hcalls : inserts (leaves ++ [e]) = inserts leaves ++ [insert e.1 e.2] := by simp [inserts]
    rw [hcalls] at hw ⊢
    have hm := ih (fun e' he' => hkeys e' (List.mem_append_left _ he'))
      (fun past hpast => hw past (hpast.trans (List.prefix_append _ _)))
    have hwithin := hw _ (List.prefix_refl _)
    rw [after, Machine.final_append] at hwithin ⊢
    rw [contents, List.foldl_append]
    exact (hm.insert hsafe (hkeys e (List.mem_append_right _ (List.mem_singleton_self _))) hwithin).2

end TrieCall

end ZbxChain
