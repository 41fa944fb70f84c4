import Mathlib.Data.BitVec
import ZbxChain.Crypto.Mpt
import ZbxChain.Trie.Binding
import Mathlib.Data.List.TakeWhile

/-! # The boxed trie and the mutable trie are one Patricia tree

Both insertions compute insertion into the tree, and below 2^63 bytes both encoders write
the same bytes for it.
-/
namespace ZbxChain.Mpt
open RlpStream

variable {P : Platform} {E : Set (List UInt8)}

def Node.toTree : Node → NibbleTree
  | .empty => .empty
  | .leaf path value => .leaf path value
  | .extension path child => .ext path child.toTree
  | .branch children value => .branch (fun i => (children i).toTree) value

section Insertion

theorem commonLen_eq (a b : Nibbles) : commonLen a b = Nibbles.commonPrefixLen a b := by
  induction a generalizing b with
  | nil => rfl
  | cons x a ih =>
    cases b with
    | nil => rfl
    | cons y b =>
      have htail := ih b
      rw [commonLen] at htail
      by_cases h : x = y
      · subst h
        simp [commonLen, Nibbles.commonPrefixLen, htail]
      · simp [commonLen, Nibbles.commonPrefixLen, h]

theorem toTree_noChildren : (fun i => (noChildren i).toTree) = fun _ => Patricia.empty := rfl

theorem toTree_update (children : Fin 16 → Node) (i : Fin 16) (node : Node) :
    (fun j => (Function.update children i node j).toTree) =
      Function.update (fun j => (children j).toTree) i node.toTree := by
  funext j
  by_cases h : j = i
  · subst h
    simp
  · simp [h]

theorem toTree_wrapWithExtension (cl : ℕ) (ep : Nibbles) (hcl : cl ≤ ep.length)
    (children : Fin 16 → Node) (value : Option (List UInt8)) :
    (wrapWithExtension cl ep (.branch children value)).toTree =
      Patricia.join (ep.take cl) (.branch (fun i => (children i).toTree) value) := by
  unfold wrapWithExtension
  by_cases hpos : 0 < cl
  · have hne : ep.take cl ≠ [] := by
      rw [← List.length_pos_iff, List.length_take]
      omega
    rw [if_pos hpos, Patricia.join, if_neg hne]
    rfl
  · obtain rfl : cl = 0 := by omega
    rw [if_neg hpos, Patricia.join, List.take_zero, if_pos rfl]
    rfl

theorem drop_eq_nibbleAt {key : Nibbles} {i : ℕ} (h : i ≤ key.length) (hne : i ≠ key.length) :
    key.drop i = key.nibbleAt i :: key.drop (i + 1) :=
  Nibbles.drop_eq_cons (Nat.lt_of_le_of_ne h hne)

theorem take_commonPrefixLen (key path : Nibbles) :
    key.take (Nibbles.commonPrefixLen key path) = path.take (Nibbles.commonPrefixLen key path) := by
  obtain ⟨-,hpath,-⟩ := Patricia.split_spec key path
  rw [Nibbles.split_eq] at hpath
  dsimp only at hpath
  have hle := Nibbles.commonPrefixLen_le key path
  have hlen : (key.take (Nibbles.commonPrefixLen key path)).length = Nibbles.commonPrefixLen key path := by
    rw [List.length_take]
    omega
  have hfirst := congrArg (List.take (Nibbles.commonPrefixLen key path)) hpath
  rw [List.take_append_of_le_length hlen.ge, List.take_of_length_le hlen.le] at hfirst
  exact hfirst.symm

theorem toTree_insert_leaf (path : Nibbles) (old : List UInt8) (key : Nibbles) (v : List UInt8) :
    (insert (.leaf path old) key v).toTree = Patricia.insert (.leaf path old) key v := by
  obtain ⟨hkey,hpath⟩ := Nibbles.commonPrefixLen_le key path
  have htake := take_commonPrefixLen key path
  simp only [insert, commonLen_eq, Patricia.insert, Nibbles.split_eq]
  by_cases hp : Nibbles.commonPrefixLen key path = path.length
  · by_cases hk : Nibbles.commonPrefixLen key path = key.length
    · have hdrops : key.drop (Nibbles.commonPrefixLen key path) = [] ∧
          path.drop (Nibbles.commonPrefixLen key path) = [] :=
        ⟨List.drop_eq_nil_iff.mpr hk.ge,List.drop_eq_nil_iff.mpr hp.ge⟩
      rw [if_pos ⟨hp,hk⟩, hdrops.1, hdrops.2]
      rfl
    · have hdrop : path.drop (Nibbles.commonPrefixLen key path) = [] := List.drop_eq_nil_iff.mpr hp.ge
      rw [if_neg (fun h => hk h.2), if_pos hp, if_pos hp, if_neg hk, hdrop, drop_eq_nibbleAt hkey hk]
      dsimp only
      rw [toTree_wrapWithExtension _ _ hpath, toTree_update, toTree_noChildren, htake]
      rfl
  · rw [if_neg (fun h => hp h.1), if_neg hp, if_neg hp, drop_eq_nibbleAt hpath hp]
    by_cases hk : Nibbles.commonPrefixLen key path = key.length
    · have hdrop : key.drop (Nibbles.commonPrefixLen key path) = [] := List.drop_eq_nil_iff.mpr hk.ge
      rw [if_pos hk, hdrop]
      dsimp only
      rw [toTree_wrapWithExtension _ _ hpath, toTree_update, toTree_noChildren, htake]
      rfl
    · rw [if_neg hk, drop_eq_nibbleAt hkey hk]
      dsimp only
      rw [toTree_wrapWithExtension _ _ hpath, toTree_update, toTree_update, toTree_noChildren, htake]
      rfl

theorem toTree_remainder (remainder : Nibbles) {child : Node} (h : child.toTree.IsBranch) :
    (if remainder.isEmpty then child else .extension remainder child).toTree =
      Patricia.join remainder child.toTree := by
  cases child with
  | empty => cases h
  | leaf path value => cases h
  | extension path child => cases h
  | branch children value =>
    cases remainder with
    | nil => rfl
    | cons a rest => rfl

theorem toTree_split_extension (path : Nibbles) {child : Node} (key : Nibbles) (v : List UInt8)
    (hbranch : child.toTree.IsBranch) (hp : Nibbles.commonPrefixLen key path ≠ path.length) :
    (insert (.extension path child) key v).toTree = Patricia.insert (.ext path child.toTree) key v := by
  obtain ⟨hkey,hpath⟩ := Nibbles.commonPrefixLen_le key path
  have htake := take_commonPrefixLen key path
  simp only [insert, commonLen_eq, Patricia.insert, Nibbles.split_eq]
  rw [if_neg hp, drop_eq_nibbleAt hpath hp]
  by_cases hk : Nibbles.commonPrefixLen key path = key.length
  · have hdrop : key.drop (Nibbles.commonPrefixLen key path) = [] := List.drop_eq_nil_iff.mpr hk.ge
    rw [hdrop, if_pos List.isEmpty_nil]
    dsimp only
    rw [toTree_wrapWithExtension _ _ hpath, toTree_update, toTree_noChildren,
      toTree_remainder _ hbranch, htake]
    rfl
  · rw [drop_eq_nibbleAt hkey hk, if_neg (by simp)]
    dsimp only
    rw [toTree_wrapWithExtension _ _ hpath, toTree_update, toTree_update, toTree_noChildren,
      toTree_remainder _ hbranch, htake]
    rfl

theorem toTree_insert (node : Node) (h : node.toTree.Normal) (key : Nibbles) (v : List UInt8) :
    (insert node key v).toTree = node.toTree.insert key v := by
  induction node generalizing key with
  | empty => rfl
  | leaf path old => exact toTree_insert_leaf path old key v
  | extension path child ih =>
    by_cases hp : Nibbles.commonPrefixLen key path = path.length
    · have hdrop : path.drop (Nibbles.commonPrefixLen key path) = [] := List.drop_eq_nil_iff.mpr hp.ge
      simp only [insert, commonLen_eq, if_pos hp, Node.toTree, Patricia.insert, Nibbles.split_eq, hdrop]
      rw [ih h.2.2]
    · exact toTree_split_extension path key v h.2.1 hp
  | branch children value ih =>
    cases key with
    | nil => rfl
    | cons a key =>
      simp only [insert, List.isEmpty_cons, Bool.false_eq_true, if_false, Node.toTree,
        Patricia.insert]
      rw [toTree_update]
      exact congrArg (fun t => Patricia.branch (Function.update _ a t) value) (ih a (h.1 a) key)

end Insertion

section Encoding

theorem drop_findIdx? (b : List UInt8) (h : b.dropWhile (· == 0) ≠ []) (d : ℕ) :
    b.drop ((b.findIdx? (fun x => x != 0)).getD d) = b.dropWhile (· == 0) := by
  induction b with
  | nil => exact absurd rfl h
  | cons x b ih =>
    by_cases hx : x = 0
    · subst hx
      have hrest : b.dropWhile (· == 0) ≠ [] := by simpa using h
      have htail := ih hrest
      rw [List.findIdx?_cons, List.dropWhile_cons]
      cases hfind : b.findIdx? (fun x => x != 0) with
      | none =>
        -- all of the rest is zero
        rw [List.findIdx?_eq_none_iff] at hfind
        have hzeros : b.dropWhile (· == 0) = [] := by
          refine List.dropWhile_eq_nil_iff.mpr fun y hy => ?_
          simpa using hfind y hy
        exact absurd hzeros hrest
      | some i =>
        rw [hfind] at htail
        simpa using htail
    · simp [List.findIdx?_cons, hx]

theorem stripLeading_eq {n : ℕ} (hpos : 0 < n) (hlt : n < 2 ^ 64) :
    stripLeading (UInt64.ofNat n) = minimalBytes (UInt64.ofNat n) := by
  obtain ⟨b,tail,hbytes,-,-,-⟩ := Rlp.minimalBytes_spec hpos hlt
  refine drop_findIdx? _ ?_ _
  rw [← minimalBytes, hbytes]
  exact List.cons_ne_nil b tail

theorem rlpBytes_eq {data : List UInt8} (h : data.length < 2 ^ 64) :
    rlpBytes data = stringBytes data := by
  unfold rlpBytes stringBytes stringHeader
  dsimp only
  by_cases hzero : data.length = 0
  · rw [List.length_eq_zero_iff.mp hzero]
    rfl
  · rw [if_neg hzero, if_neg hzero]
    by_cases hone : data.length = 1 ∧ data.headD 0 < 0x80
    · obtain ⟨b,rfl⟩ := List.length_eq_one_iff.mp hone.1
      rw [if_pos hone, if_pos hone]
      rfl
    · rw [if_neg hone, if_neg hone]
      by_cases hshort : data.length ≤ 55
      · rw [if_pos hshort, if_pos hshort]
        rfl
      · rw [if_neg hshort, if_neg hshort, beMinimal, stripLeading_eq (by omega) h]
        rfl

theorem rlpList_eq {items : List (List UInt8)} (h : items.flatten.length < 2 ^ 64) :
    rlpList items = listBytes items.flatten := by
  have hpayload : items.flatMap id = items.flatten := List.flatMap_id
  unfold rlpList listBytes listHeader
  dsimp only
  rw [hpayload]
  by_cases hshort : items.flatten.length ≤ 55
  · rw [if_pos hshort, if_pos hshort]
    rfl
  · rw [if_neg hshort, if_neg hshort, beMinimal, stripLeading_eq (by omega) h]
    rfl

theorem packNibbles_eq (nibbles : Nibbles) : packNibbles nibbles = Nibbles.packPairs nibbles := by
  have hpack : ∀ a b : Fin 16, UInt8.ofNat a.val <<< 4 ||| UInt8.ofNat b.val = Nibbles.pack a b := by
    decide
  induction nibbles using packNibbles.induct with
  | case1 a b rest ih => rw [packNibbles, Nibbles.packPairs, ih, hpack]
  | case2 nibbles h =>
    cases nibbles with
    | nil => rfl
    | cons a rest =>
      cases rest with
      | nil => rfl
      | cons b rest => exact absurd rfl (h a b rest)

theorem hpEncode_eq (nibbles : Nibbles) (isLeaf : Bool) :
    hpEncode nibbles isLeaf = rlpBytes (nibbles.encodeCompact isLeaf) := by
  unfold hpEncode Nibbles.encodeCompact
  simp only [packNibbles_eq]
  by_cases hodd : nibbles.length % 2 = 1
  · cases isLeaf <;> simp only [hodd, if_true] <;> rfl
  · cases isLeaf <;> simp only [hodd, if_false] <;> rfl

/-- The encodings of a tree and of everything below it fit in memory. -/
def Fits (P : Platform) : NibbleTree → Prop
  | .empty => True
  | .leaf path value => (encoding P (.leaf path value)).length < 2 ^ 63
  | .ext path child => (encoding P (.ext path child)).length < 2 ^ 63 ∧ Fits P child
  | .branch children value =>
    (encoding P (.branch children value)).length < 2 ^ 63 ∧ ∀ i, Fits P (children i)

theorem bytes_treeRef (u : NibbleTree) : (treeRef P u).bytes = embed P (encoding P u) := by
  by_cases hne : u = .empty
  · subst hne
    rw [encoding_empty]
    rfl
  · rw [treeRef_of_ne hne, embed]
    split
    · rfl
    · rw [rlpBytes_eq (by rw [H256.length_asBytes]; omega)]
      rfl

theorem nodeRlp_eq (node : Node) (h : Fits P node.toTree) :
    nodeRlp P node = encoding P node.toTree := by
  have hlist : ∀ (u : NibbleTree) (items : List (List UInt8)), u ≠ .empty →
      (encoding P u).length < 2 ^ 63 → items = (toNode P u).items → rlpList items = encoding P u := by
    rintro u items hne hfits rfl
    have hlt := Rlp.length_lt_listBytes (toNode P u).items.flatten
    have hencoded : encoding P u = listBytes (toNode P u).items.flatten :=
      TrieNode.encode_eq (toNode_ne_empty hne)
    rw [hencoded] at hfits ⊢
    exact rlpList_eq (by omega)
  have hstring : ∀ (u : NibbleTree) (data : List UInt8), u ≠ .empty →
      (encoding P u).length < 2 ^ 63 → stringBytes data ∈ (toNode P u).items →
      rlpBytes data = stringBytes data := by
    intro u data hne hfits hmem
    have hlt : (stringBytes data).length < (encoding P u).length :=
      TrieNode.item_lt (toNode_ne_empty hne) hmem
    have hle := Rlp.length_le_stringBytes data
    exact rlpBytes_eq (by omega)
  induction node with
  | empty => exact encoding_empty.symm
  | leaf path value =>
    refine hlist _ _ nofun h ?_
    have hvalue := hstring (.leaf path value) value nofun h
      (List.mem_cons_of_mem _ List.mem_cons_self)
    rw [hpEncode_eq, hstring (.leaf path value) _ nofun h List.mem_cons_self, hvalue]
    rfl
  | extension path child ih =>
    refine hlist _ _ nofun h.1 ?_
    rw [hpEncode_eq, hstring (.ext path child.toTree) _ nofun h.1 List.mem_cons_self, ih h.2, ← bytes_treeRef]
    rfl
  | branch children value ih =>
    refine hlist _ _ nofun h.1 ?_
    have hchildren : (List.finRange 16).map (fun i => embed P (nodeRlp P (children i))) =
        (List.finRange 16).map (fun i => (treeRef P (children i).toTree).bytes) := by
      refine List.map_congr_left (fun i _ => ?_)
      rw [ih i (h.2 i), bytes_treeRef]
    have hvalue : (value.map rlpBytes).getD [0x80] = stringBytes (value.getD []) := by
      cases value with
      | none => rfl
      | some v =>
        exact hstring (.branch (fun i => (children i).toTree) (some v)) v nofun h.1
          (List.mem_append_right _ List.mem_cons_self)
    rw [hchildren, hvalue]
    rfl

theorem fits_of_stored {DB : Type} [TrieDB DB] {t : MutableTrie DB} (hsafe : Safe P E) {u : NibbleTree}
    (hu : (encoding P u).length < 2 ^ 63) (h : MutableTrie.Stored P E t u) : Fits P u := by
  have hlinked : ∀ child, MutableTrie.Linked P E t child → (encoding P child).length < 2 ^ 63 := by
    intro child hlink
    by_cases hlen : 32 ≤ (encoding P child).length
    · exact hsafe.fits _ (hlink hlen).1
    · omega
  induction u with
  | empty => trivial
  | leaf path value => exact hu
  | ext path child ih => exact ⟨hu,ih (hlinked child h.1) h.2⟩
  | branch children value ih => exact ⟨hu,fun i => ih i (hlinked _ (h i).1) (h i).2⟩

end Encoding

section Roots
open MutableTrie (Represents Denotes)

variable {DB : Type} [TrieDB DB] {items : List (List UInt8 × List UInt8)}

/-- The tree of boxes that `trie_root_from_pairs` ends with. -/
def boxes (items : List (List UInt8 × List UInt8)) : Node :=
  items.foldl (fun root e => insert root (toNibbles e.1) e.2) .empty

def inserts (items : List (List UInt8 × List UInt8)) : List TrieCall :=
  items.map (fun e => .insert e.1 e.2)

theorem boxes_append (items : List (List UInt8 × List UInt8)) (e : List UInt8 × List UInt8) :
    boxes (items ++ [e]) = insert (boxes items) (Nibbles.fromBytes e.1) e.2 := by
  rw [boxes, List.foldl_append]
  rfl

theorem contents_append (items : List (List UInt8 × List UInt8)) (e : List UInt8 × List UInt8) :
    TrieCall.contents (inserts (items ++ [e])) =
      Function.update (TrieCall.contents (inserts items)) e.1 (some e.2) := by
  rw [inserts, List.map_append, TrieCall.contents, List.foldl_append]
  rfl

/-- The tree of boxes stands for the inserted pairs. -/
theorem boxes_spec (items : List (List UInt8 × List UInt8)) :
    (boxes items).toTree.Normal ∧
      (∀ key, (boxes items).toTree.get (Nibbles.fromBytes key) = TrieCall.contents (inserts items) key) ∧
      ∀ word, (boxes items).toTree.Has word → ∃ key, word = Nibbles.fromBytes key := by
  induction items using List.reverseRecOn with
  | nil => exact ⟨trivial,fun _ => rfl,fun _ h => absurd rfl h⟩
  | append_singleton items e ih =>
    obtain ⟨hnormal,hget,hwords⟩ := ih
    rw [boxes_append, contents_append, toTree_insert _ hnormal]
    refine ⟨hnormal.insert _ _,fun key => ?_,fun word hword => ?_⟩
    · rw [Patricia.get_insert]
      by_cases hkey : key = e.1
      · subst hkey
        rw [if_pos rfl, Function.update_self]
      · rw [if_neg (fun h => hkey (Nibbles.fromBytes_inj h)), Function.update_of_ne hkey, hget]
    · by_cases hnew : word = Nibbles.fromBytes e.1
      · exact ⟨e.1,hnew⟩
      · rw [Patricia.Has, Patricia.get_insert, if_neg hnew] at hword
        exact hwords word hword

theorem nonEmptyValues_inserts (h : ∀ e ∈ items, e.2 ≠ []) : TrieCall.NonEmptyValues (inserts items) := by
  intro key value hmem
  obtain ⟨e,he,heq⟩ := List.mem_map.mp hmem
  cases heq
  exact h e he

theorem commit_not_mem_inserts (items : List (List UInt8 × List UInt8)) :
    TrieCall.commit ∉ inserts items := by
  intro hmem
  obtain ⟨e,-,heq⟩ := List.mem_map.mp hmem
  cases heq

theorem denotes_inserts (db : DB) {past : List (List UInt8 × List UInt8)} (hpast : past <+: items)
    (hvalues : ∀ e ∈ items, e.2 ≠ []) (hsafe : Safe P E)
    (hinvolved : ∀ b ∈ TrieCall.involved P (MutableTrie.new db) (inserts items), b ∈ E) :
    Denotes P E (TrieCall.after P (MutableTrie.new db) (inserts past))
      (TrieCall.contents (inserts past)) := by
  have hcalls : inserts past <+: inserts items := hpast.map _
  refine TrieCall.after_spec hsafe (MutableTrie.denotes_new db)
    (fun h => absurd h (commit_not_mem_inserts past))
    (nonEmptyValues_inserts (fun e he => hvalues e (hpast.subset he))) ?_
  intro calls h e he
  exact hinvolved e.2 (TrieCall.within_involved (h.trans hcalls) e he)

theorem represents_boxes (db : DB) (hvalues : ∀ e ∈ items, e.2 ≠ []) (hsafe : Safe P E)
    (hinvolved : ∀ b ∈ TrieCall.involved P (MutableTrie.new db) (inserts items), b ∈ E) :
    Represents P E (TrieCall.after P (MutableTrie.new db) (inserts items)) (boxes items).toTree := by
  obtain ⟨u,hr,hget,hwords⟩ := denotes_inserts db (List.prefix_refl items) hvalues hsafe hinvolved
  obtain ⟨hnormal,hget',hwords'⟩ := boxes_spec items
  have hsame := MutableTrie.tree_eq_of_map hr.normal hnormal hget hget' hwords hwords'
  rwa [hsame] at hr

theorem boxes_ne_empty (h : items ≠ []) : (boxes items).toTree ≠ .empty := by
  rcases List.eq_nil_or_concat items with hnil | ⟨front,e,rfl⟩
  · exact absurd hnil h
  · rw [List.concat_eq_append, boxes_append, toTree_insert _ (boxes_spec front).1]
    exact Patricia.insert_ne_empty _ _ _

theorem trieRootFromPairs_eq (hempty : P.keccak256 [0x80] = emptyRoot)
    (hfits : Fits P (boxes items).toTree) :
    trieRootFromPairs P items = ZbxChain.rootHash P (boxes items).toTree := by
  by_cases hnil : items = []
  · subst hnil
    exact hempty
  · rw [trieRootFromPairs, if_neg (by simpa using hnil), rootHash_of_ne (boxes_ne_empty hnil), rootHash,
      ← nodeRlp_eq _ hfits]
    rfl

/-- The root of the pairs is that of the trie into which they are inserted. -/
theorem trieRootFromPairs_after (db : DB) (hvalues : ∀ e ∈ items, e.2 ≠ []) (hsafe : Safe P E)
    (hinvolved : ∀ b ∈ TrieCall.involved P (MutableTrie.new db) (inserts items), b ∈ E) :
    trieRootFromPairs P items = (TrieCall.after P (MutableTrie.new db) (inserts items)).root := by
  have hr := represents_boxes db hvalues hsafe hinvolved
  have htop : (encoding P (boxes items).toTree).length < 2 ^ 63 := by
    by_cases hne : (boxes items).toTree = .empty
    · rw [hne, encoding_empty]
      exact (by decide : ([0x80] : List UInt8).length < 2 ^ 63)
    · exact hsafe.fits _ (hr.top hne).1
  rw [trieRootFromPairs_eq hsafe.empty (fits_of_stored hsafe htop hr.stored), hr.root]

theorem contents_inserts (h : (items.map Prod.fst).Nodup) (key value : List UInt8) :
    TrieCall.contents (inserts items) key = some value ↔ (key,value) ∈ items := by
  induction items using List.reverseRecOn with
  | nil => exact ⟨nofun,nofun⟩
  | append_singleton items e ih =>
    rw [List.map_append, List.nodup_append] at h
    obtain ⟨hfront,-,hnew⟩ := h
    rw [contents_append, List.mem_append, List.mem_singleton]
    by_cases hkey : key = e.1
    · have hold : (key,value) ∉ items := by
        intro hmem
        exact hnew key (List.mem_map_of_mem (f := Prod.fst) hmem) e.1 (by simp) hkey
      rw [hkey, Function.update_self, ← hkey]
      constructor
      · intro heq
        exact Or.inr (by rw [← Option.some.inj heq, hkey])
      · rintro (hmem | heq)
        · exact absurd hmem hold
        · rw [← heq]
    · rw [Function.update_of_ne hkey, ih hfront]
      refine ⟨Or.inl,?_⟩
      rintro (hmem | heq)
      · exact hmem
      · exact absurd (congrArg Prod.fst heq) hkey

end Roots

section Transactions

def rlpIndex (i : ℕ) : List UInt8 := stringBytes (minimalBytes (UInt64.ofNat i))

def txItems (txHashes : List H256) : List (List UInt8 × List UInt8) :=
  txHashes.zipIdx.map (fun e => txEntry e.2 e.1)

theorem txEntry_eq {i : ℕ} (h : i < 2 ^ 64) (hash : H256) :
    txEntry i hash = (rlpIndex i,stringBytes hash.asBytes) := by
  have hvalue : rlpBytes hash.asBytes = stringBytes hash.asBytes :=
    rlpBytes_eq (by rw [H256.length_asBytes]; omega)
  have hkey : rlpUint64 (UInt64.ofNat i) = rlpIndex i := by
    by_cases hzero : i = 0
    · subst hzero
      rfl
    · have hlen := Rlp.length_minimalBytes_le (UInt64.ofNat i)
      have hne : UInt64.ofNat i ≠ 0 := by
        intro heq
        have hnat := congrArg UInt64.toNat heq
        rw [UInt64.toNat_ofNat', Nat.mod_eq_of_lt h] at hnat
        exact hzero hnat
      rw [rlpUint64, if_neg hne, stripLeading_eq (Nat.pos_of_ne_zero hzero) h, rlpBytes_eq (by omega)]
      rfl
  rw [txEntry, hvalue, hkey]

theorem rlpIndex_inj {i j : ℕ} (hi : i < 2 ^ 64) (hj : j < 2 ^ 64) (h : rlpIndex i = rlpIndex j) :
    i = j := by
  have hread : ∀ k, Rlp.asBytes ⟨rlpIndex k⟩ = .ok (minimalBytes (UInt64.ofNat k)) := by
    intro k
    have hlen := Rlp.length_minimalBytes_le (UInt64.ofNat k)
    exact Rlp.asBytes_string (by omega)
  have hvalue : ∀ k, k < 2 ^ 64 → Bytes.ofBytesBE (minimalBytes (UInt64.ofNat k)) = k := by
    intro k hk
    rw [minimalBytes, Bytes.ofBytesBE_dropWhile, beBytes64, Bytes.ofBytesBE_bytesBE,
      UInt64.toNat_ofNat', Nat.mod_eq_of_lt hk]
    exact Nat.mod_eq_of_lt hk
  have hbytes := hread i
  rw [h, hread j] at hbytes
  rw [← hvalue i hi, ← hvalue j hj, Except.ok.inj hbytes]

variable {txHashes : List H256}

theorem transactionsRootMpt_eq (txHashes : List H256) :
    transactionsRootMpt P txHashes = trieRootFromPairs P (txItems txHashes) := by
  cases txHashes with
  | nil => rfl
  | cons hash rest =>
    rw [transactionsRootMpt, trieRootFromPairs, txItems, List.foldl_map]
    rfl

theorem mem_txItems (hlen : txHashes.length < 2 ^ 64) (key value : List UInt8) :
    (key,value) ∈ txItems txHashes ↔
      ∃ i hash, txHashes[i]? = some hash ∧ key = rlpIndex i ∧ value = stringBytes hash.asBytes := by
  rw [txItems, List.mem_map]
  constructor
  · rintro ⟨⟨hash,i⟩,hmem,heq⟩
    have hget : txHashes[i]? = some hash := List.mem_zipIdx_iff_getElem?.mp hmem
    have hi : i < txHashes.length := (List.getElem?_eq_some_iff.mp hget).1
    rw [txEntry_eq (hi.trans hlen)] at heq
    obtain ⟨rfl,rfl⟩ := Prod.mk.inj heq
    exact ⟨i,hash,hget,rfl,rfl⟩
  · rintro ⟨i,hash,hget,rfl,rfl⟩
    have hi : i < txHashes.length := (List.getElem?_eq_some_iff.mp hget).1
    exact ⟨(hash,i),List.mem_zipIdx_iff_getElem?.mpr hget,txEntry_eq (hi.trans hlen) hash⟩

theorem nodup_txItems (hlen : txHashes.length < 2 ^ 64) : ((txItems txHashes).map Prod.fst).Nodup := by
  have hkeys : (txItems txHashes).map Prod.fst = (List.range txHashes.length).map rlpIndex := by
    rw [txItems, List.map_map, List.range_eq_range', ← List.zipIdx_map_snd 0 txHashes, List.map_map]
    refine List.map_congr_left (fun e he => ?_)
    have hi : e.2 < 2 ^ 64 := by
      have := List.snd_lt_of_mem_zipIdx he
      omega
    exact congrArg Prod.fst (txEntry_eq hi e.1)
  rw [hkeys]
  refine List.Nodup.map_on (fun i hi j hj h => ?_) List.nodup_range
  exact rlpIndex_inj ((List.mem_range.mp hi).trans hlen) ((List.mem_range.mp hj).trans hlen) h

theorem rlpBytes_ne_nil (data : List UInt8) : rlpBytes data ≠ [] := by
  unfold rlpBytes
  dsimp only
  split
  · exact List.cons_ne_nil _ _
  · split
    · exact List.cons_ne_nil _ _
    · split
      · exact List.cons_ne_nil _ _
      · exact List.cons_ne_nil _ _

theorem txItems_values (txHashes : List H256) : ∀ e ∈ txItems txHashes, e.2 ≠ [] := by
  intro e he
  obtain ⟨x,-,rfl⟩ := List.mem_map.mp he
  exact rlpBytes_ne_nil x.1.asBytes

/-- The transactions root binds the hashes. -/
theorem transactionsRootMpt_inj {DB : Type} [TrieDB DB] (db : DB) {txHashes' : List H256}
    (hsafe : Safe P E) (hlen : txHashes.length < 2 ^ 64) (hlen' : txHashes'.length < 2 ^ 64)
    (hinvolved : ∀ b ∈ TrieCall.involved P (MutableTrie.new db) (inserts (txItems txHashes)), b ∈ E)
    (hinvolved' : ∀ b ∈ TrieCall.involved P (MutableTrie.new db) (inserts (txItems txHashes')), b ∈ E)
    (h : transactionsRootMpt P txHashes = transactionsRootMpt P txHashes') : txHashes = txHashes' := by
  have hm := denotes_inserts db (List.prefix_refl _) (txItems_values txHashes) hsafe hinvolved
  have hm' := denotes_inserts db (List.prefix_refl _) (txItems_values txHashes') hsafe hinvolved'
  rw [transactionsRootMpt_eq, transactionsRootMpt_eq,
    trieRootFromPairs_after db (txItems_values txHashes) hsafe hinvolved,
    trieRootFromPairs_after db (txItems_values txHashes') hsafe hinvolved'] at h
  have hcontents := hm.contents_eq hsafe hm' h
  have hget : ∀ (l l' : List H256), l.length < 2 ^ 64 → l'.length < 2 ^ 64 →
      TrieCall.contents (inserts (txItems l)) = TrieCall.contents (inserts (txItems l')) →
      ∀ (i : ℕ) (hash : H256), l[i]? = some hash → l'[i]? = some hash := by
    intro l l' hl hl' heq i hash hi
    have hmem : (rlpIndex i,stringBytes hash.asBytes) ∈ txItems l :=
      (mem_txItems hl _ _).mpr ⟨i,hash,hi,rfl,rfl⟩
    rw [← contents_inserts (nodup_txItems hl), heq, contents_inserts (nodup_txItems hl'),
      mem_txItems hl'] at hmem
    obtain ⟨j,hash',hj,hkey,hvalue⟩ := hmem
    have hilt : i < 2 ^ 64 := ((List.getElem?_eq_some_iff.mp hi).1).trans hl
    have hjlt : j < 2 ^ 64 := ((List.getElem?_eq_some_iff.mp hj).1).trans hl'
    have hsame : hash = hash' := by
      have hread : ∀ x : H256, Rlp.asBytes ⟨stringBytes x.asBytes⟩ = .ok x.asBytes := fun x =>
        Rlp.asBytes_string (by rw [H256.length_asBytes]; omega)
      have hbytes := hread hash
      rw [hvalue, hread hash'] at hbytes
      exact (Bytes.bytesBE_bitVec_inj (k := 32) (Except.ok.inj hbytes)).symm
    rw [rlpIndex_inj hilt hjlt hkey, hsame]
    exact hj
  refine List.ext_getElem? fun i => ?_
  cases hi : txHashes[i]? with
  | some hash => exact (hget _ _ hlen hlen' hcontents i hash hi).symm
  | none =>
    cases hi' : txHashes'[i]? with
    | none => rfl
    | some hash =>
      rw [hget _ _ hlen' hlen hcontents.symm i hash hi'] at hi
      cases hi

/-- Inserting pairs into the two tries ends with one root, and the transactions root is the
root of the map from the RLP of the indices to the RLP of the hashes. -/
theorem tries_agree {DB : Type} [TrieDB DB] (db : DB) (items : List (List UInt8 × List UInt8))
    (hvalues : ∀ e ∈ items, e.2 ≠ [])
    (hkeccak : Safe P {b | b ∈ TrieCall.involved P (MutableTrie.new db) (inserts items)})
    (txHashes : List H256) (hlen : txHashes.length < 2 ^ 64)
    (hkeccakTxs : Safe P {b | b ∈ TrieCall.involved P (MutableTrie.new db) (inserts (txItems txHashes))}) :
    (∀ past e rest, items = past ++ e :: rest →
      ((TrieCall.after P (MutableTrie.new db) (inserts past)).insert P e.1 e.2).2 = .ok ()) ∧
    trieRootFromPairs P items = (TrieCall.after P (MutableTrie.new db) (inserts items)).root ∧
    transactionsRootMpt P txHashes =
      (TrieCall.after P (MutableTrie.new db) (inserts (txItems txHashes))).root ∧
    ∃ m : Contents, MutableTrie.RootOf P m (transactionsRootMpt P txHashes) ∧
      ∀ key value, m key = some value ↔
        ∃ i hash, txHashes[i]? = some hash ∧ key = rlpIndex i ∧ value = stringBytes hash.asBytes := by
  refine ⟨?_,trieRootFromPairs_after db hvalues hkeccak (fun _ h => h),?_,?_⟩
  · rintro past e rest rfl
    have hpast : past ++ [e] <+: past ++ e :: rest :=
      (List.prefix_append_right_inj past).mpr ⟨rest,rfl⟩
    have hcalls : inserts past ++ [.insert e.1 e.2] <+: inserts (past ++ e :: rest) := by
      have hmap := hpast.map fun e : List UInt8 × List UInt8 => TrieCall.insert e.1 e.2
      rwa [List.map_append] at hmap
    have hwithin : MutableTrie.Within
        {b | b ∈ TrieCall.involved P (MutableTrie.new db) (inserts (past ++ e :: rest))}
        (TrieCall.after P (MutableTrie.new db) (inserts past ++ [.insert e.1 e.2])) :=
      TrieCall.within_involved hcalls
    rw [TrieCall.after, Machine.final_append] at hwithin
    exact ((denotes_inserts db (List.prefix_append past _) hvalues hkeccak (fun _ h => h)).insert hkeccak
      (hvalues e (by simp)) hwithin).1
  · rw [transactionsRootMpt_eq]
    exact trieRootFromPairs_after db (txItems_values txHashes) hkeccakTxs (fun _ h => h)
  · refine ⟨TrieCall.contents (inserts (txItems txHashes)),?_,fun key value => ?_⟩
    · obtain ⟨hnormal,hget,hwords⟩ := boxes_spec (txItems txHashes)
      have hr := represents_boxes db (txItems_values txHashes) hkeccakTxs (fun _ h => h)
      rw [transactionsRootMpt_eq,
        trieRootFromPairs_after db (txItems_values txHashes) hkeccakTxs (fun _ h => h)]
      exact ⟨_,hnormal,hr.root,hget,hwords⟩
    · rw [contents_inserts (nodup_txItems hlen), mem_txItems hlen]

def demoItems : List (List UInt8 × List UInt8) :=
  [([0x12],[7]),([0x12,0x34],List.replicate 40 9),([0x12],[8])]

def demoHashes : List H256 := [5,2 ^ 255]

theorem tries_agree_demoItems :
    trieRootFromPairs .integersEmptyRoot demoItems =
        (TrieCall.after .integersEmptyRoot (MutableTrie.new (⟨[]⟩ : MemoryTrieDB))
          (inserts demoItems)).root ∧
      transactionsRootMpt .integersEmptyRoot demoHashes =
        (TrieCall.after .integersEmptyRoot (MutableTrie.new (⟨[]⟩ : MemoryTrieDB))
          (inserts (txItems demoHashes))).root := by
  have hagree := tries_agree (P := .integersEmptyRoot) (⟨[]⟩ : MemoryTrieDB) demoItems
    (by decide +kernel)
    (safe_of_list (by decide +kernel) (by decide +kernel) (by decide +kernel) (by decide +kernel))
    demoHashes (by decide)
    (safe_of_list (by decide +kernel) (by decide +kernel) (by decide +kernel) (by decide +kernel))
  exact ⟨hagree.2.1,hagree.2.2.1⟩

end Transactions

end ZbxChain.Mpt
