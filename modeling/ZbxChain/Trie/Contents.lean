import ZbxChain.Trie.Deletion

/-! # A trie stands for a map from byte strings to values

The map is that of a Patricia tree in normal form whose words are the keys' nibbles. The
tree is found from the trie's root, and the public operations act on the map.
-/
namespace ZbxChain

abbrev Contents := List UInt8 → Option (List UInt8)

namespace MutableTrie

variable {DB : Type} [TrieDB DB] {P : Platform} {E : Set (List UInt8)} {t t' : MutableTrie DB}
  {u : NibbleTree} {m : Contents} {key v : List UInt8}

/-- The tree is in normal form, has its root where the trie's root points, and is found
from there. -/
structure Represents (P : Platform) (E : Set (List UInt8)) (t : MutableTrie DB) (u : NibbleTree) :
    Prop where
  normal : u.Normal
  filled : Filled u
  root : t.root = rootHash P u
  top : u ≠ .empty → Holds P E t (encoding P u)
  stored : Stored P E t u

/-- As `Represents`, of a tree that may have empty values at its leaves. -/
structure Carries (P : Platform) (E : Set (List UInt8)) (t : MutableTrie DB) (u : NibbleTree) : Prop where
  normal : u.Normal
  clean : Clean u
  root : t.root = rootHash P u
  top : u ≠ .empty → Holds P E t (encoding P u)
  stored : Stored P E t u

theorem Represents.carries (hr : Represents P E t u) : Carries P E t u :=
  ⟨hr.normal,hr.filled.clean,hr.root,hr.top,hr.stored⟩

theorem Carries.represents (hr : Carries P E t u) (hfilled : Filled u) : Represents P E t u :=
  ⟨hr.normal,hfilled,hr.root,hr.top,hr.stored⟩

def Denotes (P : Platform) (E : Set (List UInt8)) (t : MutableTrie DB) (m : Contents) : Prop :=
  ∃ u, Represents P E t u ∧ (∀ k, u.get (Nibbles.fromBytes k) = m k) ∧
    ∀ word, u.Has word → ∃ k, word = Nibbles.fromBytes k

section Lookups

theorem Holds.congr {encoded : List UInt8} (hh : Holds P E t encoded)
    (h : ∀ x, t'.lookup x = t.lookup x) : Holds P E t' encoded := ⟨hh.1,by rw [h, hh.2]⟩

theorem Represents.imp {P' : Platform} (hhash : P'.keccak256 = P.keccak256) {DB' : Type} [TrieDB DB']
    {s : MutableTrie DB'} {E' : Set (List UInt8)} (hr : Represents P E t u) (hroot : s.root = t.root)
    (h : ∀ encoded, Holds P E t encoded → Holds P' E' s encoded) : Represents P' E' s u where
  normal := hr.normal
  filled := hr.filled
  root := by rw [hroot, hr.root, rootHash_congr hhash]
  top := by
    intro hne
    rw [encoding_congr hhash]
    exact h _ (hr.top hne)
  stored := hr.stored.imp hhash h

theorem Represents.grows (hsafe : Safe P E) (hr : Represents P E t u) (hg : Grows P t t')
    (hw : Within E t') : Represents P E t' u :=
  hr.imp rfl hg.root (fun _ hheld => hheld.grows hsafe hg hw)

end Lookups

theorem represents_new (db : DB) : Represents P E (new db) .empty where
  normal := trivial
  filled := nofun
  root := rfl
  top := fun h => absurd rfl h
  stored := trivial

theorem Carries.resolve_root (hsafe : Safe P E) (hr : Carries P E t u) :
    (t.root = emptyRoot ↔ u = .empty) ∧ t.resolve (.hash t.root) = .ok (toNode P u) := by
  by_cases hne : u = .empty
  · subst hne
    have hroot : t.root = emptyRoot := hr.root
    exact ⟨iff_of_true hroot rfl,if_pos hroot⟩
  · have hroot := hr.root
    rw [rootHash_of_ne hne] at hroot
    obtain ⟨hnonempty,hresolve⟩ := resolve_hash hsafe hr.clean hne (hr.top hne)
    rw [hroot]
    exact ⟨iff_of_false hnonempty hne,hresolve⟩

theorem Represents.resolve_root (hsafe : Safe P E) (hr : Represents P E t u) :
    (t.root = emptyRoot ↔ u = .empty) ∧ t.resolve (.hash t.root) = .ok (toNode P u) :=
  hr.carries.resolve_root hsafe

/-- A commit stores the nodes of the tree and points the root at them. -/
theorem commitRoot_spec (hsafe : Safe P E) (hnormal : u.Normal) (hclean : Clean u)
    (hstored : Stored P E t u) (hw : Within E (t.commitRoot P (toNode P u)).1) :
    Carries P E
      { (t.commitRoot P (toNode P u)).1 with root := (t.commitRoot P (toNode P u)).2 } u := by
  by_cases hne : u = .empty
  · subst hne
    exact ⟨trivial,trivial,rfl,fun h => absurd rfl h,trivial⟩
  · have hcommit : t.commitRoot P (toNode P u) =
        ({ t with cache := (rootHash P u,encoding P u) :: t.cache },rootHash P u) := by
      rw [rootHash_of_ne hne]
      cases u with
      | empty => exact absurd rfl hne
      | leaf path value => rfl
      | ext path child => rfl
      | branch children value => rfl
    rw [hcommit] at hw ⊢
    have hg : Grows P t { t with cache := (rootHash P u,encoding P u) :: t.cache } :=
      ⟨rfl,rfl,[(rootHash P u,encoding P u)],rfl,by simp [rootHash_of_ne hne]⟩
    have htop : Holds P E { t with cache := (rootHash P u,encoding P u) :: t.cache } (encoding P u) := by
      refine ⟨hw _ List.mem_cons_self,?_⟩
      rw [lookup, ← rootHash_of_ne hne, List.lookup_cons, beq_self_eq_true]
    exact ⟨hnormal,hclean,rfl,fun _ => htop.congr (fun _ => rfl),
      (hstored.grows hsafe hg hw).imp rfl (fun _ hheld => hheld.congr (fun _ => rfl))⟩

omit [TrieDB DB] in
theorem grows_commitRoot (t : MutableTrie DB) (node : TrieNode) : Grows P t (t.commitRoot P node).1 := by
  cases node with
  | empty => exact Grows.refl t
  | leaf path value => exact ⟨rfl,rfl,[_],rfl,by simp⟩
  | extension path child => exact ⟨rfl,rfl,[_],rfl,by simp⟩
  | branch children value => exact ⟨rfl,rfl,[_],rfl,by simp⟩

section Calls
variable {r : MutableTrie DB × Except Fault TrieNode}
  {d : MutableTrie DB × Except Fault (TrieNode × Bool)} {node newRoot : TrieNode}

theorem insert_within
    (hold : (if t.root = emptyRoot then .ok .empty else t.resolve (.hash t.root)) = .ok node)
    (hcall : t.insertNode P ((Nibbles.fromBytes key).length + 1) node (Nibbles.fromBytes key) 0 v = r)
    (hw : Within E (t.insert P key v).1) : Within E r.1 := by
  simp only [insert, hold, hcall] at hw
  obtain ⟨t',_ | newRoot⟩ := r
  · exact hw
  · exact (grows_commitRoot t' newRoot).within hw

theorem insert_of_ok
    (hold : (if t.root = emptyRoot then .ok .empty else t.resolve (.hash t.root)) = .ok node)
    (hcall : t.insertNode P ((Nibbles.fromBytes key).length + 1) node (Nibbles.fromBytes key) 0 v = r)
    (hok : r.2 = .ok newRoot) :
    t.insert P key v = ({ (r.1.commitRoot P newRoot).1 with root := (r.1.commitRoot P newRoot).2 },
      .ok ()) := by
  obtain ⟨t',r⟩ := r
  cases hok
  simp only [insert, hold, hcall]

theorem delete_within (hroot : t.root ≠ emptyRoot) (hold : t.resolve (.hash t.root) = .ok node)
    (hcall : t.deleteNode P ((Nibbles.fromBytes key).length + 1) node (Nibbles.fromBytes key) 0 = d)
    (hw : Within E (t.delete P key).1) : Within E d.1 := by
  simp only [delete, if_neg hroot, hold, hcall] at hw
  obtain ⟨t',_ | ⟨newRoot,_ | _⟩⟩ := d
  · exact hw
  · exact hw
  · exact (grows_commitRoot t' newRoot).within hw

theorem delete_of_absent (hroot : t.root ≠ emptyRoot) (hold : t.resolve (.hash t.root) = .ok node)
    (hcall : t.deleteNode P ((Nibbles.fromBytes key).length + 1) node (Nibbles.fromBytes key) 0 = d)
    (hok : d.2 = .ok (newRoot,false)) : t.delete P key = (d.1, .ok false) := by
  obtain ⟨t',d⟩ := d
  cases hok
  simp only [delete, if_neg hroot, hold, hcall]

theorem delete_of_found (hroot : t.root ≠ emptyRoot) (hold : t.resolve (.hash t.root) = .ok node)
    (hcall : t.deleteNode P ((Nibbles.fromBytes key).length + 1) node (Nibbles.fromBytes key) 0 = d)
    (hok : d.2 = .ok (newRoot,true)) :
    t.delete P key = ({ (d.1.commitRoot P newRoot).1 with root := (d.1.commitRoot P newRoot).2 },
      .ok true) := by
  obtain ⟨t',d⟩ := d
  cases hok
  simp only [delete, if_neg hroot, hold, hcall]

theorem Carries.insert (hsafe : Safe P E) (hr : Carries P E t u)
    (hclean : Clean (Patricia.insert u (Nibbles.fromBytes key) v))
    (hw : Within E (t.insert P key v).1) :
    (t.insert P key v).2 = .ok () ∧
      Carries P E (t.insert P key v).1 (Patricia.insert u (Nibbles.fromBytes key) v) := by
  obtain ⟨hroot,hresolve⟩ := hr.resolve_root hsafe
  have hold : (if t.root = emptyRoot then .ok .empty else t.resolve (.hash t.root)) =
      .ok (toNode P u) := by
    by_cases hempty : t.root = emptyRoot
    · rw [if_pos hempty, hroot.mp hempty]
      rfl
    · rw [if_neg hempty, hresolve]
  obtain ⟨r,hcall⟩ : ∃ r, t.insertNode P ((Nibbles.fromBytes key).length + 1) (toNode P u)
      (Nibbles.fromBytes key) 0 v = r := ⟨_,rfl⟩
  have hmid := insert_within hold hcall hw
  have hbuilds : Builds P E (Patricia.insert u (Nibbles.fromBytes key) v) r := by
    rw [← hcall] at hmid ⊢
    exact insertNode_spec hsafe _ (Nat.zero_le _) (Nat.lt_succ_self _) hr.normal hr.clean hr.stored v hmid
  rw [insert_of_ok hold hcall hbuilds.1] at hw ⊢
  exact ⟨rfl,commitRoot_spec hsafe (hr.normal.insert _ v) hclean hbuilds.2 hw⟩

/-- The trie in its store follows the insertion of the tree. -/
theorem Represents.insert (hsafe : Safe P E) (hr : Represents P E t u) (hv : v ≠ [])
    (hw : Within E (t.insert P key v).1) :
    (t.insert P key v).2 = .ok () ∧
      Represents P E (t.insert P key v).1 (Patricia.insert u (Nibbles.fromBytes key) v) := by
  have hfilled : Filled (Patricia.insert u (Nibbles.fromBytes key) v) := by
    intro k w hw'
    rw [Patricia.get_insert] at hw'
    split at hw'
    · exact Option.some.inj hw' ▸ hv
    · exact hr.filled k w hw'
  obtain ⟨hok,hcarries⟩ := hr.carries.insert hsafe hfilled.clean hw
  exact ⟨hok,hcarries.represents hfilled⟩

/-- The trie in its store follows the deletion of the tree. -/
theorem Represents.delete (hsafe : Safe P E) (hr : Represents P E t u)
    (hw : Within E (t.delete P key).1) :
    (t.delete P key).2 = .ok (u.get (Nibbles.fromBytes key)).isSome ∧
      Represents P E (t.delete P key).1 ((Patricia.delete u (Nibbles.fromBytes key)).getD u) := by
  obtain ⟨hroot,hold⟩ := hr.resolve_root hsafe
  by_cases hempty : u = .empty
  · subst hempty
    rw [MutableTrie.delete, if_pos (hroot.mpr rfl)]
    exact ⟨rfl,hr⟩
  · have hroot' : t.root ≠ emptyRoot := fun h => hempty (hroot.mp h)
    obtain ⟨d,hcall⟩ : ∃ d, t.deleteNode P ((Nibbles.fromBytes key).length + 1) (toNode P u)
        (Nibbles.fromBytes key) 0 = d := ⟨_,rfl⟩
    have hmid := delete_within hroot' hold hcall hw
    have hremoves : Removes P E u (Nibbles.fromBytes key) d := by
      rw [← hcall] at hmid ⊢
      exact deleteNode_spec hsafe _ (Nat.zero_le _) (Nat.lt_succ_self _) hr.normal hr.filled hr.stored hmid
    have habsent := Patricia.delete_eq_none u (Nibbles.fromBytes key)
    unfold Removes at hremoves
    cases hdelete : Patricia.delete u (Nibbles.fromBytes key) with
    | none =>
      rw [hdelete] at hremoves
      rw [delete_of_absent hroot' hold hcall hremoves, habsent.mp hdelete]
      have hg : Grows P t d.1 := by
        rw [← hcall]
        exact grows_deleteNode _ t _ _ 0
      exact ⟨rfl,hr.grows hsafe hg hmid⟩
    | some u' =>
      rw [hdelete] at hremoves
      have hsome : (u.get (Nibbles.fromBytes key)).isSome = true := by
        rw [Option.isSome_iff_ne_none]
        intro hnone
        rw [habsent.mpr hnone] at hdelete
        cases hdelete
      rw [delete_of_found hroot' hold hcall hremoves.1] at hw ⊢
      rw [hsome]
      have hfilled := filled_delete hr.filled hdelete
      exact ⟨rfl,(commitRoot_spec hsafe (hr.normal.delete hdelete) hfilled.clean hremoves.2 hw).represents
        hfilled⟩

/-- A lookup through the store answers what the tree answers. -/
theorem Represents.get (hsafe : Safe P E) (hr : Represents P E t u) (key : List UInt8) :
    t.get key = .ok (u.get (Nibbles.fromBytes key)) := by
  obtain ⟨hroot,hresolve⟩ := hr.resolve_root hsafe
  by_cases hempty : u = .empty
  · subst hempty
    exact if_pos (hroot.mpr rfl)
  · rw [MutableTrie.get, if_neg (fun h => hempty (hroot.mp h))]
    exact getNode_spec hsafe _ (Nat.zero_le _) (Nat.lt_succ_self _) hr.normal hr.filled.clean hr.stored hresolve

end Calls

section Growth

/-- The calls that edit a trie only ever add to its cache. -/
structure Extends (t t' : MutableTrie DB) : Prop where
  db : t'.db = t.db
  cache : ∃ added : NodeMap, t'.cache = added ++ t.cache

omit [TrieDB DB] in
theorem Extends.refl (t : MutableTrie DB) : Extends t t := ⟨rfl,[],rfl⟩

omit [TrieDB DB] in
theorem Extends.trans {t'' : MutableTrie DB} (h : Extends t t') (h' : Extends t' t'') :
    Extends t t'' := by
  obtain ⟨added,hcache⟩ := h.cache
  obtain ⟨added',hcache'⟩ := h'.cache
  exact ⟨h'.db.trans h.db,added' ++ added,by rw [hcache', hcache, List.append_assoc]⟩

omit [TrieDB DB] in
theorem Extends.within (h : Extends t t') (hw : Within E t') : Within E t := by
  obtain ⟨added,hcache⟩ := h.cache
  intro e he
  exact hw e (by rw [hcache]; exact List.mem_append_right _ he)

omit [TrieDB DB] in
theorem Grows.extends (h : Grows P t t') (root : H256) : Extends t { t' with root := root } := by
  obtain ⟨added,hcache,-⟩ := h.cache
  exact ⟨h.db,added,hcache⟩

theorem extends_insert (t : MutableTrie DB) (key v : List UInt8) : Extends t (t.insert P key v).1 := by
  unfold MutableTrie.insert
  dsimp only
  split
  · exact Extends.refl t
  · rename_i node hold
    have hg := grows_insertNode (P := P) ((Nibbles.fromBytes key).length + 1) t node
      (Nibbles.fromBytes key) 0 v
    rcases hcall : t.insertNode P ((Nibbles.fromBytes key).length + 1) node (Nibbles.fromBytes key) 0 v
      with ⟨t',_ | newRoot⟩
    · rw [hcall] at hg
      exact hg.extends t'.root
    · rw [hcall] at hg
      exact (hg.trans (grows_commitRoot t' newRoot)).extends _

theorem extends_delete (t : MutableTrie DB) (key : List UInt8) : Extends t (t.delete P key).1 := by
  unfold MutableTrie.delete
  dsimp only
  split
  · exact Extends.refl t
  · split
    · exact Extends.refl t
    · rename_i node hold
      have hg := grows_deleteNode (P := P) ((Nibbles.fromBytes key).length + 1) t node
        (Nibbles.fromBytes key) 0
      rcases hcall : t.deleteNode P ((Nibbles.fromBytes key).length + 1) node (Nibbles.fromBytes key) 0
        with ⟨t',_ | ⟨newRoot,_ | _⟩⟩
      · rw [hcall] at hg
        exact hg.extends t'.root
      · rw [hcall] at hg
        exact hg.extends t'.root
      · rw [hcall] at hg
        exact (hg.trans (grows_commitRoot t' newRoot)).extends _

end Growth

section Genuine

/-- The cached nodes are under their hashes, and none of them is empty. -/
def Genuine (P : Platform) (t : MutableTrie DB) : Prop := ∀ e ∈ t.cache, e.1 = P.keccak256 e.2 ∧ e.2 ≠ [0x80]

omit [TrieDB DB] in
theorem frame_genuine :
    Frame P (fun t t' : MutableTrie DB => Genuine P t → Genuine P t') where
  refl _ h := h
  trans h h' hgenuine := h' (h hgenuine)
  storeNode t node h := by
    unfold storeNode
    dsimp only
    split
    · exact h
    · rename_i hlong
      refine List.forall_mem_cons.mpr ⟨⟨rfl,?_⟩,h⟩
      intro hempty
      have hlen : node.encode.length = 1 := congrArg List.length hempty
      omega

omit [TrieDB DB] in
theorem genuine_commitRoot (h : Genuine P t) (node : TrieNode) (root : H256) :
    Genuine P { (t.commitRoot P node).1 with root := root } := by
  have hcached : ∀ node : TrieNode, node ≠ .empty →
      ∀ e ∈ (P.keccak256 node.encode,node.encode) :: t.cache, e.1 = P.keccak256 e.2 ∧ e.2 ≠ [0x80] :=
    fun node hne => List.forall_mem_cons.mpr ⟨⟨rfl,TrieNode.encode_ne hne⟩,h⟩
  cases node with
  | empty => exact h
  | leaf path value => exact hcached _ nofun
  | extension path child => exact hcached _ nofun
  | branch children value => exact hcached _ nofun

theorem Genuine.insert (h : Genuine P t) (key value : List UInt8) : Genuine P (t.insert P key value).1 := by
  unfold MutableTrie.insert
  dsimp only
  split
  · exact h
  · rename_i node hold
    have hkept := frame_insertNode (frame_genuine (P := P)) ((Nibbles.fromBytes key).length + 1) t node
      (Nibbles.fromBytes key) 0 value h
    rcases hcall : t.insertNode P ((Nibbles.fromBytes key).length + 1) node (Nibbles.fromBytes key) 0 value
      with ⟨t',_ | newRoot⟩
    · rw [hcall] at hkept
      exact hkept
    · rw [hcall] at hkept
      exact genuine_commitRoot hkept newRoot _

theorem Genuine.delete (h : Genuine P t) (key : List UInt8) : Genuine P (t.delete P key).1 := by
  unfold MutableTrie.delete
  dsimp only
  split
  · exact h
  · split
    · exact h
    · rename_i node hold
      have hkept := frame_deleteNode (frame_genuine (P := P)) ((Nibbles.fromBytes key).length + 1) t node
        (Nibbles.fromBytes key) 0 h
      rcases hcall : t.deleteNode P ((Nibbles.fromBytes key).length + 1) node (Nibbles.fromBytes key) 0
        with ⟨t',_ | ⟨newRoot,_ | _⟩⟩
      · rw [hcall] at hkept
        exact hkept
      · rw [hcall] at hkept
        exact hkept
      · rw [hcall] at hkept
        exact genuine_commitRoot hkept newRoot _

end Genuine

section Map

theorem denotes_new (db : DB) : Denotes P E (new db) (fun _ => none) :=
  ⟨.empty,represents_new db,fun _ => rfl,fun _ h => absurd rfl h⟩

theorem Denotes.insert (hsafe : Safe P E) (hm : Denotes P E t m) (hv : v ≠ [])
    (hw : Within E (t.insert P key v).1) :
    (t.insert P key v).2 = .ok () ∧
      Denotes P E (t.insert P key v).1 (Function.update m key (some v)) := by
  obtain ⟨u,hr,hget,hwords⟩ := hm
  obtain ⟨hok,hr'⟩ := hr.insert hsafe hv hw
  refine ⟨hok,_,hr',fun k => ?_,fun word hword => ?_⟩
  · rw [Patricia.get_insert]
    by_cases hk : k = key
    · subst hk
      rw [if_pos rfl, Function.update_self]
    · rw [if_neg (fun h => hk (Nibbles.fromBytes_inj h)), Function.update_of_ne hk, hget]
  · by_cases hw : word = Nibbles.fromBytes key
    · exact ⟨key,hw⟩
    · rw [Patricia.Has, Patricia.get_insert, if_neg hw] at hword
      exact hwords word hword

theorem Denotes.delete (hsafe : Safe P E) (hm : Denotes P E t m)
    (hw : Within E (t.delete P key).1) :
    (t.delete P key).2 = .ok (m key).isSome ∧
      Denotes P E (t.delete P key).1 (Function.update m key none) := by
  obtain ⟨u,hr,hget,hwords⟩ := hm
  obtain ⟨hok,hr'⟩ := hr.delete hsafe hw
  have hwithout : ∀ k, ((Patricia.delete u (Nibbles.fromBytes key)).getD u).get k =
      if k = Nibbles.fromBytes key then none else u.get k := by
    intro k
    cases hdelete : Patricia.delete u (Nibbles.fromBytes key) with
    | none =>
      have habsent := (Patricia.delete_eq_none u _).mp hdelete
      by_cases hk : k = Nibbles.fromBytes key
      · rw [if_pos hk, hk]
        exact habsent
      · rw [if_neg hk]
        rfl
    | some u' => exact Patricia.get_delete hdelete k
  refine ⟨by rw [hok, hget],_,hr',fun k => ?_,fun word hword => ?_⟩
  · rw [hwithout]
    by_cases hk : k = key
    · subst hk
      rw [if_pos rfl, Function.update_self]
    · rw [if_neg (fun h => hk (Nibbles.fromBytes_inj h)), Function.update_of_ne hk, hget]
  · rw [Patricia.Has, hwithout] at hword
    by_cases hw : word = Nibbles.fromBytes key
    · exact ⟨key,hw⟩
    · rw [if_neg hw] at hword
      exact hwords word hword

theorem Denotes.get (hsafe : Safe P E) (hm : Denotes P E t m) (key : List UInt8) :
    t.get key = .ok (m key) := by
  obtain ⟨u,hr,hget,-⟩ := hm
  rw [hr.get hsafe, hget]

/-- The root hash of the trie of a map. -/
def RootOf (P : Platform) (m : Contents) (root : H256) : Prop :=
  ∃ u : NibbleTree, u.Normal ∧ root = rootHash P u ∧ (∀ k, u.get (Nibbles.fromBytes k) = m k) ∧
    ∀ word, u.Has word → ∃ k, word = Nibbles.fromBytes k

theorem tree_eq_of_map {u' : NibbleTree} (hnormal : u.Normal) (hnormal' : u'.Normal)
    (hget : ∀ k, u.get (Nibbles.fromBytes k) = m k) (hget' : ∀ k, u'.get (Nibbles.fromBytes k) = m k)
    (hwords : ∀ word, u.Has word → ∃ k, word = Nibbles.fromBytes k)
    (hwords' : ∀ word, u'.Has word → ∃ k, word = Nibbles.fromBytes k) : u = u' := by
  refine hnormal.ext hnormal' fun word => ?_
  by_cases hbytes : ∃ k, word = Nibbles.fromBytes k
  · obtain ⟨k,rfl⟩ := hbytes
    rw [hget, hget']
  · have hnone : u.get word = none := not_not.mp (fun h => hbytes (hwords word h))
    have hnone' : u'.get word = none := not_not.mp (fun h => hbytes (hwords' word h))
    rw [hnone, hnone']

/-- One map has one root. -/
theorem RootOf.unique {P' : Platform} (hhash : P'.keccak256 = P.keccak256) {root root' : H256}
    (h : RootOf P m root) (h' : RootOf P' m root') : root = root' := by
  obtain ⟨u,hnormal,hroot,hget,hwords⟩ := h
  obtain ⟨u',hnormal',hroot',hget',hwords'⟩ := h'
  rw [hroot, hroot', rootHash_congr hhash, tree_eq_of_map hnormal hnormal' hget hget' hwords hwords']

theorem Denotes.rootOf (hm : Denotes P E t m) : RootOf P m t.root := by
  obtain ⟨u,hr,hget⟩ := hm
  exact ⟨u,hr.normal,hr.root,hget⟩

theorem Denotes.root_eq {P' : Platform} (hhash : P'.keccak256 = P.keccak256) {DB' : Type}
    [TrieDB DB'] {E' : Set (List UInt8)} {s : MutableTrie DB'} (hm : Denotes P E t m)
    (hm' : Denotes P' E' s m) : t.root = s.root := hm.rootOf.unique hhash hm'.rootOf

theorem Denotes.root_empty (hm : Denotes P E t (fun _ => none)) : t.root = emptyRoot := by
  have hnew : Denotes P E (new t.db) (fun _ => none) := denotes_new t.db
  exact hm.root_eq rfl hnew

theorem Denotes.root_eq_empty_iff (hsafe : Safe P E) (hm : Denotes P E t m) :
    t.root = emptyRoot ↔ m = (fun _ => none) := by
  constructor
  · intro hroot
    obtain ⟨u,hr,hget,-⟩ := hm
    have hempty := (hr.resolve_root hsafe).1.mp hroot
    funext k
    rw [← hget k, hempty]
    rfl
  · rintro rfl
    exact hm.root_empty

theorem Denotes.imp {P' : Platform} (hhash : P'.keccak256 = P.keccak256) {DB' : Type} [TrieDB DB']
    {s : MutableTrie DB'} {E' : Set (List UInt8)} (hm : Denotes P E t m) (hroot : s.root = t.root)
    (h : ∀ encoded, Holds P E t encoded → Holds P' E' s encoded) : Denotes P' E' s m := by
  obtain ⟨u,hr,hget⟩ := hm
  exact ⟨u,hr.imp hhash hroot h,hget⟩

theorem Denotes.congr (hm : Denotes P E t m) (hroot : t'.root = t.root)
    (h : ∀ x, t'.lookup x = t.lookup x) : Denotes P E t' m :=
  hm.imp rfl hroot (fun _ hheld => hheld.congr h)

end Map

end MutableTrie

end ZbxChain
