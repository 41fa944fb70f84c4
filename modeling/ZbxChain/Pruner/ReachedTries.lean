import ZbxChain.Light.AccountProofs
import ZbxChain.Pruner.PruneRuns
import ZbxChain.State.Persistence

/-! # The tries that a walk goes through

The nodes of an account trie refer to each other by their hashes, and its leaves name storage
tries. A walk over a database with these tries comes to every node of them and to no other one;
only a hash of zero, which it takes for no trie, stops it.
-/
namespace ZbxChain
open Marking MutableTrie AccountProof
open Patricia (Subtree)

section Leaves
variable (st : AccountState) (root : H256)

theorem accountStorageRoot_encode : accountStorageRoot (encodeAccountRlp st root) = some root := by
  have hframed := framed_leafItems st root
  have hlen := length_leafItems st root
  have hlist : Rlp.isList ⟨encodeAccountRlp st root⟩ = true := by
    rw [encodeAccountRlp_items]
    exact Rlp.isList_list hlen
  have hcount : Rlp.itemCount ⟨encodeAccountRlp st root⟩ = .ok (leafItems st root).length := by
    rw [encodeAccountRlp_items]
    exact Rlp.itemCount_list hframed hlen
  have hitem : Rlp.itemAt ⟨encodeAccountRlp st root⟩ 2 = .ok ⟨RlpStream.stringBytes root.asBytes⟩ := by
    rw [encodeAccountRlp_items, Rlp.itemAt_list hframed hlen]
    rfl
  have hbytes : Rlp.bytesAt ⟨encodeAccountRlp st root⟩ 2 = .ok root.asBytes := by
    simp [Rlp.bytesAt, hitem, bind, Except.bind, Rlp.asBytes_string]
  have hitems : ¬ ((leafItems st root).length ≠ 4 ∧ (leafItems st root).length ≠ 5) := by
    by_cases hzvm : st.vm = .zvm
    · simp [leafItems, hzvm]
    · simp [leafItems, hzvm]
  simp only [accountStorageRoot, hlist, hcount, hbytes, not_true_eq_false, if_false, if_neg hitems,
    H256.length_asBytes, ne_eq, H256.fromSlice_asBytes]

theorem encodeAccountRlp_ne_slot (value : H256) : encodeAccountRlp st root ≠ encodeSlotValue value := by
  intro h
  have hlist : Rlp.isList ⟨encodeAccountRlp st root⟩ = true := by
    rw [encodeAccountRlp_items]
    exact Rlp.isList_list (length_leafItems st root)
  have hout : encodeSlotValue value = RlpStream.stringBytes (stripLeadingZeros value.asBytes) := by
    simp [encodeSlotValue, RlpStream.append_eq, RlpStream.out, RlpStream.new]
  have hstrip := length_stripLeadingZeros value.asBytes
  rw [H256.length_asBytes] at hstrip
  rw [h, hout, Rlp.isList_string (by omega)] at hlist
  cases hlist

end Leaves

section Calls
variable {P : Platform} {u : NibbleTree} {role : Bool} {s : WalkCall}

def LinkedIn (P : Platform) (w u : NibbleTree) : Prop := Subtree w u ∧ 32 ≤ (encoding P w).length

theorem LinkedIn.ne_empty {w : NibbleTree} (h : LinkedIn P w u) : w ≠ .empty := by
  rintro rfl
  have hlong := h.2
  rw [encoding_empty] at hlong
  exact absurd hlong (by decide)

def nodeCall (P : Platform) (role : Bool) (w : NibbleTree) : WalkCall := (P.keccak256 (encoding P w),role)

/-- The storage trie that a value of a tree leads to. -/
def NamedBy (u : NibbleTree) (role : Bool) (sr : H256) : Prop :=
  role = true ∧ ∃ key v, u.get key = some v ∧ accountStorageRoot v = some sr

theorem NamedBy.subtree {w : NibbleTree} {sr : H256} (hsub : Subtree w u) (h : NamedBy w role sr) :
    NamedBy u role sr := by
  obtain ⟨hrole,key,v,hget,hv⟩ := h
  obtain ⟨key',hget'⟩ := hsub.get hget
  exact ⟨hrole,key',v,hget',hv⟩

theorem mem_storageCalls {value : List UInt8} : s ∈ storageCalls role value ↔
    role = true ∧ ∃ sr, accountStorageRoot value = some sr ∧ s = (sr,false) := by
  unfold storageCalls
  cases role with
  | false => simp
  | true =>
    cases hroot : accountStorageRoot value with
    | none => simp
    | some sr => simp

theorem calls_treeRef (u : NibbleTree) (role : Bool) : (treeRef P u).calls role =
    if (encoding P u).length < 32 then (toNode P u).calls role else [nodeCall P role u] := by
  by_cases hne : u = .empty
  · subst hne
    simp [NodeRef.calls, TrieNode.calls]
  · rw [treeRef_of_ne hne]
    split
    · rw [NodeRef.calls]
    · rw [NodeRef.calls]
      rfl

/-- The calls to the nodes that a tree is linked to, and to the storage tries of its values. -/
def CallOf (P : Platform) (u : NibbleTree) (role : Bool) (s : WalkCall) : Prop :=
  (∃ w, LinkedIn P w u ∧ s = nodeCall P role w) ∨ ∃ sr, NamedBy u role sr ∧ s = (sr,false)

theorem CallOf.subtree {w : NibbleTree} (hsub : Subtree w u) (h : CallOf P w role s) : CallOf P u role s := by
  rcases h with ⟨x,hx,hs⟩ | ⟨sr,hnamed,hs⟩
  · exact .inl ⟨x,⟨hx.1.trans hsub,hx.2⟩,hs⟩
  · exact .inr ⟨sr,hnamed.subtree hsub,hs⟩

/-- A node leads to subtrees and to the storage tries of its values. -/
theorem calls_sound (h : s ∈ (toNode P u).calls role) : CallOf P u role s := by
  have hchild : ∀ {child : NibbleTree}, (s ∈ (toNode P child).calls role → CallOf P child role s) →
      s ∈ (treeRef P child).calls role → CallOf P child role s := by
    intro child ih hs
    rw [calls_treeRef] at hs
    split at hs
    · exact ih hs
    · rename_i hlong
      exact .inl ⟨child,⟨.refl child,Nat.le_of_not_lt hlong⟩,List.mem_singleton.mp hs⟩
  have hvalue : ∀ (t : NibbleTree) (key : Nibbles) (v : List UInt8), t.get key = some v →
      s ∈ storageCalls role v → CallOf P t role s := by
    intro t key v hget hs
    obtain ⟨hrole,sr,hsr,rfl⟩ := mem_storageCalls.mp hs
    exact .inr ⟨sr,⟨hrole,key,v,hget,hsr⟩,rfl⟩
  induction u with
  | empty =>
    simp only [toNode_empty, TrieNode.calls] at h
    cases h
  | leaf path value =>
    simp only [toNode_leaf, TrieNode.calls] at h
    exact hvalue _ path value (by simp) h
  | ext path child ih =>
    simp only [toNode_ext, TrieNode.calls] at h
    exact (hchild ih h).subtree (.ext path (.refl child))
  | branch children value ih =>
    simp only [toNode_branch, TrieNode.calls] at h
    rcases List.mem_append.mp h with h | h
    · obtain ⟨i,-,hi⟩ := List.mem_flatMap.mp h
      exact (hchild (ih i) hi).subtree (.branch value i (.refl _))
    · cases value with
      | none => cases h
      | some v => exact hvalue _ [] v rfl h

/-- The calls of linked nodes lead on within a set of calls. -/
def ClosedBelow (P : Platform) (u : NibbleTree) (role : Bool) (Q : WalkCall → Prop) : Prop :=
  ∀ w, LinkedIn P w u → Q (nodeCall P role w) → ∀ s ∈ (toNode P w).calls role, Q s

theorem ClosedBelow.subtree {Q : WalkCall → Prop} {w : NibbleTree} (hsub : Subtree w u)
    (h : ClosedBelow P u role Q) : ClosedBelow P w role Q := fun x hx => h x ⟨hx.1.trans hsub,hx.2⟩

theorem calls_cover_ref {Q : WalkCall → Prop} (hclosed : ClosedBelow P u role Q)
    (ih : (∀ s ∈ (toNode P u).calls role, Q s) →
      (∀ w, LinkedIn P w u → w = u ∨ Q (nodeCall P role w)) ∧ ∀ sr, NamedBy u role sr → Q (sr,false))
    (h : ∀ s ∈ (treeRef P u).calls role, Q s) :
    (∀ w, LinkedIn P w u → Q (nodeCall P role w)) ∧ ∀ sr, NamedBy u role sr → Q (sr,false) := by
  by_cases hshort : (encoding P u).length < 32
  · rw [calls_treeRef, if_pos hshort] at h
    obtain ⟨hnodes,hnamed⟩ := ih h
    refine ⟨fun w hw => (hnodes w hw).resolve_left ?_,hnamed⟩
    rintro rfl
    exact absurd hw.2 (Nat.not_le.mpr hshort)
  · have hself : Q (nodeCall P role u) := by
      refine h _ ?_
      rw [calls_treeRef, if_neg hshort]
      exact List.mem_singleton_self _
    obtain ⟨hnodes,hnamed⟩ := ih (hclosed u ⟨.refl u,Nat.le_of_not_lt hshort⟩ hself)
    refine ⟨fun w hw => ?_,hnamed⟩
    rcases hnodes w hw with rfl | hw
    · exact hself
    · exact hw

/-- What is closed under the calls of linked nodes and has those of a node, has all calls of
its tree. -/
theorem calls_cover {Q : WalkCall → Prop} (hclosed : ClosedBelow P u role Q)
    (h : ∀ s ∈ (toNode P u).calls role, Q s) :
    (∀ w, LinkedIn P w u → w = u ∨ Q (nodeCall P role w)) ∧ ∀ sr, NamedBy u role sr → Q (sr,false) := by
  induction u with
  | empty =>
    refine ⟨fun w hw => ?_,fun sr hnamed => ?_⟩
    · cases hw.1
      exact .inl rfl
    · obtain ⟨-,key,v,hget,-⟩ := hnamed
      cases hget
  | leaf path value =>
    refine ⟨fun w hw => ?_,fun sr hnamed => ?_⟩
    · cases hw.1
      exact .inl rfl
    · obtain ⟨hrole,key,v,hget,hv⟩ := hnamed
      rw [Patricia.get_leaf] at hget
      split at hget
      · cases hget
        refine h _ ?_
        simp only [toNode_leaf, TrieNode.calls]
        exact mem_storageCalls.mpr ⟨hrole,sr,hv,rfl⟩
      · cases hget
  | ext path child ih =>
    simp only [toNode_ext, TrieNode.calls] at h
    have hclosed' : ClosedBelow P child role Q := hclosed.subtree (.ext path (.refl child))
    obtain ⟨hnodes,hnamed⟩ := calls_cover_ref hclosed' (ih hclosed') h
    refine ⟨fun w hw => ?_,fun sr hsr => ?_⟩
    · obtain ⟨hsub,hlong⟩ := hw
      cases hsub with
      | refl => exact .inl rfl
      | ext _ hsub => exact .inr (hnodes w ⟨hsub,hlong⟩)
    · obtain ⟨hrole,key,v,hget,hv⟩ := hsr
      obtain ⟨rest,-,hget⟩ := Option.bind_eq_some_iff.mp hget
      exact hnamed sr ⟨hrole,rest,v,hget,hv⟩
  | branch children value ih =>
    simp only [toNode_branch, TrieNode.calls] at h
    have hparts : ∀ i, (∀ w, LinkedIn P w (children i) → Q (nodeCall P role w)) ∧
        ∀ sr, NamedBy (children i) role sr → Q (sr,false) := by
      intro i
      have hclosed' : ClosedBelow P (children i) role Q := hclosed.subtree (.branch value i (.refl _))
      refine calls_cover_ref hclosed' (ih i hclosed') (fun s hs => h s ?_)
      exact List.mem_append_left _ (List.mem_flatMap.mpr ⟨i,List.mem_finRange i,hs⟩)
    refine ⟨fun w hw => ?_,fun sr hsr => ?_⟩
    · obtain ⟨hsub,hlong⟩ := hw
      cases hsub with
      | refl => exact .inl rfl
      | branch _ i hsub => exact .inr ((hparts i).1 w ⟨hsub,hlong⟩)
    · obtain ⟨hrole,key,v,hget,hv⟩ := hsr
      cases key with
      | nil =>
        obtain rfl : value = some v := hget
        exact h _ (List.mem_append_right _ (mem_storageCalls.mpr ⟨hrole,sr,hv,rfl⟩))
      | cons i key => exact (hparts i).2 sr ⟨hrole,key,v,hget,hv⟩

end Calls

section Columns
variable {P : Platform} {E : Set (List UInt8)} {trieNodes : Table H256 (List UInt8)} {u w : NibbleTree}
  {root h : H256} {role : Bool} {s : WalkCall}

/-- The column as a trie over it reads it. -/
def columnDb (trieNodes : Table H256 (List UInt8)) : ZbxDbTrieAdapter :=
  ⟨trieNodes.entries.map (fun e => (e.1,e.2)),[]⟩

/-- The column has all nodes of the trie with this root, which is that of the tree. -/
def HoldsTrie (P : Platform) (trieNodes : Table H256 (List UInt8)) (root : H256) (u : NibbleTree) : Prop :=
  Represents P {b | b ∈ (columnDb trieNodes).nodes} (fromRoot root (columnDb trieNodes)) u

/-- The hashes of the nodes that a trie stores: of its root, and of what is referred to by its hash. -/
def TrieNodeHash (P : Platform) (u : NibbleTree) (h : H256) : Prop :=
  h = rootHash P u ∨ ∃ w, LinkedIn P w u ∧ h = P.keccak256 (encoding P w)

theorem TrieNodeHash.cases (h : TrieNodeHash P u root) : u = .empty ∧ root = emptyRoot ∨
    ∃ w, w ≠ .empty ∧ (w = u ∨ LinkedIn P w u) ∧ root = P.keccak256 (encoding P w) := by
  rcases h with rfl | ⟨w,hw,rfl⟩
  · by_cases hne : u = .empty
    · subst hne
      exact .inl ⟨rfl,rfl⟩
    · exact .inr ⟨u,hne,.inl rfl,rootHash_of_ne hne⟩
  · exact .inr ⟨w,hw.ne_empty,.inr hw,rfl⟩

theorem lookup_columnDb (trieNodes : Table H256 (List UInt8)) (root h : H256) :
    (fromRoot root (columnDb trieNodes)).lookup h = trieNodes.lookup h := by
  have hentries : ∀ l : List (Σ _ : H256, List UInt8),
      (l.map (fun e => (e.1,e.2))).lookup h = l.dlookup h := by
    intro l
    induction l with
    | nil => rfl
    | cons e l ih =>
      obtain ⟨k,b⟩ := e
      rw [List.map_cons, List.lookup_cons]
      by_cases hk : h = k
      · subst hk
        rw [beq_self_eq_true, List.dlookup_cons_eq]
      · rw [beq_eq_false_iff_ne.mpr hk, List.dlookup_cons_ne _ _ hk]
        exact ih
  exact hentries trieNodes.entries

theorem stored_subtree {DB : Type} [TrieDB DB] {t : MutableTrie DB} (hsub : Subtree w u) (hu : Stored P E t u) :
    (w = u ∨ Linked P E t w) ∧ Stored P E t w := by
  induction hsub with
  | refl => exact ⟨.inl rfl,hu⟩
  | ext path hsub ih =>
    obtain ⟨hlinked,hstored⟩ := ih hu.2
    refine ⟨.inr ?_,hstored⟩
    rcases hlinked with rfl | hlinked
    · exact hu.1
    · exact hlinked
  | branch value i hsub ih =>
    obtain ⟨hlinked,hstored⟩ := ih (hu i).2
    refine ⟨.inr ?_,hstored⟩
    rcases hlinked with rfl | hlinked
    · exact (hu i).1
    · exact hlinked

theorem clean_subtree (hsub : Subtree w u) (hu : Clean u) : Clean w := by
  induction hsub with
  | refl => exact hu
  | ext path _ ih => exact ih hu
  | branch value i _ ih => exact ih (hu.1 i)

theorem HoldsTrie.root_eq (hu : HoldsTrie P trieNodes root u) : root = rootHash P u := hu.root

/-- A node of a stored trie stands under its hash. -/
theorem HoldsTrie.lookup (hu : HoldsTrie P trieNodes root u) (hne : w ≠ .empty) (hw : w = u ∨ LinkedIn P w u) :
    trieNodes.lookup (P.keccak256 (encoding P w)) = some (encoding P w) ∧
      encoding P w ∈ (columnDb trieNodes).nodes := by
  have hholds : Holds P {b | b ∈ (columnDb trieNodes).nodes} (fromRoot root (columnDb trieNodes)) (encoding P w) := by
    rcases hw with rfl | ⟨hsub,hlong⟩
    · exact hu.top hne
    · rcases (stored_subtree hsub hu.stored).1 with rfl | hlinked
      · exact hu.top hne
      · exact hlinked hlong
  exact ⟨lookup_columnDb trieNodes root _ ▸ hholds.2,hholds.1⟩

theorem callLinks_emptyRoot (h : trieNodes.lookup emptyRoot = some [0x80])
    (role : Bool) : callLinks trieNodes (emptyRoot,role) = some [] := by
  have hdecode : TrieNode.decode [0x80] = .ok .empty := by
    rw [← TrieNode.encode_empty]
    exact TrieNode.decode_encode_node trivial (by rw [TrieNode.encode_empty]; decide)
  simp only [callLinks, h, hdecode, TrieNode.calls]

variable (hsafe : Safe P E) (hE : ∀ b ∈ (columnDb trieNodes).nodes, b ∈ E)
include hsafe hE

theorem HoldsTrie.callLinks (hu : HoldsTrie P trieNodes root u) (hne : w ≠ .empty) (hw : w = u ∨ LinkedIn P w u)
    (role : Bool) : callLinks trieNodes (nodeCall P role w) = some ((toNode P w).calls role) := by
  obtain ⟨hlookup,hmem⟩ := hu.lookup hne hw
  have hclean : Clean w := by
    rcases hw with rfl | hw
    · exact hu.filled.clean
    · exact clean_subtree hw.1 hu.filled.clean
  have hdecode : TrieNode.decode (encoding P w) = .ok (toNode P w) :=
    TrieNode.decode_encode_node (proper_toNode hclean) (hsafe.fits _ (hE _ hmem))
  simp only [ZbxChain.callLinks, nodeCall, hlookup, hdecode]

theorem HoldsTrie.hash_ne_empty (hu : HoldsTrie P trieNodes root u) (hne : w ≠ .empty)
    (hw : w = u ∨ LinkedIn P w u) : P.keccak256 (encoding P w) ≠ emptyRoot := by
  intro heq
  rw [← hsafe.empty] at heq
  exact TrieNode.encode_ne (toNode_ne_empty hne) (hsafe.inj (hE _ (hu.lookup hne hw).2) hsafe.mem_empty heq)

omit hsafe in
theorem HoldsTrie.within (hu : HoldsTrie P trieNodes root u) :
    Represents P E (fromRoot root (columnDb trieNodes)) u :=
  hu.imp rfl rfl (fun b hheld => ⟨hE b hheld.1,hheld.2⟩)

theorem HoldsTrie.unique (hu : HoldsTrie P trieNodes root u) (hw : HoldsTrie P trieNodes root w) : u = w :=
  (hu.within hE).carries.tree_eq hsafe (hw.within hE).carries rfl

theorem HoldsTrie.tree_eq {root' : H256} {u' w' : NibbleTree} (hu : HoldsTrie P trieNodes root u)
    (hu' : HoldsTrie P trieNodes root' u') (hne : w ≠ .empty) (hne' : w' ≠ .empty)
    (hw : w = u ∨ LinkedIn P w u) (hw' : w' = u' ∨ LinkedIn P w' u')
    (h : P.keccak256 (encoding P w) = P.keccak256 (encoding P w')) : w = w' := by
  have hparts : ∀ {root : H256} {u w : NibbleTree}, HoldsTrie P trieNodes root u → (w = u ∨ LinkedIn P w u) →
      Clean w ∧ Stored P E (fromRoot root (columnDb trieNodes)) w := by
    intro root u w hu hw
    have hin := hu.within hE
    rcases hw with rfl | hw
    · exact ⟨hin.filled.clean,hin.stored⟩
    · exact ⟨clean_subtree hw.1 hin.filled.clean,(stored_subtree hw.1 hin.stored).2⟩
  obtain ⟨hclean,hstored⟩ := hparts hu hw
  obtain ⟨hclean',hstored'⟩ := hparts hu' hw'
  have hmem := hE _ (hu.lookup hne hw).2
  have hencoding := hsafe.inj hmem (hE _ (hu'.lookup hne' hw').2) h
  exact tree_eq_of_toNode hsafe hclean hclean' hstored hstored'
    (toNode_eq_of_encoding hsafe hclean hclean' hmem hencoding)

variable (hempty : ∀ b, trieNodes.lookup emptyRoot = some b → b = [0x80])

include hempty in
theorem HoldsTrie.calls (hu : HoldsTrie P trieNodes root u) (hh : TrieNodeHash P u h) {l : List WalkCall}
    (hl : ZbxChain.callLinks trieNodes (h,role) = some l) (hs : s ∈ l) : CallOf P u role s := by
  rcases hh.cases with ⟨rfl,rfl⟩ | ⟨w,hne,hw,rfl⟩
  · cases hlookup : trieNodes.lookup emptyRoot with
    | none => simp [ZbxChain.callLinks, hlookup] at hl
    | some b =>
      rw [callLinks_emptyRoot (hempty b hlookup ▸ hlookup) role] at hl
      cases hl
      cases hs
  · have hlinks := hu.callLinks hsafe hE hne hw role
    obtain rfl := Option.some.inj (hl.symm.trans hlinks)
    rcases hw with rfl | hw
    · exact calls_sound hs
    · exact (calls_sound hs).subtree hw.1

variable {roots : List H256}

/-- From its root the walk comes to all nodes of a trie, if none of them has the hash zero. -/
theorem HoldsTrie.reaches (hu : HoldsTrie P trieNodes root u) (hroot : Reaches trieNodes roots (root,role))
    (hzero : ∀ h, TrieNodeHash P u h → h ≠ H256.zero) :
    (∀ h, TrieNodeHash P u h → Reaches trieNodes roots (h,role)) ∧
      ∀ sr, NamedBy u role sr → sr ≠ H256.zero → Reaches trieNodes roots (sr,false) := by
  by_cases hnone : u = .empty
  · subst hnone
    refine ⟨fun h hh => ?_,fun sr hnamed => ?_⟩
    · rcases hh with rfl | ⟨w,hw,-⟩
      · rw [← hu.root_eq]
        exact hroot
      · cases hw.1
        exact absurd rfl hw.ne_empty
    · obtain ⟨-,key,v,hget,-⟩ := hnamed
      cases hget
  · have hself : nodeCall P role u = (root,role) := by rw [hu.root_eq, rootHash_of_ne hnone, nodeCall]
    have hlinks : ∀ w, w ≠ .empty → (w = u ∨ LinkedIn P w u) → Reaches trieNodes roots (nodeCall P role w) →
        ∀ s ∈ (toNode P w).calls role, ¬ IsNull s → Reaches trieNodes roots s :=
      fun w hne hw hreached s hs hnull =>
        hreached.tail ⟨_,hu.callLinks hsafe hE hne hw role,hs,hnull⟩
    have hclosed : ClosedBelow P u role (fun s => ¬ IsNull s → Reaches trieNodes roots s) := by
      intro w hw hcall
      exact hlinks w hw.ne_empty (.inr hw) (hcall (hzero _ (.inr ⟨w,hw,rfl⟩)))
    obtain ⟨hnodes,hnamed⟩ := calls_cover hclosed (hlinks u hnone (.inl rfl) (hself ▸ hroot))
    refine ⟨fun h hh => ?_,fun sr hsr hne => hnamed sr hsr hne⟩
    rcases hh with rfl | ⟨w,hw,rfl⟩
    · rw [← hu.root_eq]
      exact hroot
    · rcases hnodes w hw with rfl | hreached
      · change Reaches trieNodes roots (nodeCall P role w)
        rw [hself]
        exact hroot
      · exact hreached (hzero _ (.inr ⟨w,hw,rfl⟩))

end Columns

section Checkpoints
variable {P : Platform} {E : Set (List UInt8)} {trieNodes : Table H256 (List UInt8)} {u w : NibbleTree}
  {root h : H256} {role : Bool} {s : WalkCall} {roots : List H256}

/-- The values are accounts, as `compute_state_root_with_db` writes them. -/
def AccountTree (u : NibbleTree) : Prop := ∀ key v, u.get key = some v → ∃ st sr, v = encodeAccountRlp st sr

/-- The values are words, as `compute_storage_root_with_db` writes them. -/
def SlotTree (u : NibbleTree) : Prop := ∀ key v, u.get key = some v → ∃ value, v = encodeSlotValue value

def Names (u : NibbleTree) (sr : H256) : Prop := ∃ key st, u.get key = some (encodeAccountRlp st sr)

theorem AccountTree.namedBy_iff (hu : AccountTree u) (sr : H256) : NamedBy u true sr ↔ Names u sr := by
  constructor
  · rintro ⟨-,key,v,hget,hv⟩
    obtain ⟨st,sr',rfl⟩ := hu key v hget
    rw [accountStorageRoot_encode] at hv
    cases hv
    exact ⟨key,st,hget⟩
  · rintro ⟨key,st,hget⟩
    exact ⟨rfl,key,_,hget,accountStorageRoot_encode st sr⟩

theorem disjoint_trees {t : NibbleTree} (hu : AccountTree u) (hw : SlotTree w) (htu : Subtree t u)
    (htw : Subtree t w) (hnormal : u.Normal) : t = .empty := by
  by_contra hne
  obtain ⟨key,hkey⟩ := (htu.normal hnormal).has hne
  obtain ⟨v,hv⟩ := Option.ne_none_iff_exists'.mp hkey
  obtain ⟨key,hget⟩ := htu.get hv
  obtain ⟨st,sr,rfl⟩ := hu key v hget
  obtain ⟨key',hget'⟩ := htw.get hv
  obtain ⟨value,hvalue⟩ := hw key' _ hget'
  exact encodeAccountRlp_ne_slot st sr value hvalue

/-- The account trie of a state root is there, and so are the storage tries that its leaves name. -/
def TriesComplete (P : Platform) (trieNodes : Table H256 (List UInt8)) (root : H256) : Prop :=
  ∃ u, HoldsTrie P trieNodes root u ∧ AccountTree u ∧
    ∀ sr, Names u sr → sr = H256.zero ∨ ∃ w, HoldsTrie P trieNodes sr w ∧ SlotTree w

/-- The nodes that are reachable from some state roots: those of the account tries, and those of
the storage tries that their leaves name. -/
def LiveNode (P : Platform) (trieNodes : Table H256 (List UInt8)) (roots : List H256) (h : H256) : Prop :=
  ∃ root ∈ roots, ∃ u, HoldsTrie P trieNodes root u ∧ (TrieNodeHash P u h ∨
    ∃ sr w, Names u sr ∧ HoldsTrie P trieNodes sr w ∧ TrieNodeHash P w h)

def WalkedTrie (P : Platform) (trieNodes : Table H256 (List UInt8)) (roots : List H256) (role : Bool)
    (root : H256) (u : NibbleTree) : Prop :=
  HoldsTrie P trieNodes root u ∧ if role then root ∈ roots ∧ AccountTree u else
    SlotTree u ∧ ∃ account t, account ∈ roots ∧ HoldsTrie P trieNodes account t ∧ Names t root

variable (hsafe : Safe P E) (hE : ∀ b ∈ (columnDb trieNodes).nodes, b ∈ E)
  (hempty : ∀ b, trieNodes.lookup emptyRoot = some b → b = [0x80])
  (htries : ∀ root ∈ roots, TriesComplete P trieNodes root)
include hsafe hE hempty htries

theorem walked_of_reaches (h : Reaches trieNodes roots s) :
    ∃ root u, WalkedTrie P trieNodes roots s.2 root u ∧ TrieNodeHash P u s.1 := by
  obtain ⟨start,hstart,hne,hpath⟩ := h
  induction hpath with
  | refl =>
    obtain ⟨root,hroot,rfl⟩ := List.mem_map.mp hstart
    obtain ⟨u,hu,haccounts,-⟩ := htries root hroot
    exact ⟨root,u,⟨hu,hroot,haccounts⟩,.inl hu.root_eq⟩
  | tail hpath hlink ih =>
    rename_i r s
    obtain ⟨root,u,hwalked,hhash⟩ := ih
    obtain ⟨l,hl,hs,hnull⟩ := hlink
    obtain ⟨h,role⟩ := r
    rcases hwalked.1.calls hsafe hE hempty hhash hl hs with ⟨w,hw,rfl⟩ | ⟨sr,hnamed,rfl⟩
    · exact ⟨root,u,hwalked,.inr ⟨w,hw,rfl⟩⟩
    · obtain rfl : role = true := hnamed.1
      obtain ⟨hu,hroot,haccounts⟩ := hwalked
      have hnames : Names u sr := (haccounts.namedBy_iff sr).mp hnamed
      obtain ⟨u',hu',-,hstorages⟩ := htries root hroot
      obtain rfl := hu.unique hsafe hE hu'
      rcases hstorages sr hnames with hzero | ⟨w,hw,hslots⟩
      · exact absurd hzero hnull
      · exact ⟨sr,w,⟨hw,hslots,root,u,hroot,hu,hnames⟩,.inl hw.root_eq⟩

theorem live_of_reaches (h : Reaches trieNodes roots s) : LiveNode P trieNodes roots s.1 := by
  obtain ⟨root,u,⟨hu,hwalked⟩,hhash⟩ := walked_of_reaches hsafe hE hempty htries h
  split at hwalked
  · exact ⟨root,hwalked.1,u,hu,.inl hhash⟩
  · obtain ⟨-,account,t,hroot,ht,hnames⟩ := hwalked
    exact ⟨account,hroot,t,ht,.inr ⟨root,u,hnames,hu,hhash⟩⟩

omit hempty in
theorem reaches_of_live (hzero : ¬ LiveNode P trieNodes roots H256.zero) (hlive : LiveNode P trieNodes roots h) :
    ∃ role, Reaches trieNodes roots (h,role) := by
  obtain ⟨root,hroot,u,hu,hh⟩ := hlive
  have hnonzero : ∀ h, TrieNodeHash P u h → h ≠ H256.zero := by
    rintro h hhash rfl
    exact hzero ⟨root,hroot,u,hu,.inl hhash⟩
  have hstart : Reaches trieNodes roots (root,true) :=
    ⟨(root,true),List.mem_map.mpr ⟨root,hroot,rfl⟩,hnonzero root (.inl hu.root_eq),.refl⟩
  obtain ⟨hnodes,hnamed⟩ := hu.reaches hsafe hE hstart hnonzero
  rcases hh with hhash | ⟨sr,w,hnames,hw,hhash⟩
  · exact ⟨true,hnodes h hhash⟩
  · obtain ⟨u',hu',haccounts,-⟩ := htries root hroot
    obtain rfl := hu.unique hsafe hE hu'
    have hnonzero' : ∀ h, TrieNodeHash P w h → h ≠ H256.zero := by
      rintro h hhash rfl
      exact hzero ⟨root,hroot,u,hu,.inr ⟨sr,w,hnames,hw,hhash⟩⟩
    have hstorage : Reaches trieNodes roots (sr,false) :=
      hnamed sr ((haccounts.namedBy_iff sr).mpr hnames) (hnonzero' sr (.inl hw.root_eq))
    exact ⟨false,(hw.reaches hsafe hE hstorage hnonzero').1 h hhash⟩

theorem agrees_of_tries : Agrees Prod.fst IsNull (callLinks trieNodes) (rootCalls roots) := by
  rintro ⟨h,role⟩ ⟨h',role'⟩ s hr hr' hkey hlink l hl
  obtain rfl : h = h' := hkey
  obtain ⟨l',hl',hs,hnull⟩ := hlink
  by_cases hrole : role = role'
  · subst hrole
    obtain rfl := Option.some.inj (hl'.symm.trans hl)
    exact ⟨s,hs,hnull,rfl⟩
  · -- a node of an account trie and of a storage trie, with a link
    obtain ⟨root,u,⟨hu,hwalked⟩,hhash⟩ := walked_of_reaches hsafe hE hempty htries hr
    obtain ⟨root',u',⟨hu',hwalked'⟩,hhash'⟩ := walked_of_reaches hsafe hE hempty htries hr'
    exfalso
    rcases hhash.cases with ⟨rfl,rfl⟩ | ⟨w,hne,hw,hwhash⟩
    · rcases hu.calls hsafe hE hempty hhash hl' hs with ⟨w,hw,-⟩ | ⟨sr,⟨-,key,v,hget,-⟩,-⟩
      · cases hw.1
        exact hw.ne_empty rfl
      · cases hget
    · rcases hhash'.cases with ⟨-,hempty'⟩ | ⟨w',hne',hw',hwhash'⟩
      · exact hu.hash_ne_empty hsafe hE hne hw (hwhash.symm.trans hempty')
      · obtain rfl := hu.tree_eq hsafe hE hu' hne hne' hw hw' (hwhash.symm.trans hwhash')
        have hsub : ∀ {t : NibbleTree}, (w = t ∨ LinkedIn P w t) → Subtree w t := by
          rintro t (rfl | hw)
          · exact .refl w
          · exact hw.1
        cases role with
        | true =>
          obtain rfl : role' = false := by simpa using hrole
          exact hne (disjoint_trees hwalked.2 hwalked'.1 (hsub hw) (hsub hw') hu.normal)
        | false =>
          obtain rfl : role' = true := by simpa using hrole
          exact hne (disjoint_trees hwalked'.2 hwalked.1 (hsub hw') (hsub hw) hu'.normal)

theorem callLinks_of_reaches (h : Reaches trieNodes roots s) :
    s.1 = emptyRoot ∨ ∃ l, callLinks trieNodes s = some l := by
  obtain ⟨root,u,⟨hu,-⟩,hhash⟩ := walked_of_reaches hsafe hE hempty htries h
  rcases hhash.cases with ⟨-,hroot⟩ | ⟨w,hne,hw,hwhash⟩
  · exact .inl hroot
  · have hlinks := hu.callLinks hsafe hE hne hw s.2
    rw [nodeCall, ← hwhash] at hlinks
    exact .inr ⟨_,hlinks⟩

end Checkpoints

end ZbxChain
