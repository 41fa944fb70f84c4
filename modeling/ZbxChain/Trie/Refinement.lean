import ZbxChain.Trie.Commitment

/-! # The node operations compute the operations of Patricia trees -/
namespace ZbxChain.MutableTrie

variable {DB : Type} [TrieDB DB] {P : Platform} {E : Set (List UInt8)} {t : MutableTrie DB}
  {u : NibbleTree} {children : Fin 16 → NibbleTree} {value : Option (List UInt8)}

/-- The references of sixteen subtrees. -/
def treeRefs (P : Platform) (children : Fin 16 → NibbleTree) : Fin 16 → NodeRef :=
  fun i => treeRef P (children i)

theorem noChildren_eq : noChildren = treeRefs P (fun _ => .empty) := rfl

theorem treeRefs_update (children : Fin 16 → NibbleTree) (i : Fin 16) (u : NibbleTree) :
    Function.update (treeRefs P children) i (treeRef P u) =
      treeRefs P (Function.update children i u) := by
  funext j
  by_cases h : j = i
  · subst h
    simp [treeRefs]
  · simp [treeRefs, h]

section Frames
variable {R : MutableTrie DB → MutableTrie DB → Prop}

/-- What holds across each stored node holds across the node operations. -/
structure Frame (P : Platform) (R : MutableTrie DB → MutableTrie DB → Prop) : Prop where
  refl : ∀ t, R t t
  trans : ∀ {t t' t''}, R t t' → R t' t'' → R t t''
  storeNode : ∀ t node, R t (t.storeNode P node).1

omit [TrieDB DB] in
theorem frame_grows : Frame P (Grows P : MutableTrie DB → MutableTrie DB → Prop) :=
  ⟨Grows.refl,Grows.trans,grows_storeNode⟩

omit [TrieDB DB] in
theorem frame_wrapBranch (h : Frame P R) (t : MutableTrie DB) (keyRemaining : Nibbles) (cp : ℕ) (branch : TrieNode) :
    R t (t.wrapBranch P keyRemaining cp branch).1 := by
  unfold wrapBranch
  split
  · exact h.storeNode t branch
  · exact h.refl t

omit [TrieDB DB] in
theorem frame_placeKey (h : Frame P R) (t : MutableTrie DB) (keyRemaining : Nibbles) (cp : ℕ)
    (refs : Fin 16 → NodeRef) (branchValue : Option (List UInt8)) (v : List UInt8) :
    R t (t.placeKey P keyRemaining cp refs branchValue v).1 := by
  unfold placeKey
  split
  · exact frame_wrapBranch h t _ _ _
  · exact h.trans (h.storeNode t _) (frame_wrapBranch h _ _ _ _)

theorem frame_insertNode (h : Frame P R) (fuel : ℕ) (t : MutableTrie DB) (node : TrieNode) (key : Nibbles)
    (depth : ℕ) (v : List UInt8) : R t (t.insertNode P fuel node key depth v).1 := by
  induction fuel generalizing t node depth with
  | zero => exact h.refl t
  | succ fuel ih =>
    cases node with
    | empty => exact h.refl t
    | leaf path oldVal =>
      simp only [insertNode]
      split
      · exact h.refl t
      · by_cases hend : (key.slice depth).commonPrefixLen path = path.length
        · simp only [if_pos hend]
          exact frame_placeKey h t _ _ _ _ _
        · simp only [if_neg hend]
          exact h.trans (h.storeNode t _) (frame_placeKey h _ _ _ _ _ _)
    | extension path child =>
      by_cases hfull : (key.slice depth).commonPrefixLen path = path.length
      · simp only [insertNode, if_pos hfull]
        cases t.resolve child with
        | error e => exact h.refl t
        | ok childNode =>
          have hrec := ih t childNode (depth + (key.slice depth).commonPrefixLen path)
          rcases hcall : t.insertNode P fuel childNode key
            (depth + (key.slice depth).commonPrefixLen path) v with ⟨t',_ | newChild⟩
          · rw [hcall] at hrec
            simp only [hcall]
            exact hrec
          · rw [hcall] at hrec
            simp only [hcall]
            exact h.trans hrec (h.storeNode t' newChild)
      · simp only [insertNode, if_neg hfull]
        generalize (if (key.slice depth).commonPrefixLen path + 1 < path.length then _ else _) = rest
        by_cases hrest : rest = []
        · simp only [if_pos hrest]
          exact frame_placeKey h t _ _ _ _ _
        · simp only [if_neg hrest]
          exact h.trans (h.storeNode t _) (frame_placeKey h _ _ _ _ _ _)
    | branch refs branchVal =>
      by_cases hend : depth = key.length
      · simp only [insertNode, if_pos hend]
        exact h.refl t
      · simp only [insertNode, if_neg hend]
        cases t.resolve (refs (key.nibbleAt depth)) with
        | error e => exact h.refl t
        | ok childNode =>
          have hrec := ih t childNode (depth + 1)
          rcases hcall : t.insertNode P fuel childNode key (depth + 1) v with ⟨t',_ | newChild⟩
          · rw [hcall] at hrec
            simp only [hcall]
            exact hrec
          · rw [hcall] at hrec
            simp only [hcall]
            exact h.trans hrec (h.storeNode t' newChild)

omit [TrieDB DB] in
theorem grows_wrapBranch (t : MutableTrie DB) (keyRemaining : Nibbles) (cp : ℕ) (branch : TrieNode) :
    Grows P t (t.wrapBranch P keyRemaining cp branch).1 := frame_wrapBranch frame_grows t keyRemaining cp branch

omit [TrieDB DB] in
theorem grows_placeKey (t : MutableTrie DB) (keyRemaining : Nibbles) (cp : ℕ)
    (refs : Fin 16 → NodeRef) (branchValue : Option (List UInt8)) (v : List UInt8) :
    Grows P t (t.placeKey P keyRemaining cp refs branchValue v).1 :=
  frame_placeKey frame_grows t keyRemaining cp refs branchValue v

theorem grows_insertNode (fuel : ℕ) (t : MutableTrie DB) (node : TrieNode) (key : Nibbles)
    (depth : ℕ) (v : List UInt8) : Grows P t (t.insertNode P fuel node key depth v).1 :=
  frame_insertNode frame_grows fuel t node key depth v

end Frames

section Insert

theorem wrapBranch_spec (hsafe : Safe P E) (key : Nibbles) {cp : ℕ} (hcp : cp ≤ key.length)
    (h : Stored P E t (.branch children value))
    (hw : Within E (t.wrapBranch P key cp (toNode P (.branch children value))).1) :
    (t.wrapBranch P key cp (toNode P (.branch children value))).2 =
        toNode P (Patricia.join (key.take cp) (.branch children value)) ∧
      Stored P E (t.wrapBranch P key cp (toNode P (.branch children value))).1
        (Patricia.join (key.take cp) (.branch children value)) := by
  unfold wrapBranch at hw ⊢
  by_cases hpos : 0 < cp
  · have htake : key.take cp ≠ [] := by
      rw [ne_eq, ← List.length_eq_zero_iff, List.length_take]
      omega
    simp only [if_pos hpos] at hw ⊢
    obtain ⟨href,hheld⟩ := storeNode_toNode hsafe (u := .branch children value) nofun h hw
    rw [Patricia.join, if_neg htake, toNode_ext, ← href]
    exact ⟨rfl,hheld⟩
  · have hzero : cp = 0 := by omega
    simp only [if_neg hpos]
    rw [hzero, List.take_zero, Patricia.join, if_pos rfl]
    exact ⟨rfl,h⟩

theorem placeKey_spec (hsafe : Safe P E) (key : Nibbles) {cp : ℕ} (hcp : cp ≤ key.length)
    (h : ∀ i, Held P E t (children i)) (v : List UInt8)
    (hw : Within E (t.placeKey P key cp (treeRefs P children) value v).1) :
    (t.placeKey P key cp (treeRefs P children) value v).2 =
        toNode P (Patricia.join (key.take cp) (Patricia.place children value (key.drop cp) v)) ∧
      Stored P E (t.placeKey P key cp (treeRefs P children) value v).1
        (Patricia.join (key.take cp) (Patricia.place children value (key.drop cp) v)) := by
  unfold placeKey at hw ⊢
  by_cases hend : cp = key.length
  · have hdrop : key.drop cp = [] := by rw [hend, List.drop_length]
    simp only [if_pos hend] at hw ⊢
    rw [hdrop, Patricia.place]
    exact wrapBranch_spec hsafe key hcp h hw
  · simp only [if_neg hend] at hw ⊢
    rw [Nibbles.drop_eq_cons (by omega : cp < key.length), ← Nibbles.sub_eq_drop, Patricia.place]
    generalize hleaf : Patricia.leaf (key.sub (cp + 1) (key.length - cp - 1)) v = leaf at hw ⊢
    have hnode : TrieNode.leaf (key.sub (cp + 1) (key.length - cp - 1)) v = toNode P leaf := by
      rw [← hleaf, toNode_leaf]
    rw [hnode] at hw ⊢
    have hmid := (grows_wrapBranch _ key cp _).within hw
    obtain ⟨href,hheld⟩ := storeNode_toNode hsafe (by rw [← hleaf]; exact Patricia.leaf_ne_empty _ _)
      (by rw [← hleaf]; trivial) hmid
    have hg := grows_storeNode (P := P) t (toNode P leaf)
    rw [href, treeRefs_update] at hw ⊢
    refine wrapBranch_spec hsafe key hcp (fun i => ?_) hw
    by_cases hi : i = key.nibbleAt cp
    · subst hi
      rw [Function.update_self]
      exact hheld
    · rw [Function.update_of_ne hi]
      exact (h i).grows hsafe hg hmid

section Equations
variable {fuel depth cp : ℕ} {key path rest : Nibbles} {old v : List UInt8}

theorem insertNode_leaf_of_eq (hrest : key.drop depth = rest) (hcp : rest.commonPrefixLen path = cp)
    (h : cp = path.length ∧ cp = rest.length) :
    t.insertNode P (fuel + 1) (.leaf path old) key depth v = (t, .ok (.leaf path v)) := by
  simp only [insertNode, Nibbles.slice, hrest, hcp, if_pos h]

theorem insertNode_leaf_of_end (hrest : key.drop depth = rest)
    (hcp : rest.commonPrefixLen path = cp) (h : ¬ (cp = path.length ∧ cp = rest.length))
    (hend : cp = path.length) :
    t.insertNode P (fuel + 1) (.leaf path old) key depth v =
      ((t.placeKey P rest cp noChildren (some old) v).1,
        .ok (t.placeKey P rest cp noChildren (some old) v).2) := by
  simp only [insertNode, Nibbles.slice, hrest, hcp, if_neg h, if_pos hend]

theorem insertNode_leaf_of_ne (hrest : key.drop depth = rest) (hcp : rest.commonPrefixLen path = cp)
    (h : ¬ (cp = path.length ∧ cp = rest.length)) (hend : cp ≠ path.length)
    {s : MutableTrie DB × NodeRef} (hs : t.storeNode P (.leaf (path.drop (cp + 1)) old) = s) :
    t.insertNode P (fuel + 1) (.leaf path old) key depth v =
      ((s.1.placeKey P rest cp (Function.update noChildren (path.nibbleAt cp) s.2) none v).1,
        .ok (s.1.placeKey P rest cp (Function.update noChildren (path.nibbleAt cp) s.2) none v).2) := by
  simp only [insertNode, Nibbles.slice, hrest, hcp, if_neg h, if_neg hend, Nibbles.sub_eq_drop, hs]

theorem insertNode_ext_grows {child : NodeRef} {childNode : TrieNode}
    (hrest : key.drop depth = rest) (hcp : rest.commonPrefixLen path = cp) (hend : cp = path.length)
    (hchild : t.resolve child = .ok childNode) {r : MutableTrie DB × Except Fault TrieNode}
    (hcall : t.insertNode P fuel childNode key (depth + cp) v = r) :
    Grows P r.1 (t.insertNode P (fuel + 1) (.extension path child) key depth v).1 := by
  simp only [insertNode, Nibbles.slice, hrest, hcp, if_pos hend, hchild, hcall]
  obtain ⟨t',_ | newChild⟩ := r
  · exact Grows.refl t'
  · exact grows_storeNode t' newChild

theorem insertNode_branch_grows {refs : Fin 16 → NodeRef} {branchVal : Option (List UInt8)}
    {childNode : TrieNode} (h : depth ≠ key.length)
    (hchild : t.resolve (refs (key.nibbleAt depth)) = .ok childNode)
    {r : MutableTrie DB × Except Fault TrieNode}
    (hcall : t.insertNode P fuel childNode key (depth + 1) v = r) :
    Grows P r.1 (t.insertNode P (fuel + 1) (.branch refs branchVal) key depth v).1 := by
  simp only [insertNode, if_neg h, hchild, hcall]
  obtain ⟨t',_ | newChild⟩ := r
  · exact Grows.refl t'
  · exact grows_storeNode t' newChild

theorem insertNode_ext_of_eq {child : NodeRef} {childNode : TrieNode}
    (hrest : key.drop depth = rest) (hcp : rest.commonPrefixLen path = cp) (hend : cp = path.length)
    (hchild : t.resolve child = .ok childNode) {r : MutableTrie DB × Except Fault TrieNode}
    {newChild : TrieNode} (hcall : t.insertNode P fuel childNode key (depth + cp) v = r)
    (hok : r.2 = .ok newChild) :
    t.insertNode P (fuel + 1) (.extension path child) key depth v =
      ((r.1.storeNode P newChild).1, .ok (.extension path (r.1.storeNode P newChild).2)) := by
  obtain ⟨t',r⟩ := r
  cases hok
  simp only [insertNode, Nibbles.slice, hrest, hcp, if_pos hend, hchild, hcall]

theorem insertNode_ext_of_ne {child : NodeRef} (hrest : key.drop depth = rest)
    (hcp : rest.commonPrefixLen path = cp) (hend : cp ≠ path.length)
    {s : MutableTrie DB × NodeRef}
    (hs : (if path.drop (cp + 1) = [] then (t,child)
      else t.storeNode P (.extension (path.drop (cp + 1)) child)) = s) :
    t.insertNode P (fuel + 1) (.extension path child) key depth v =
      ((s.1.placeKey P rest cp (Function.update noChildren (path.nibbleAt cp) s.2) none v).1,
        .ok (s.1.placeKey P rest cp (Function.update noChildren (path.nibbleAt cp) s.2) none v).2) := by
  have htail : (if cp + 1 < path.length then path.sub (cp + 1) (path.length - cp - 1) else []) =
      path.drop (cp + 1) := by
    split
    · exact Nibbles.sub_eq_drop path cp
    · rename_i hlast
      exact (List.drop_eq_nil_of_le (Nat.le_of_not_lt hlast)).symm
  simp only [insertNode, Nibbles.slice, hrest, hcp, if_neg hend, htail, hs]

end Equations

/-- A call's result is the node of a tree, whose parts are found after it. -/
def Builds (P : Platform) (E : Set (List UInt8)) (u : NibbleTree)
    (r : MutableTrie DB × Except Fault TrieNode) : Prop :=
  r.2 = .ok (toNode P u) ∧ Stored P E r.1 u

theorem held_update_empty {a : Fin 16} (h : Held P E t u) (i : Fin 16) :
    Held P E t (Function.update (fun _ => (.empty : NibbleTree)) a u i) := by
  by_cases hi : i = a
  · subst hi
    rw [Function.update_self]
    exact h
  · rw [Function.update_of_ne hi]
    exact held_empty

theorem insertNode_leaf_spec (hsafe : Safe P E) {fuel : ℕ} (key : Nibbles) {depth : ℕ}
    (path : Nibbles) (old v : List UInt8)
    (hw : Within E (t.insertNode P (fuel + 1) (.leaf path old) key depth v).1) :
    Builds P E (Patricia.insert (.leaf path old) (key.drop depth) v)
      (t.insertNode P (fuel + 1) (.leaf path old) key depth v) := by
  obtain ⟨rest,hrest⟩ : ∃ rest, key.drop depth = rest := ⟨_,rfl⟩
  obtain ⟨cp,hcp⟩ : ∃ cp, Nibbles.commonPrefixLen rest path = cp := ⟨_,rfl⟩
  have hsplit := Nibbles.split_eq rest path
  obtain ⟨hle,hle'⟩ := Nibbles.commonPrefixLen_le rest path
  rw [hcp] at hsplit hle hle'
  rw [hrest, Patricia.insert, hsplit]
  by_cases hexact : cp = path.length ∧ cp = rest.length
  · have hkeyEnd : rest.drop cp = [] := by rw [hexact.2, List.drop_length]
    have hpathEnd : path.drop cp = [] := by rw [hexact.1, List.drop_length]
    rw [insertNode_leaf_of_eq hrest hcp hexact, hkeyEnd, hpathEnd]
    exact ⟨rfl,trivial⟩
  by_cases hend : cp = path.length
  · have hpathEnd : path.drop cp = [] := by rw [hend, List.drop_length]
    have hlt : cp < rest.length := by omega
    rw [insertNode_leaf_of_end hrest hcp hexact hend] at hw ⊢
    obtain ⟨hnode,hkept⟩ := placeKey_spec hsafe rest hle (fun _ => held_empty) v hw
    rw [hpathEnd]
    rw [Nibbles.drop_eq_cons hlt] at hnode hkept ⊢
    exact ⟨congrArg Except.ok hnode,hkept⟩
  · have hlt : cp < path.length := by omega
    obtain ⟨s,hs⟩ : ∃ s, t.storeNode P (.leaf (path.drop (cp + 1)) old) = s := ⟨_,rfl⟩
    rw [insertNode_leaf_of_ne hrest hcp hexact hend hs] at hw ⊢
    have hmid := (grows_placeKey _ rest cp _ _ v).within hw
    rw [← hs] at hmid
    obtain ⟨href,hheld⟩ := storeNode_toNode hsafe (Patricia.leaf_ne_empty (path.drop (cp + 1)) old)
      trivial hmid
    rw [toNode_leaf, hs] at href hheld
    rw [href, noChildren_eq (P := P), treeRefs_update] at hw ⊢
    obtain ⟨hnode,hkept⟩ := placeKey_spec hsafe rest hle (held_update_empty hheld) v hw
    rw [Nibbles.drop_eq_cons hlt]
    cases hdrop : rest.drop cp with
    | nil =>
      rw [hdrop] at hnode hkept
      exact ⟨congrArg Except.ok hnode,hkept⟩
    | cons b r =>
      rw [hdrop] at hnode hkept
      exact ⟨congrArg Except.ok hnode,hkept⟩

theorem insertNode_ext_spec (hsafe : Safe P E) {fuel : ℕ} (key : Nibbles) {depth : ℕ}
    {path : Nibbles} (hbranch : u.IsBranch) (hheld : Held P E t u) (v : List UInt8)
    (hne : Nibbles.commonPrefixLen (key.drop depth) path ≠ path.length)
    (hw : Within E (t.insertNode P (fuel + 1) (.extension path (treeRef P u)) key depth v).1) :
    Builds P E (Patricia.insert (.ext path u) (key.drop depth) v)
      (t.insertNode P (fuel + 1) (.extension path (treeRef P u)) key depth v) := by
  obtain ⟨rest,hrest⟩ : ∃ rest, key.drop depth = rest := ⟨_,rfl⟩
  obtain ⟨cp,hcp⟩ : ∃ cp, Nibbles.commonPrefixLen rest path = cp := ⟨_,rfl⟩
  have hsplit := Nibbles.split_eq rest path
  obtain ⟨hle,hle'⟩ := Nibbles.commonPrefixLen_le rest path
  rw [hrest, hcp] at hne
  rw [hcp] at hsplit hle hle'
  have hlt : cp < path.length := by omega
  rw [hrest, Patricia.insert, hsplit, Nibbles.drop_eq_cons hlt]
  obtain ⟨s,hs⟩ : ∃ s, (if path.drop (cp + 1) = [] then (t,treeRef P u)
      else t.storeNode P (.extension (path.drop (cp + 1)) (treeRef P u))) = s := ⟨_,rfl⟩
  rw [insertNode_ext_of_ne hrest hcp hne hs] at hw ⊢
  have hmid := (grows_placeKey _ rest cp _ _ v).within hw
  have hrestHeld : s.2 = treeRef P (Patricia.join (path.drop (cp + 1)) u) ∧
      Held P E s.1 (Patricia.join (path.drop (cp + 1)) u) := by
    cases u with
    | branch children value =>
      by_cases htail : path.drop (cp + 1) = []
      · rw [if_pos htail] at hs
        rw [Patricia.join, if_pos htail, ← hs]
        exact ⟨rfl,hheld⟩
      · rw [if_neg htail, ← toNode_ext] at hs
        rw [← hs] at hmid ⊢
        rw [Patricia.join, if_neg htail]
        exact storeNode_toNode hsafe (Patricia.ext_ne_empty _ _) hheld hmid
    | empty => cases hbranch
    | leaf => cases hbranch
    | ext => cases hbranch
  rw [hrestHeld.1, noChildren_eq (P := P), treeRefs_update] at hw ⊢
  obtain ⟨hnode,hkept⟩ := placeKey_spec hsafe rest hle (held_update_empty hrestHeld.2) v hw
  exact ⟨congrArg Except.ok hnode,hkept⟩

/-- A node whose parts are found is turned into the node of the tree with the new key. -/
theorem insertNode_spec (hsafe : Safe P E) {fuel : ℕ} (key : Nibbles) {depth : ℕ}
    (hdepth : depth ≤ key.length) (hfuel : key.length - depth < fuel) (hnormal : u.Normal)
    (hclean : Clean u) (hstored : Stored P E t u) (v : List UInt8)
    (hw : Within E (t.insertNode P fuel (toNode P u) key depth v).1) :
    Builds P E (u.insert (key.drop depth) v) (t.insertNode P fuel (toNode P u) key depth v) := by
  induction fuel generalizing t u depth with
  | zero => omega
  | succ fuel ih =>
    cases u with
    | empty => exact ⟨rfl,trivial⟩
    | leaf path old => exact insertNode_leaf_spec hsafe key path old v hw
    | ext path child =>
      by_cases hall : Nibbles.commonPrefixLen (key.drop depth) path = path.length
      · -- the whole path: on to the child
        have hle := (Nibbles.commonPrefixLen_le (key.drop depth) path).1
        have hpath := List.length_pos_iff.mpr hnormal.1
        rw [List.length_drop, hall] at hle
        have hsplit := Nibbles.split_eq (key.drop depth) path
        rw [hall, List.drop_drop, List.drop_length] at hsplit
        have hresolve := resolve_treeRef (u := child) hsafe hclean hstored.1
        rw [toNode_ext] at hw ⊢
        obtain ⟨r,hr⟩ : ∃ r, t.insertNode P fuel (toNode P child) key (depth + path.length) v = r :=
          ⟨_,rfl⟩
        have hgrow := insertNode_ext_grows rfl hall rfl hresolve hr
        have hrec : Builds P E (child.insert (key.drop (depth + path.length)) v) r := by
          rw [← hr]
          refine ih (by omega) (by omega) hnormal.2.2 hclean hstored.2 ?_
          rw [hr]
          exact hgrow.within hw
        rw [insertNode_ext_of_eq rfl hall rfl hresolve hr hrec.1] at hw ⊢
        obtain ⟨href,hheld⟩ := storeNode_toNode hsafe (Patricia.insert_ne_empty child _ v) hrec.2 hw
        rw [Patricia.insert, hsplit]
        exact ⟨by rw [href]; rfl,hheld⟩
      · exact insertNode_ext_spec hsafe key hnormal.2.1 hstored v hall hw
    | branch children value =>
      by_cases hend : depth = key.length
      · rw [toNode_branch, insertNode_branch_of_end hend, hend, List.drop_length]
        exact ⟨rfl,hstored⟩
      · have hlt : depth < key.length := by omega
        have hresolve := resolve_treeRef hsafe (hclean.1 (key.nibbleAt depth))
          (hstored (key.nibbleAt depth)).1
        rw [toNode_branch] at hw ⊢
        obtain ⟨r,hr⟩ : ∃ r, t.insertNode P fuel (toNode P (children (key.nibbleAt depth))) key
            (depth + 1) v = r := ⟨_,rfl⟩
        have hgrow : Grows P r.1 (t.insertNode P (fuel + 1)
            (.branch (fun i => treeRef P (children i)) value) key depth v).1 :=
          insertNode_branch_grows hend hresolve hr
        have hrec : Builds P E ((children (key.nibbleAt depth)).insert (key.drop (depth + 1)) v) r := by
          rw [← hr]
          refine ih (by omega) (by omega) (hnormal.1 _) (hclean.1 _) (hstored _).2 ?_
          rw [hr]
          exact hgrow.within hw
        have hmid : Grows P t r.1 := by
          rw [← hr]
          exact grows_insertNode fuel t _ key (depth + 1) v
        rw [insertNode_branch_of_ne hend hresolve hr hrec.1] at hw ⊢
        obtain ⟨href,hheld⟩ := storeNode_toNode hsafe (Patricia.insert_ne_empty _ _ v) hrec.2 hw
        rw [Nibbles.drop_eq_cons hlt, Patricia.insert]
        refine ⟨?_,fun i => ?_⟩
        · rw [href, toNode_branch]
          exact congrArg (fun refs => Except.ok (TrieNode.branch refs value))
            (treeRefs_update children _ _)
        · by_cases hi : i = key.nibbleAt depth
          · subst hi
            rw [Function.update_self]
            exact hheld
          · rw [Function.update_of_ne hi]
            exact Held.grows hsafe (hstored i) (hmid.trans (grows_storeNode r.1 _)) hw

end Insert

theorem getNode_spec (hsafe : Safe P E) {fuel : ℕ} {r : NodeRef} (key : Nibbles) {depth : ℕ}
    (hdepth : depth ≤ key.length) (hfuel : key.length - depth < fuel) (hnormal : u.Normal)
    (hclean : Clean u) (hstored : Stored P E t u) (hr : t.resolve r = .ok (toNode P u)) :
    t.getNode fuel r key depth = .ok (u.get (key.drop depth)) := by
  induction fuel generalizing u r depth with
  | zero => omega
  | succ fuel ih =>
    obtain ⟨rest,hrest⟩ : ∃ rest, key.drop depth = rest := ⟨_,rfl⟩
    have hlen : rest.length = key.length - depth := by rw [← hrest, List.length_drop]
    have hslice : key.slice depth = rest := hrest
    rw [getNode, hr]
    simp only [bind, Except.bind, hslice]
    cases u with
    | empty => rfl
    | leaf path value =>
      simp only [toNode_leaf, Nibbles.eq_path_iff, hrest, Patricia.get_leaf]
      split
      · rfl
      · rfl
    | ext path child =>
      have hdrop := Nibbles.dropPrefix?_eq rest path
      obtain ⟨hle,hle'⟩ := Nibbles.commonPrefixLen_le rest path
      rw [hrest, Patricia.get_ext]
      by_cases hall : Nibbles.commonPrefixLen rest path = path.length
      · have hpath := List.length_pos_iff.mpr hnormal.1
        have hresolve := resolve_treeRef (u := child) hsafe hclean hstored.1
        rw [hall] at hle
        rw [if_pos hall] at hdrop
        simp only [toNode_ext, hall, lt_irrefl, if_false, hdrop, Option.bind_some]
        rw [← hrest, List.drop_drop]
        exact ih (by omega) (by omega) hnormal.2.2 hclean hstored.2 hresolve
      · have hoff : Nibbles.commonPrefixLen rest path < path.length := Nat.lt_of_le_of_ne hle' hall
        rw [if_neg hall] at hdrop
        simp only [toNode_ext, if_pos hoff, hdrop, Option.bind_none]
        rfl
    | branch children value =>
      simp only [toNode_branch]
      by_cases hend : depth = key.length
      · rw [if_pos hend, hend, List.drop_length]
        rfl
      · have hresolve := resolve_treeRef hsafe (hclean.1 (key.nibbleAt depth))
          (hstored (key.nibbleAt depth)).1
        rw [if_neg hend, Nibbles.drop_eq_cons (by omega), Patricia.get_branch_cons]
        exact ih (by omega) (by omega) (hnormal.1 _) (hclean.1 _) (hstored _).2 hresolve

end ZbxChain.MutableTrie
