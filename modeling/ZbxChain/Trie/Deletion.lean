import ZbxChain.Trie.Refinement

/-! # Node deletion computes deletion from Patricia trees -/
namespace ZbxChain.MutableTrie

variable {DB : Type} [TrieDB DB] {P : Platform} {E : Set (List UInt8)} {t : MutableTrie DB}
  {u : NibbleTree} {children : Fin 16 → NibbleTree} {value : Option (List UInt8)}

section Collapse
variable {refs : Fin 16 → NodeRef} {a b : Fin 16} {l : List (Fin 16)}

def present (refs : Fin 16 → NodeRef) : List (Fin 16) :=
  (List.finRange 16).filter (fun i => !(refs i).isEmpty)

theorem mem_present (i : Fin 16) : i ∈ present (treeRefs P children) ↔ children i ≠ .empty := by
  unfold present treeRefs
  rw [List.mem_filter, Bool.not_eq_true', ← Bool.not_eq_true, treeRef_isEmpty]
  exact and_iff_right (List.mem_finRange i)

theorem nodup_present (refs : Fin 16 → NodeRef) : (present refs).Nodup :=
  (List.nodup_finRange 16).filter _

theorem maybeCollapseBranch_nil (h : present refs = []) (value : Option (List UInt8)) :
    t.maybeCollapseBranch P refs value =
      match value with
      | none => (t, .ok .empty)
      | some v => (t, .ok (.leaf [] v)) := by
  unfold present at h
  unfold maybeCollapseBranch
  rw [h]
  cases value with
  | none => rfl
  | some v => rfl

theorem maybeCollapseBranch_some (h : present refs = [a]) (v : List UInt8) :
    t.maybeCollapseBranch P refs (some v) = (t, .ok (.branch refs (some v))) := by
  unfold present at h
  unfold maybeCollapseBranch
  rw [h]

theorem maybeCollapseBranch_many (h : present refs = a :: b :: l) :
    t.maybeCollapseBranch P refs value = (t, .ok (.branch refs value)) := by
  unfold present at h
  unfold maybeCollapseBranch
  rw [h]

/-- A branch with one child left and no value takes the form of that child. -/
theorem maybeCollapseBranch_lone (h : present refs = [a]) (childNode : TrieNode) :
    t.resolve (refs a) = .ok childNode → t.maybeCollapseBranch P refs none =
      match childNode with
      | .leaf path v => (t, .ok (.leaf (a :: path) v))
      | .extension path child => (t, .ok (.extension (a :: path) child))
      | .branch grandchildren v =>
        ((t.storeNode P (.branch grandchildren v)).1,
          .ok (.extension [a] (t.storeNode P (.branch grandchildren v)).2))
      | .empty => (t, .ok .empty) := by
  intro hchild
  unfold present at h
  unfold maybeCollapseBranch
  rw [h]
  simp only [hchild]
  cases childNode with
  | empty => rfl
  | leaf path v => rfl
  | extension path child => rfl
  | branch grandchildren v => rfl

theorem frame_maybeCollapseBranch {R : MutableTrie DB → MutableTrie DB → Prop} (h : Frame P R) (t : MutableTrie DB) (refs : Fin 16 → NodeRef)
    (value : Option (List UInt8)) : R t (t.maybeCollapseBranch P refs value).1 := by
  rcases hslots : present refs with _ | ⟨a,_ | ⟨b,l⟩⟩
  · rw [maybeCollapseBranch_nil hslots]
    cases value with
    | none => exact h.refl t
    | some v => exact h.refl t
  · cases value with
    | some v =>
      rw [maybeCollapseBranch_some hslots]
      exact h.refl t
    | none =>
      cases hchild : t.resolve (refs a) with
      | error e =>
        unfold present at hslots
        unfold maybeCollapseBranch
        simp only [hslots, hchild]
        exact h.refl t
      | ok childNode =>
        rw [maybeCollapseBranch_lone hslots childNode hchild]
        cases childNode with
        | empty => exact h.refl t
        | leaf path v => exact h.refl t
        | extension path child => exact h.refl t
        | branch grandchildren v => exact h.storeNode t _
  · rw [maybeCollapseBranch_many hslots]
    exact h.refl t

theorem grows_maybeCollapseBranch (t : MutableTrie DB) (refs : Fin 16 → NodeRef)
    (value : Option (List UInt8)) : Grows P t (t.maybeCollapseBranch P refs value).1 :=
  frame_maybeCollapseBranch frame_grows t refs value

theorem lone_spec (hsafe : Safe P E) (hslots : present (treeRefs P children) = [a])
    (hfilled : Filled (children a)) (hheld : Held P E t (children a))
    (hw : Within E (t.maybeCollapseBranch P (treeRefs P children) none).1) :
    Builds P E (Patricia.join [a] (children a))
      (t.maybeCollapseBranch P (treeRefs P children) none) := by
  have hne : children a ≠ .empty := (mem_present (P := P) a).mp (by rw [hslots]; simp)
  have hresolve : t.resolve (treeRefs P children a) = .ok (toNode P (children a)) :=
    resolve_treeRef hsafe hfilled.clean hheld.1
  rw [maybeCollapseBranch_lone hslots _ hresolve] at hw ⊢
  generalize children a = child at hne hheld hw ⊢
  cases child with
  | empty => exact absurd rfl hne
  | leaf path v => exact ⟨rfl,trivial⟩
  | ext path grandchild => exact ⟨rfl,hheld.2⟩
  | branch grandchildren v =>
    have hkept := storeNode_toNode hsafe (u := .branch grandchildren v) nofun hheld.2 hw
    obtain ⟨href,hheld'⟩ := hkept
    rw [toNode_branch] at href hheld'
    simp only [toNode_branch]
    rw [Patricia.join, if_neg (List.cons_ne_nil a []), href]
    exact ⟨rfl,hheld'⟩

/-- A branch that may have lost something becomes what `collapse` makes of it. -/
theorem maybeCollapseBranch_spec (hsafe : Safe P E) (hfilled : ∀ i, Filled (children i))
    (hheld : ∀ i, Held P E t (children i))
    (hw : Within E (t.maybeCollapseBranch P (treeRefs P children) value).1) :
    Builds P E (Patricia.collapse children value)
      (t.maybeCollapseBranch P (treeRefs P children) value) := by
  have hmem : ∀ i, i ∈ present (treeRefs P children) ↔ children i ≠ .empty := mem_present
  rcases hslots : present (treeRefs P children) with _ | ⟨a,_ | ⟨b,l⟩⟩
  · have hempty : ∀ i, children i = .empty := by
      intro i
      by_contra hne
      have hi := (hmem i).mpr hne
      rw [hslots] at hi
      cases hi
    rw [maybeCollapseBranch_nil hslots]
    cases value with
    | none =>
      rw [Patricia.collapse_none hempty]
      exact ⟨rfl,trivial⟩
    | some v =>
      rw [Patricia.collapse_some hempty]
      exact ⟨rfl,trivial⟩
  · have hne : children a ≠ .empty := (hmem a).mp (by rw [hslots]; simp)
    have hlone : ∀ i, i ≠ a → children i = .empty := by
      intro i hi
      by_contra hsome
      have hmem' := (hmem i).mpr hsome
      rw [hslots, List.mem_singleton] at hmem'
      exact hi hmem'
    cases value with
    | none =>
      rw [Patricia.collapse_lone hne hlone]
      exact lone_spec hsafe hslots (hfilled a) (hheld a) hw
    | some v =>
      rw [maybeCollapseBranch_some hslots,
        Patricia.collapse_of_forks ⟨a,hne,Or.inl (Option.some_ne_none v)⟩]
      exact ⟨rfl,hheld⟩
  · have ha : children a ≠ .empty := (hmem a).mp (by rw [hslots]; simp)
    have hb : children b ≠ .empty := (hmem b).mp (by rw [hslots]; simp)
    have hnodup := nodup_present (treeRefs P children)
    rw [hslots] at hnodup
    have hab : b ≠ a := by
      rintro rfl
      simp at hnodup
    rw [maybeCollapseBranch_many hslots, Patricia.collapse_of_forks ⟨a,ha,Or.inr ⟨b,hab,hb⟩⟩]
    exact ⟨rfl,hheld⟩

end Collapse

section Delete
variable {fuel depth : ℕ} {key path : Nibbles} {child : NodeRef} {childNode : TrieNode}
  {refs : Fin 16 → NodeRef} {branchVal : Option (List UInt8)}

/-- What `deleteNode` makes of the child of an extension. -/
def extAfter (P : Platform) (path : Nibbles) (child : NodeRef) :
    MutableTrie DB × Except Fault (TrieNode × Bool) → MutableTrie DB × Except Fault (TrieNode × Bool)
  | (t, .error e) => (t, .error e)
  | (t, .ok (_,false)) => (t, .ok (.extension path child,false))
  | (t, .ok (newChild,true)) =>
    match newChild with
    | .empty => (t, .ok (.empty,true))
    | .leaf path' value => (t, .ok (.leaf (path ++ path') value,true))
    | .extension path' grandchild => (t, .ok (.extension (path ++ path') grandchild,true))
    | .branch children value =>
      ((t.storeNode P (.branch children value)).1,
        .ok (.extension path (t.storeNode P (.branch children value)).2,true))

/-- A removed child leaves its slot empty. -/
def storeChild (P : Platform) (t : MutableTrie DB) : TrieNode → MutableTrie DB × NodeRef
  | .empty => (t,.empty)
  | other => t.storeNode P other

def removed : MutableTrie DB × Except Fault TrieNode → MutableTrie DB × Except Fault (TrieNode × Bool)
  | (t, .error e) => (t, .error e)
  | (t, .ok collapsed) => (t, .ok (collapsed,true))

/-- What `deleteNode` makes of the child of a branch. -/
def branchAfter (P : Platform) (refs : Fin 16 → NodeRef) (branchVal : Option (List UInt8))
    (idx : Fin 16) :
    MutableTrie DB × Except Fault (TrieNode × Bool) → MutableTrie DB × Except Fault (TrieNode × Bool)
  | (t, .error e) => (t, .error e)
  | (t, .ok (_,false)) => (t, .ok (.branch refs branchVal,false))
  | (t, .ok (newChild,true)) =>
    removed ((storeChild P t newChild).1.maybeCollapseBranch P
      (Function.update refs idx (storeChild P t newChild).2) branchVal)

theorem deleteNode_ext_of_ok (h : (key.slice depth).commonPrefixLen path = path.length)
    (hchild : t.resolve child = .ok childNode) :
    t.deleteNode P (fuel + 1) (.extension path child) key depth =
      extAfter P path child (t.deleteNode P fuel childNode key (depth + path.length)) := by
  simp only [deleteNode, h, ne_eq, not_true_eq_false, if_false, hchild]
  rcases t.deleteNode P fuel childNode key (depth + path.length) with ⟨t',e | ⟨newChild,_ | _⟩⟩
  · rfl
  · rfl
  · cases newChild with
    | empty => rfl
    | leaf path' v => rfl
    | extension path' grandchild => rfl
    | branch children v => rfl

theorem deleteNode_branch_of_end (h : depth = key.length) (branchVal : Option (List UInt8)) :
    t.deleteNode P (fuel + 1) (.branch refs branchVal) key depth =
      match branchVal with
      | some _ => removed (t.maybeCollapseBranch P refs none)
      | none => (t, .ok (.branch refs none,false)) := by
  cases branchVal with
  | none => simp only [deleteNode, if_pos h, Option.isSome_none, Bool.false_eq_true, if_false]
  | some v =>
    simp only [deleteNode, if_pos h, Option.isSome_some, if_true]
    rcases t.maybeCollapseBranch P refs none with ⟨t',e | collapsed⟩
    · rfl
    · rfl

theorem deleteNode_branch_of_ok (h : depth ≠ key.length)
    (hchild : t.resolve (refs (key.nibbleAt depth)) = .ok childNode) :
    t.deleteNode P (fuel + 1) (.branch refs branchVal) key depth =
      branchAfter P refs branchVal (key.nibbleAt depth)
        (t.deleteNode P fuel childNode key (depth + 1)) := by
  simp only [deleteNode, if_neg h, hchild]
  rcases t.deleteNode P fuel childNode key (depth + 1) with ⟨t',e | ⟨newChild,_ | _⟩⟩
  · rfl
  · rfl
  · have hcollapse : ∀ s : MutableTrie DB × Except Fault TrieNode,
        (match s with
          | (t, .error e) => (t, .error e)
          | (t, .ok collapsed) => (t, .ok (collapsed,true))) = removed s := by
      rintro ⟨t',e | collapsed⟩
      · rfl
      · rfl
    cases newChild with
    | empty => exact hcollapse _
    | leaf path' v => exact hcollapse _
    | extension path' grandchild => exact hcollapse _
    | branch children v => exact hcollapse _

variable {R : MutableTrie DB → MutableTrie DB → Prop}

omit [TrieDB DB] in
theorem frame_storeChild (h : Frame P R) (t : MutableTrie DB) (node : TrieNode) : R t (storeChild P t node).1 := by
  cases node with
  | empty => exact h.refl t
  | leaf path v => exact h.storeNode t _
  | extension path child => exact h.storeNode t _
  | branch children v => exact h.storeNode t _

omit [TrieDB DB] in
theorem removed_fst (s : MutableTrie DB × Except Fault TrieNode) : (removed s).1 = s.1 := by
  rcases s with ⟨t',e | collapsed⟩
  · rfl
  · rfl

omit [TrieDB DB] in
theorem frame_extAfter (h : Frame P R) (path : Nibbles) (child : NodeRef)
    (r : MutableTrie DB × Except Fault (TrieNode × Bool)) : R r.1 (extAfter P path child r).1 := by
  rcases r with ⟨t',e | ⟨newChild,_ | _⟩⟩
  · exact h.refl t'
  · exact h.refl t'
  · cases newChild with
    | empty => exact h.refl t'
    | leaf path' v => exact h.refl t'
    | extension path' grandchild => exact h.refl t'
    | branch children v => exact h.storeNode t' _

theorem frame_branchAfter (h : Frame P R) (refs : Fin 16 → NodeRef) (branchVal : Option (List UInt8)) (idx : Fin 16)
    (r : MutableTrie DB × Except Fault (TrieNode × Bool)) :
    R r.1 (branchAfter P refs branchVal idx r).1 := by
  rcases r with ⟨t',e | ⟨newChild,_ | _⟩⟩
  · exact h.refl t'
  · exact h.refl t'
  · rw [branchAfter, removed_fst]
    exact h.trans (frame_storeChild h t' newChild) (frame_maybeCollapseBranch h _ _ _)

theorem frame_deleteNode (h : Frame P R) (fuel : ℕ) (t : MutableTrie DB) (node : TrieNode) (key : Nibbles)
    (depth : ℕ) : R t (t.deleteNode P fuel node key depth).1 := by
  induction fuel generalizing t node depth with
  | zero => exact h.refl t
  | succ fuel ih =>
    cases node with
    | empty => exact h.refl t
    | leaf path v =>
      simp only [deleteNode]
      split
      · exact h.refl t
      · exact h.refl t
    | extension path child =>
      by_cases hall : (key.slice depth).commonPrefixLen path = path.length
      · cases hchild : t.resolve child with
        | error e =>
          rw [deleteNode_ext_of_error hall hchild]
          exact h.refl t
        | ok childNode =>
          rw [deleteNode_ext_of_ok hall hchild]
          exact h.trans (ih t childNode _) (frame_extAfter h path child _)
      · rw [deleteNode_ext_of_ne hall]
        exact h.refl t
    | branch refs branchVal =>
      by_cases hend : depth = key.length
      · rw [deleteNode_branch_of_end hend]
        cases branchVal with
        | none => exact h.refl t
        | some v =>
          simp only [removed_fst]
          exact frame_maybeCollapseBranch h t refs none
      · cases hchild : t.resolve (refs (key.nibbleAt depth)) with
        | error e =>
          rw [deleteNode_branch_of_error hend hchild]
          exact h.refl t
        | ok childNode =>
          rw [deleteNode_branch_of_ok hend hchild]
          exact h.trans (ih t childNode _) (frame_branchAfter h refs branchVal _ _)

omit [TrieDB DB] in
theorem grows_storeChild (t : MutableTrie DB) (node : TrieNode) : Grows P t (storeChild P t node).1 :=
  frame_storeChild frame_grows t node

omit [TrieDB DB] in
theorem grows_extAfter (path : Nibbles) (child : NodeRef)
    (r : MutableTrie DB × Except Fault (TrieNode × Bool)) : Grows P r.1 (extAfter P path child r).1 :=
  frame_extAfter frame_grows path child r

theorem grows_branchAfter (refs : Fin 16 → NodeRef) (branchVal : Option (List UInt8)) (idx : Fin 16)
    (r : MutableTrie DB × Except Fault (TrieNode × Bool)) :
    Grows P r.1 (branchAfter P refs branchVal idx r).1 := frame_branchAfter frame_grows refs branchVal idx r

theorem grows_deleteNode (fuel : ℕ) (t : MutableTrie DB) (node : TrieNode) (key : Nibbles)
    (depth : ℕ) : Grows P t (t.deleteNode P fuel node key depth).1 := frame_deleteNode frame_grows fuel t node key depth

end Delete

section Spec
variable {r : MutableTrie DB × Except Fault (TrieNode × Bool)} {rest : Nibbles}

/-- A call's result is the node of the tree without the word, or the tree's own node and
`false` if the word is not there. -/
def Removes (P : Platform) (E : Set (List UInt8)) (u : NibbleTree) (rest : Nibbles)
    (r : MutableTrie DB × Except Fault (TrieNode × Bool)) : Prop :=
  match u.delete rest with
  | none => r.2 = .ok (toNode P u,false)
  | some u' => r.2 = .ok (toNode P u',true) ∧ Stored P E r.1 u'

theorem filled_delete {u' : NibbleTree} (h : Filled u) (hdelete : u.delete rest = some u') :
    Filled u' := by
  intro k v hv
  rw [Patricia.get_delete hdelete] at hv
  split at hv
  · cases hv
  · exact h k v hv

theorem storeChild_spec (hsafe : Safe P E) (h : Stored P E t u)
    (hw : Within E (storeChild P t (toNode P u)).1) :
    (storeChild P t (toNode P u)).2 = treeRef P u ∧ Held P E (storeChild P t (toNode P u)).1 u := by
  cases u with
  | empty => exact ⟨rfl,held_empty⟩
  | leaf path v => exact storeNode_toNode hsafe (u := .leaf path v) nofun h hw
  | ext path child => exact storeNode_toNode hsafe (u := .ext path child) nofun h hw
  | branch children v => exact storeNode_toNode hsafe (u := .branch children v) nofun h hw

omit [TrieDB DB] in
theorem removed_eq {s : MutableTrie DB × Except Fault TrieNode} {node : TrieNode}
    (h : s.2 = .ok node) : (removed s).2 = .ok (node,true) := by
  obtain ⟨t',s⟩ := s
  cases h
  rfl

theorem extAfter_spec (hsafe : Safe P E) {path : Nibbles} (hpath : path ≠ [])
    (hdelete : (Patricia.ext path u).delete (path ++ rest) = (u.delete rest).map (Patricia.join path))
    (hrec : Removes P E u rest r) (hw : Within E (extAfter P path (treeRef P u) r).1) :
    Removes P E (.ext path u) (path ++ rest) (extAfter P path (treeRef P u) r) := by
  unfold Removes at hrec ⊢
  rw [hdelete]
  obtain ⟨t',r⟩ := r
  cases hu : u.delete rest with
  | none =>
    rw [hu] at hrec
    cases hrec
    rfl
  | some u' =>
    rw [hu] at hrec
    obtain ⟨rfl,hstored⟩ := hrec
    cases u' with
    | empty => exact ⟨rfl,trivial⟩
    | leaf path' v => exact ⟨rfl,trivial⟩
    | ext path' grandchild => exact ⟨rfl,hstored⟩
    | branch children v =>
      obtain ⟨href,hheld⟩ := storeNode_toNode hsafe (u := .branch children v) nofun hstored hw
      simp only [Option.map_some, Patricia.join, if_neg hpath]
      exact ⟨by rw [toNode_ext, ← href]; rfl,hheld⟩

/-- What is left of a child goes back into its slot, and the branch collapses. -/
theorem branchAfter_spec (hsafe : Safe P E) {a : Fin 16} (hfilled : Filled (.branch children value))
    (hheld : ∀ i, Held P E t (children i)) (hgrow : Grows P t r.1)
    (hrec : Removes P E (children a) rest r)
    (hw : Within E (branchAfter P (treeRefs P children) value a r).1) :
    Removes P E (.branch children value) (a :: rest)
      (branchAfter P (treeRefs P children) value a r) := by
  unfold Removes at hrec ⊢
  rw [Patricia.delete]
  obtain ⟨t',r⟩ := r
  cases hu : (children a).delete rest with
  | none =>
    rw [hu] at hrec
    cases hrec
    rfl
  | some u' =>
    rw [hu] at hrec
    obtain ⟨rfl,hstored⟩ := hrec
    simp only [Option.map_some]
    rw [branchAfter, removed_fst] at hw
    rw [branchAfter, removed_fst]
    have hmid := (grows_maybeCollapseBranch _ _ _).within hw
    obtain ⟨href,hu'⟩ := storeChild_spec hsafe hstored hmid
    rw [href, treeRefs_update] at hw ⊢
    have hslots : ∀ i, Held P E (storeChild P t' (toNode P u')).1 (Function.update children a u' i) := by
      intro i
      by_cases hi : i = a
      · subst hi
        rwa [Function.update_self]
      · rw [Function.update_of_ne hi]
        exact (hheld i).grows hsafe (hgrow.trans (grows_storeChild t' _)) hmid
    have hvalues : ∀ i, Filled (Function.update children a u' i) := by
      intro i
      by_cases hi : i = a
      · subst hi
        rw [Function.update_self]
        exact filled_delete (hfilled.children i) hu
      · rw [Function.update_of_ne hi]
        exact hfilled.children i
    obtain ⟨hnode,hkept⟩ := maybeCollapseBranch_spec hsafe hvalues hslots hw
    exact ⟨removed_eq hnode,hkept⟩

theorem deleteNode_spec (hsafe : Safe P E) {fuel : ℕ} (key : Nibbles) {depth : ℕ}
    (hdepth : depth ≤ key.length) (hfuel : key.length - depth < fuel) (hnormal : u.Normal)
    (hfilled : Filled u) (hstored : Stored P E t u)
    (hw : Within E (t.deleteNode P fuel (toNode P u) key depth).1) :
    Removes P E u (key.drop depth) (t.deleteNode P fuel (toNode P u) key depth) := by
  induction fuel generalizing t u depth with
  | zero => omega
  | succ fuel ih =>
    obtain ⟨rest,hrest⟩ : ∃ rest, key.drop depth = rest := ⟨_,rfl⟩
    have hslice : key.slice depth = rest := hrest
    have hlen : rest.length = key.length - depth := by rw [← hrest, List.length_drop]
    cases u with
    | empty => exact rfl
    | leaf path v =>
      have hsame : rest.length = path.length ∧ Nibbles.commonPrefixLen rest path = path.length ↔
          rest = path := by
        rw [← Nibbles.eq_path_iff, and_comm, eq_comm (a := path.length)]
      unfold Removes
      simp only [toNode_leaf, deleteNode, hslice, hrest, hsame, Patricia.delete]
      by_cases heq : rest = path
      · rw [if_pos heq, if_pos heq]
        exact ⟨rfl,trivial⟩
      · rw [if_neg heq, if_neg heq]
    | ext path child =>
      have hdrop := Nibbles.dropPrefix?_eq rest path
      have hpath := List.length_pos_iff.mpr hnormal.1
      obtain ⟨hle,-⟩ := Nibbles.commonPrefixLen_le rest path
      rw [hrest]
      by_cases hall : Nibbles.commonPrefixLen rest path = path.length
      · have hresolve := resolve_treeRef hsafe hfilled.child.clean hstored.1
        rw [if_pos hall, ← hrest, List.drop_drop] at hdrop
        rw [hall] at hle
        have hrest' := Patricia.dropPrefix?_eq_some.mp hdrop
        have hall' : (key.slice depth).commonPrefixLen path = path.length := by rw [hslice, hall]
        rw [toNode_ext, deleteNode_ext_of_ok hall' hresolve] at hw ⊢
        have hrec := ih (by omega) (by omega) hnormal.2.2 hfilled.child hstored.2
          ((grows_extAfter path _ _).within hw)
        rw [← hrest, hrest']
        refine extAfter_spec hsafe hnormal.1 ?_ hrec hw
        rw [Patricia.delete, Patricia.dropPrefix?_append, Option.bind_some]
      · rw [if_neg hall] at hdrop
        have hall' : (key.slice depth).commonPrefixLen path ≠ path.length := by rwa [hslice]
        rw [toNode_ext, deleteNode_ext_of_ne hall']
        unfold Removes
        rw [Patricia.delete, hdrop]
        rfl
    | branch children value =>
      by_cases hend : depth = key.length
      · rw [toNode_branch, deleteNode_branch_of_end hend] at hw ⊢
        rw [hend, List.drop_length]
        unfold Removes
        cases value with
        | none => rfl
        | some v =>
          simp only [removed_fst] at hw ⊢
          obtain ⟨hnode,hkept⟩ := maybeCollapseBranch_spec hsafe hfilled.children hstored hw
          exact ⟨removed_eq hnode,hkept⟩
      · have hlt : depth < key.length := by omega
        have hresolve := resolve_treeRef hsafe (hfilled.children (key.nibbleAt depth)).clean
          (hstored (key.nibbleAt depth)).1
        rw [toNode_branch, deleteNode_branch_of_ok hend hresolve] at hw ⊢
        have hrec := ih (by omega) (by omega) (hnormal.1 _) (hfilled.children _) (hstored _).2
          ((grows_branchAfter _ _ _ _).within hw)
        rw [Nibbles.drop_eq_cons hlt]
        exact branchAfter_spec hsafe hfilled hstored (grows_deleteNode fuel t _ key (depth + 1)) hrec hw

end Spec

end ZbxChain.MutableTrie
