import ZbxChain.Foundation.PatriciaListing
import ZbxChain.Trie.MapLaws

/-! # `zbx_trie::iterator`: walking a stored trie

The top of the stack is the head of the list. A branch stays on the stack while its children are
walked one after the other, and its own value comes after them.
-/
namespace ZbxChain

structure IterFrame where
  nodeRef : NodeRef
  /-- The nibbles so far. -/
  walked : Nibbles
  childIdx : ℕ

namespace TrieIterator
variable {DB : Type} [TrieDB DB]

/-- What the iterator yields; a panic while a node is decoded is an item of its own. -/
abbrev Item := Except Fault (List UInt8 × List UInt8)

def new (root : H256) : List IterFrame := [⟨.hash root,[],0⟩]

def resolve (db : DB) : NodeRef → Except Fault TrieNode
  | .empty => .ok .empty
  | .inline node => .ok node
  | .hash h =>
    match TrieDB.get db h with
    | .error e => .error (.error e)
    | .ok none => .error (.error (.missingNode h.debug))
    | .ok (some bytes) => TrieNode.decode bytes

theorem sixteen_pos : 0 < 16 := by decide

def nibblesToBytes : Nibbles → List UInt8
  | a :: b :: rest => Nibbles.pack a b :: nibblesToBytes rest
  | [a] => [Nibbles.pack a ⟨0,sixteen_pos⟩]
  | [] => []

/-- How a round of the loop of `next` ends. -/
inductive Round where
  | finished
  | continues (stack : List IterFrame)
  | yields (item : Item) (stack : List IterFrame)

def round (db : DB) : List IterFrame → Round
  | [] => .finished
  | frame :: rest =>
    match resolve db frame.nodeRef with
    | .error e => .yields (.error e) rest
    | .ok .empty => .continues rest
    | .ok (.leaf path value) => .yields (.ok (nibblesToBytes (frame.walked ++ path),value)) rest
    | .ok (.extension path child) => .continues (⟨child,frame.walked ++ path,0⟩ :: rest)
    | .ok (.branch children value) =>
      if 16 < frame.childIdx then .continues rest
      else
        let bumped := ⟨frame.nodeRef,frame.walked,frame.childIdx + 1⟩ :: rest
        if h : frame.childIdx < 16 then
          let idx := ⟨frame.childIdx,h⟩
          if (children idx).isEmpty then .continues bumped
          else .continues (⟨children idx,frame.walked ++ [idx],0⟩ :: bumped)
        else
          match value with
          | some v => .yields (.ok (nibblesToBytes frame.walked,v)) bumped
          | none => .continues bumped

/-- `next`, within a number of rounds. -/
def next (db : DB) : ℕ → List IterFrame → Option (Option Item × List IterFrame)
  | 0, _ => none
  | fuel + 1, stack =>
    match round db stack with
    | .finished => some (none,stack)
    | .continues stack => next db fuel stack
    | .yields item stack => some (some item,stack)

/-- The iterator ends after these items. -/
inductive Iterates (db : DB) : List IterFrame → List Item → Prop where
  | done {fuel : ℕ} {stack stack' : List IterFrame} (h : next db fuel stack = some (none,stack')) :
    Iterates db stack []
  | item {fuel : ℕ} {stack stack' : List IterFrame} {item : Item} {items : List Item}
    (h : next db fuel stack = some (some item,stack')) (hrest : Iterates db stack' items) :
    Iterates db stack (item :: items)

/-- Every pair of the map comes once, in the order of the keys, and nothing else comes. -/
def Enumerates (db : DB) (root : H256) (m : Contents) : Prop :=
  ∃ entries : List (List UInt8 × List UInt8), Iterates db (new root) (entries.map .ok) ∧
    (∀ k v, (k,v) ∈ entries ↔ m k = some v) ∧ (entries.map Prod.fst).Pairwise (· < ·)

section Runs
variable {db : DB} {stack stack' stack'' : List IterFrame} {items items' : List Item}

theorem next_succ {fuel : ℕ} {r : Option Item × List IterFrame} (h : next db fuel stack = some r) :
    next db (fuel + 1) stack = some r := by
  induction fuel generalizing stack with
  | zero => cases h
  | succ fuel ih =>
    rw [next] at h ⊢
    split at h
    · exact h
    · exact ih h
    · exact h

theorem next_mono {fuel fuel' : ℕ} (hle : fuel ≤ fuel') {r : Option Item × List IterFrame}
    (h : next db fuel stack = some r) : next db fuel' stack = some r := by
  induction hle with
  | refl => exact h
  | step _ ih => exact next_succ ih

theorem next_unique {fuel fuel' : ℕ} {r r' : Option Item × List IterFrame} (h : next db fuel stack = some r)
    (h' : next db fuel' stack = some r') : r = r' := by
  have hleft := next_mono (Nat.le_max_left fuel fuel') h
  have hright := next_mono (Nat.le_max_right fuel fuel') h'
  exact Option.some.inj (hleft.symm.trans hright)

theorem Iterates.unique (h : Iterates db stack items) (h' : Iterates db stack items') : items = items' := by
  induction h generalizing items' with
  | done h =>
    cases h' with
    | done h' => rfl
    | item h' hrest' => cases next_unique h h'
  | item h hrest ih =>
    cases h' with
    | done h' => cases next_unique h h'
    | item h' hrest' =>
      cases next_unique h h'
      rw [ih hrest']

/-- Rounds that yield these items and lead to a stack. -/
inductive Walks (db : DB) : List IterFrame → List Item → List IterFrame → Prop where
  | refl {stack : List IterFrame} : Walks db stack [] stack
  | continues {stack stack' stack'' : List IterFrame} {items : List Item}
    (h : round db stack = .continues stack') (hrest : Walks db stack' items stack'') : Walks db stack items stack''
  | yields {stack stack' stack'' : List IterFrame} {item : Item} {items : List Item}
    (h : round db stack = .yields item stack') (hrest : Walks db stack' items stack'') :
    Walks db stack (item :: items) stack''

theorem Walks.trans (h : Walks db stack items stack') (h' : Walks db stack' items' stack'') :
    Walks db stack (items ++ items') stack'' := by
  induction h with
  | refl => exact h'
  | continues h _ ih => exact .continues h (ih h')
  | yields h _ ih => exact .yields h (ih h')

theorem iterates_of_continues (h : round db stack = .continues stack') (hrest : Iterates db stack' items) :
    Iterates db stack items := by
  have hnext : ∀ fuel, next db (fuel + 1) stack = next db fuel stack' := by
    intro fuel
    rw [next, h]
  cases hrest with
  | done hdone => exact .done ((hnext _).trans hdone)
  | item hitem hrest => exact .item ((hnext _).trans hitem) hrest

theorem iterates_of_yields {item : Item} (h : round db stack = .yields item stack')
    (hrest : Iterates db stack' items) : Iterates db stack (item :: items) := by
  have hnext : next db 1 stack = some (some item,stack') := by rw [next, h]
  exact .item hnext hrest

theorem Walks.iterates (h : Walks db stack items []) : Iterates db stack items := by
  generalize hend : ([] : List IterFrame) = last at h
  induction h with
  | refl =>
    subst hend
    have hnext : next db 1 [] = some (none,[]) := rfl
    exact .done hnext
  | continues h _ ih => exact iterates_of_continues h (ih hend)
  | yields h _ ih => exact iterates_of_yields h (ih hend)

end Runs

section Trees
variable {P : Platform} {E : Set (List UInt8)} {t : MutableTrie DB} {u : NibbleTree} {db : DB} {ref : NodeRef}
  {walked : Nibbles} {rest : List IterFrame} {children : Fin 16 → NibbleTree} {value : Option (List UInt8)}

def itemsOf (walked : Nibbles) (u : NibbleTree) : List Item :=
  (u.listing (List.finRange 16)).map fun e => .ok (nibblesToBytes (walked ++ e.1),e.2)

theorem itemsOf_ext (walked path : Nibbles) (child : NibbleTree) :
    itemsOf walked (.ext path child) = itemsOf (walked ++ path) child := by
  rw [itemsOf, Patricia.listing, List.map_map, itemsOf]
  refine List.map_congr_left fun e _ => ?_
  rw [List.append_assoc]
  rfl

theorem itemsOf_branch (walked : Nibbles) (children : Fin 16 → NibbleTree) (value : Option (List UInt8)) :
    itemsOf walked (.branch children value) =
      ((List.finRange 16).flatMap fun a => itemsOf (walked ++ [a]) (children a)) ++
        value.toList.map fun v => .ok (nibblesToBytes walked,v) := by
  rw [itemsOf, Patricia.listing, List.map_append, List.map_flatMap, List.map_map]
  refine congrArg₂ (· ++ ·) ?_ ?_
  · refine congrArg (fun f => (List.finRange 16).flatMap f) (funext fun a => ?_)
    rw [List.map_map, itemsOf]
    refine List.map_congr_left fun e _ => ?_
    rw [List.append_assoc]
    rfl
  · refine List.map_congr_left fun v _ => ?_
    simp

/-- The rounds on a branch from a child on. -/
theorem walks_children (hresolve : resolve db ref = .ok (toNode P (.branch children value)))
    (hchild : ∀ a rest, children a ≠ .empty →
      Walks db (⟨treeRef P (children a),walked ++ [a],0⟩ :: rest) (itemsOf (walked ++ [a]) (children a)) rest)
    {n idx : ℕ} (hidx : idx + n = 16) :
    Walks db (⟨ref,walked,idx⟩ :: rest)
      ((((List.finRange 16).drop idx).flatMap fun a => itemsOf (walked ++ [a]) (children a)) ++
        value.toList.map fun v => .ok (nibblesToBytes walked,v)) rest := by
  induction n generalizing idx with
  | zero =>
    obtain rfl : idx = 16 := by omega
    have hlast : Walks db (⟨ref,walked,17⟩ :: rest) [] rest := by
      refine .continues ?_ .refl
      rw [round, hresolve]
      rfl
    cases value with
    | none =>
      refine .continues ?_ hlast
      rw [round, hresolve]
      rfl
    | some v =>
      refine .yields ?_ hlast
      rw [round, hresolve]
      rfl
  | succ n ih =>
    have hlt : idx < 16 := by omega
    have hlen : idx < (List.finRange 16).length := by rwa [List.length_finRange]
    rw [List.drop_eq_getElem_cons hlen, List.getElem_finRange, List.flatMap_cons, List.append_assoc]
    have hrest := @ih (idx + 1) (by omega)
    have hround : round db (⟨ref,walked,idx⟩ :: rest) =
        if (treeRef P (children ⟨idx,hlt⟩)).isEmpty then .continues (⟨ref,walked,idx + 1⟩ :: rest)
        else .continues (⟨treeRef P (children ⟨idx,hlt⟩),walked ++ [⟨idx,hlt⟩],0⟩ :: ⟨ref,walked,idx + 1⟩ :: rest) := by
      rw [round, hresolve]
      simp only [toNode_branch]
      rw [if_neg (by omega), dif_pos hlt]
    by_cases hempty : children ⟨idx,hlt⟩ = .empty
    · refine .continues (hround.trans (if_pos (treeRef_isEmpty.mpr hempty))) ?_
      have hnone : itemsOf (walked ++ [⟨idx,hlt⟩]) (children ⟨idx,hlt⟩) = [] := by
        rw [hempty]
        rfl
      exact (congrArg (· ++ _) hnone).symm ▸ hrest
    · refine .continues (hround.trans (if_neg fun h => hempty (treeRef_isEmpty.mp h))) ?_
      exact (hchild ⟨idx,hlt⟩ _ hempty).trans hrest

theorem resolve_hash (hsafe : Safe P E) (hcache : t.cache = []) (hclean : Clean u)
    (hheld : t.Holds P E (encoding P u)) : resolve t.db (.hash (P.keccak256 (encoding P u))) = .ok (toNode P u) := by
  obtain ⟨hmem,hlookup⟩ := hheld
  have hdecode : TrieNode.decode (encoding P u) = .ok (toNode P u) :=
    TrieNode.decode_encode_node (proper_toNode hclean) (hsafe.fits _ hmem)
  rw [MutableTrie.lookup, hcache, List.lookup_nil] at hlookup
  rw [resolve]
  dsimp only at hlookup
  cases hget : TrieDB.get t.db (P.keccak256 (encoding P u)) with
  | error e =>
    rw [hget] at hlookup
    cases hlookup
  | ok found =>
    rw [hget] at hlookup
    have hfound : found = some (encoding P u) := hlookup
    rw [hfound]
    exact hdecode

theorem resolve_treeRef (hsafe : Safe P E) (hcache : t.cache = []) (hclean : Clean u)
    (hlinked : t.Linked P E u) : resolve t.db (treeRef P u) = .ok (toNode P u) := by
  by_cases hne : u = .empty
  · subst hne
    rfl
  · rw [treeRef_of_ne hne]
    split
    · rfl
    · rename_i hshort
      exact resolve_hash hsafe hcache hclean (hlinked (Nat.le_of_not_lt hshort))

theorem walks_tree (hsafe : Safe P E) (hcache : t.cache = []) (hclean : Clean u) (hstored : t.Stored P E u)
    (hresolve : resolve t.db ref = .ok (toNode P u)) (walked : Nibbles) (rest : List IterFrame) :
    Walks t.db (⟨ref,walked,0⟩ :: rest) (itemsOf walked u) rest := by
  induction u generalizing ref walked rest with
  | empty =>
    refine .continues ?_ .refl
    rw [round, hresolve]
    rfl
  | leaf path value =>
    refine .yields ?_ .refl
    rw [round, hresolve]
    rfl
  | ext path child ih =>
    rw [itemsOf_ext]
    refine .continues ?_ (ih hclean hstored.2 (resolve_treeRef hsafe hcache hclean hstored.1) (walked ++ path) rest)
    rw [round, hresolve]
    rfl
  | branch children value ih =>
    rw [itemsOf_branch]
    refine walks_children (P := P) hresolve ?_ (Nat.zero_add 16)
    intro a rest _
    exact ih a (hclean.1 a) (hstored a).2 (resolve_treeRef hsafe hcache (hclean.1 a) (hstored a).1) _ rest

end Trees

section Bytes

theorem pack_high_low (b : UInt8) : Nibbles.pack (Nibbles.high b) (Nibbles.low b) = b := by
  have hlt := b.toNat_lt
  refine UInt8.toNat_inj.mp ?_
  simp only [Nibbles.pack, Nibbles.high, Nibbles.low, UInt8.toNat_ofNat']
  omega

@[simp] theorem nibblesToBytes_fromBytes (bytes : List UInt8) :
    nibblesToBytes (Nibbles.fromBytes bytes) = bytes := by
  induction bytes with
  | nil => rfl
  | cons b bytes ih => rw [Nibbles.fromBytes_cons, nibblesToBytes, pack_high_low, ih]

theorem lt_of_nibbles {b b' : UInt8} (h : Nibbles.high b < Nibbles.high b' ∨
    Nibbles.high b = Nibbles.high b' ∧ Nibbles.low b < Nibbles.low b') : b < b' := by
  simp only [Nibbles.high, Nibbles.low, Fin.lt_def, Fin.ext_iff] at h
  rw [UInt8.lt_iff_toNat_lt]
  omega

theorem before_of_fromBytes {k k' : List UInt8} (h : Before (Nibbles.fromBytes k) (Nibbles.fromBytes k')) :
    Before k k' := by
  induction k generalizing k' with
  | nil => cases k' <;> exact h.elim
  | cons b k ih =>
    cases k' with
    | nil => trivial
    | cons b' k' =>
      rcases h with hhigh | ⟨hhigh,hlow | ⟨hlow,h⟩⟩
      · exact Or.inl (lt_of_nibbles (Or.inl hhigh))
      · exact Or.inl (lt_of_nibbles (Or.inr ⟨hhigh,hlow⟩))
      · refine Or.inr ⟨?_,ih h⟩
        rw [← pack_high_low b, hhigh, hlow, pack_high_low]

end Bytes

section EmptyRoot
open TrieCall
open MutableTrie (Within Persists Genuine)
variable {P : Platform} {E : Set (List UInt8)} {t : MutableTrie DB}

/-- No trie stores a node under `EMPTY_ROOT`. -/
def RootFree (P : Platform) (t : MutableTrie DB) : Prop :=
  (TrieDB.get t.db emptyRoot).toOption.join = none ∧ Genuine P t

theorem RootFree.lookup (hsafe : Safe P E) (h : RootFree P t) (hw : Within E t) : t.lookup emptyRoot = none := by
  have hcache : t.cache.lookup emptyRoot = none := by
    refine List.lookup_eq_none_iff.mpr fun e he => ?_
    obtain ⟨hkey,hne⟩ := h.2 e he
    rw [bne_iff_ne]
    intro heq
    rw [hkey, ← hsafe.empty] at heq
    exact hne (hsafe.inj hsafe.mem_empty (hw e he) heq).symm
  rw [MutableTrie.lookup, hcache]
  exact h.1

theorem rootFree_after (hsafe : Safe P E) (hpersists : Persists P DB) {start : MutableTrie DB}
    (hstart : RootFree P start) {calls : List TrieCall}
    (hw : ∀ past, past <+: calls → Within E (after P start past)) : RootFree P (after P start calls) := by
  induction calls using List.reverseRecOn with
  | nil => exact hstart
  | append_singleton calls call ih =>
    have hfree := ih fun past hpast => hw past (hpast.trans (List.prefix_append _ _))
    have hwithin := hw calls (List.prefix_append _ _)
    rw [after, Machine.final_append]
    change RootFree P (serve P (after P start calls) call).1
    generalize after P start calls = t at hfree hwithin
    cases call with
    | insert key value =>
      refine ⟨?_,hfree.2.insert key value⟩
      have hdb : (serve P t (insert key value)).1.db = t.db := (MutableTrie.extends_insert t key value).db
      rw [hdb]
      exact hfree.1
    | delete key =>
      refine ⟨?_,hfree.2.delete key⟩
      have hdb : (serve P t (delete key)).1.db = t.db := (MutableTrie.extends_delete t key).db
      rw [hdb]
      exact hfree.1
    | commit =>
      obtain ⟨db,hdone,hlookup⟩ := hpersists t
      rw [serve, hdone]
      refine ⟨?_,fun e he => (by cases he)⟩
      exact (hlookup emptyRoot).trans (hfree.lookup hsafe hwithin)

end EmptyRoot

section Enumeration
open TrieCall
open MutableTrie (Persists)
variable {P : Platform} {E : Set (List UInt8)} {t : MutableTrie DB} {u : NibbleTree} {m : Contents}

theorem iterates_root (hsafe : Safe P E) (hcache : t.cache = []) (hr : t.Represents P E u) (hne : u ≠ .empty) :
    Iterates t.db (new t.root) (itemsOf [] u) := by
  have hroot := hr.root
  rw [rootHash_of_ne hne] at hroot
  have hresolve := resolve_hash hsafe hcache hr.filled.clean (hr.top hne)
  rw [← hroot] at hresolve
  exact (walks_tree hsafe hcache hr.filled.clean hr.stored hresolve [] []).iterates

theorem not_enumerates_empty {db : DB} (hnone : (TrieDB.get db emptyRoot).toOption.join = none) (m : Contents) :
    ¬ Enumerates db emptyRoot m := by
  have herror : ∃ e, resolve db (.hash emptyRoot) = .error e := by
    rw [resolve]
    cases hget : TrieDB.get db emptyRoot with
    | error e => exact ⟨_,rfl⟩
    | ok found =>
      rw [hget] at hnone
      have hfound : found = none := hnone
      rw [hfound]
      exact ⟨_,rfl⟩
  obtain ⟨e,he⟩ := herror
  have hround : round db (new emptyRoot) = .yields (.error e) [] := by
    rw [new, round, he]
  have hitems : Iterates db (new emptyRoot) [.error e] :=
    iterates_of_yields hround (Walks.refl : Walks db [] [] []).iterates
  rintro ⟨entries,hiterates,-⟩
  have hsame := hiterates.unique hitems
  cases entries with
  | nil => cases hsame
  | cons entry entries =>
    rw [List.map_cons] at hsame
    cases (List.cons.inj hsame).1

/-- The pairs of a tree are enumerated exactly when no key is a prefix of another. -/
theorem enumerates_tree_iff (hsafe : Safe P E) (hcache : t.cache = []) (hr : t.Represents P E u) (hne : u ≠ .empty)
    (hget : ∀ k, u.get (Nibbles.fromBytes k) = m k) (hwords : ∀ word, u.Has word → ∃ k, word = Nibbles.fromBytes k) :
    Enumerates t.db t.root m ↔ ∀ k k', m k ≠ none → m k' ≠ none → k <+: k' → k = k' := by
  obtain ⟨listed,hlisted⟩ : ∃ listed, u.listing (List.finRange 16) = listed := ⟨_,rfl⟩
  have hmem : ∀ word v, (word,v) ∈ listed ↔ u.get word = some v := by
    intro word v
    rw [← hlisted]
    exact Patricia.mem_listing List.mem_finRange
  have hbytes : ∀ e ∈ listed, Nibbles.fromBytes (nibblesToBytes e.1) = e.1 := by
    intro e he
    have hhas : u.Has e.1 := by
      rw [Patricia.Has, (hmem e.1 e.2).mp he]
      exact Option.some_ne_none e.2
    obtain ⟨k,hk⟩ := hwords e.1 hhas
    rw [hk, nibblesToBytes_fromBytes]
  obtain ⟨entries,hentries⟩ : ∃ entries, listed.map (fun e => (nibblesToBytes e.1,e.2)) = entries := ⟨_,rfl⟩
  have hpairs : ∀ k v, (k,v) ∈ entries ↔ m k = some v := by
    intro k v
    rw [← hentries, List.mem_map, ← hget, ← hmem]
    constructor
    · rintro ⟨e,he,heq⟩
      cases heq
      rw [hbytes e he]
      exact he
    · intro h
      exact ⟨_,h,by rw [nibblesToBytes_fromBytes]⟩
  have hiterates : Iterates t.db (new t.root) (entries.map .ok) := by
    have hitems := iterates_root hsafe hcache hr hne
    rw [itemsOf, hlisted] at hitems
    rw [← hentries, List.map_map]
    exact hitems
  have hbefore : (entries.map Prod.fst).Pairwise Before := by
    have hwalked := Patricia.pairwise_listing (List.pairwise_lt_finRange 16) u
    rw [hlisted] at hwalked
    rw [← hentries, List.map_map, List.pairwise_map]
    refine hwalked.imp_of_mem ?_
    intro e e' he he' h
    rw [← hbytes e he, ← hbytes e' he'] at h
    exact before_of_fromBytes h
  have hkeys : ∀ k, k ∈ entries.map Prod.fst ↔ m k ≠ none := by
    intro k
    rw [List.mem_map, Option.ne_none_iff_exists']
    constructor
    · rintro ⟨e,he,rfl⟩
      exact ⟨e.2,(hpairs e.1 e.2).mp he⟩
    · rintro ⟨v,hv⟩
      exact ⟨(k,v),(hpairs k v).mpr hv,rfl⟩
  have hfree : (entries.map Prod.fst).Pairwise (· < ·) ↔ ∀ k k', m k ≠ none → m k' ≠ none → k <+: k' → k = k' := by
    rw [pairwise_lt_iff hbefore]
    constructor
    · intro h k k' hk hk'
      exact h k ((hkeys k).mpr hk) k' ((hkeys k').mpr hk')
    · intro h k hk k' hk'
      exact h k k' ((hkeys k).mp hk) ((hkeys k').mp hk')
  rw [← hfree]
  constructor
  · rintro ⟨entries',hiterates',-,hsorted⟩
    have hsame := hiterates'.unique hiterates
    rwa [List.map_injective_iff.mpr (fun _ _ heq => Except.ok.inj heq) hsame] at hsorted
  · intro hsorted
    exact ⟨entries,hiterates,hpairs,hsorted⟩

/-- What has to be so of a map: it has a key, and no key is a prefix of another. -/
def Separate (m : Contents) : Prop :=
  (∃ k, m k ≠ none) ∧ ∀ k k', m k ≠ none → m k' ≠ none → k <+: k' → k = k'

theorem enumerates_denotes_iff (hsafe : Safe P E) (hcache : t.cache = []) (hnone : t.lookup emptyRoot = none)
    (hm : t.Denotes P E m) : Enumerates t.db t.root m ↔ Separate m := by
  obtain ⟨u,hr,hget,hwords⟩ := hm
  by_cases hne : u = .empty
  · subst hne
    have hroot : t.root = emptyRoot := hr.root
    rw [MutableTrie.lookup, hcache] at hnone
    rw [hroot]
    refine iff_of_false (not_enumerates_empty hnone m) ?_
    rintro ⟨⟨k,hk⟩,-⟩
    exact hk (hget k).symm
  · rw [enumerates_tree_iff hsafe hcache hr hne hget hwords]
    refine (and_iff_right ?_).symm
    obtain ⟨word,hword⟩ := hr.normal.has hne
    obtain ⟨k,rfl⟩ := hwords word hword
    exact ⟨k,by rwa [← hget]⟩

theorem rootFree_new {db : DB} (hfresh : ∀ bytes, TrieDB.get db emptyRoot ≠ .ok (some bytes)) :
    RootFree P (MutableTrie.new db) := by
  refine ⟨?_,fun e he => (by cases he)⟩
  cases hget : TrieDB.get db emptyRoot with
  | error e => exact congrArg (fun r => r.toOption.join) hget
  | ok found =>
    cases found with
    | none => exact congrArg (fun r => r.toOption.join) hget
    | some bytes => exact absurd hget (hfresh bytes)

theorem committed_spec {db : DB} {calls : List TrieCall} (hpersists : Persists P DB) (hvalues : NonEmptyValues calls)
    (hfresh : ∀ bytes, TrieDB.get db emptyRoot ≠ .ok (some bytes))
    (hkeccak : Safe P {b | b ∈ involved P (MutableTrie.new db) calls}) :
    let t := after P (MutableTrie.new db) (calls ++ [commit])
    t.cache = [] ∧ t.lookup emptyRoot = none ∧
      t.Denotes P {b | b ∈ involved P (MutableTrie.new db) calls} (contents calls) := by
  intro t
  have hm := after_spec hkeccak (MutableTrie.denotes_new db) (fun _ => hpersists) hvalues
    (fun past hpast => within_involved hpast)
  have hfree := rootFree_after hkeccak hpersists (rootFree_new hfresh) (fun past hpast => within_involved hpast)
  obtain ⟨db',hdone,hlookup⟩ := hpersists (after P (MutableTrie.new db) calls)
  have ht : t = MutableTrie.fromRoot (after P (MutableTrie.new db) calls).root db' := by
    change after P (MutableTrie.new db) (calls ++ [commit]) = _
    rw [after, Machine.final_append]
    exact congrArg Prod.fst hdone
  rw [ht]
  refine ⟨rfl,?_,hm.congr rfl hlookup⟩
  rw [hlookup]
  exact hfree.lookup hkeccak (within_involved (List.prefix_refl calls))

/-- A committed trie is enumerated exactly when it holds something and no key is a prefix of another. -/
theorem enumerates_iff (db : DB) (calls : List TrieCall) (hpersists : Persists P DB) (hvalues : NonEmptyValues calls)
    (hfresh : ∀ bytes, TrieDB.get db emptyRoot ≠ .ok (some bytes))
    (hkeccak : Safe P {b | b ∈ involved P (MutableTrie.new db) calls}) :
    let t := after P (MutableTrie.new db) (calls ++ [commit])
    Enumerates t.db t.root (contents calls) ↔ Separate (contents calls) := by
  intro t
  obtain ⟨hcache,hnone,hm⟩ := committed_spec hpersists hvalues hfresh hkeccak
  exact enumerates_denotes_iff hkeccak hcache hnone hm

theorem fresh_memory (bytes : List UInt8) : TrieDB.get (⟨[]⟩ : MemoryTrieDB) emptyRoot ≠ .ok (some bytes) := by
  intro h
  cases h

def committed (calls : List TrieCall) : MutableTrie MemoryTrieDB :=
  after .integersEmptyRoot (MutableTrie.new ⟨[]⟩) (calls ++ [commit])

def twoKeys : List TrieCall := [.insert [0x12] [7],.insert [0x34,0x12] (List.replicate 40 9)]

def nestedKeys : List TrieCall := [.insert [0x12] [7],.insert [0x12,0x34] (List.replicate 40 9)]

theorem enumerates_iff_twoKeys : Enumerates (committed twoKeys).db (committed twoKeys).root (contents twoKeys) := by
  have hvalues : NonEmptyValues twoKeys := nonEmptyValues_cons nofun (nonEmptyValues_cons nofun nofun)
  have hkeccak : Safe .integersEmptyRoot
      {b | b ∈ involved .integersEmptyRoot (MutableTrie.new (⟨[]⟩ : MemoryTrieDB)) twoKeys} :=
    safe_of_list (by decide +kernel) (by decide +kernel) (by decide +kernel) (by decide +kernel)
  have hkeys : ∀ k, contents twoKeys k ≠ none → k = [0x34,0x12] ∨ k = [0x12] := by
    intro k hk
    by_contra hnot
    rw [not_or] at hnot
    apply hk
    simp only [contents, twoKeys, List.foldl_cons, List.foldl_nil, change]
    rw [Function.update_of_ne hnot.1, Function.update_of_ne hnot.2]
  refine (enumerates_iff _ _ (MutableTrie.persists_memory _) hvalues fresh_memory hkeccak).mpr ⟨⟨[0x12],?_⟩,?_⟩
  · decide
  · intro k k' hk hk'
    rcases hkeys k hk with rfl | rfl <;> rcases hkeys k' hk' with rfl | rfl <;> decide

/-- Of two keys the one that is a prefix of the other comes last, and the empty trie is an error. -/
theorem unordered_prefix_and_empty :
    ¬ Enumerates (committed nestedKeys).db (committed nestedKeys).root (contents nestedKeys) ∧
      ¬ Enumerates (committed []).db (committed []).root (contents []) := by
  constructor
  · have hvalues : NonEmptyValues nestedKeys := nonEmptyValues_cons nofun (nonEmptyValues_cons nofun nofun)
    have hkeccak : Safe .integersEmptyRoot
        {b | b ∈ involved .integersEmptyRoot (MutableTrie.new (⟨[]⟩ : MemoryTrieDB)) nestedKeys} :=
      safe_of_list (by decide +kernel) (by decide +kernel) (by decide +kernel) (by decide +kernel)
    obtain ⟨hcache,hnone,hm⟩ :=
      committed_spec (MutableTrie.persists_memory _) hvalues fresh_memory hkeccak
    intro henumerates
    have hseparate := (enumerates_denotes_iff hkeccak hcache hnone hm).mp henumerates
    have hsame := hseparate.2 [0x12] [0x12,0x34] (by decide) (by decide) (by decide)
    cases hsame
  · exact not_enumerates_empty rfl _

end Enumeration

end TrieIterator

end ZbxChain
