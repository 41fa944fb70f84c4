import ZbxChain.Trie.MapLaws

/-! # Commits that fail

`commit` drains the cache, and an insertion that fails ends it: the entries that were not handed
over yet are dropped. What the trie needs of them has to be in the database already.
-/
namespace ZbxChain

namespace MutableTrie

/-- A database in which an insertion stores its bytes or, where it fails, changes nothing. -/
structure Lawful (DB : Type) [TrieDB DB] : Prop where
  ok : ∀ {db db' : DB} {h : H256} {bytes : List UInt8}, TrieDB.insert db h bytes = (db', .ok ()) →
    ∀ k, TrieDB.get db' k = if k = h then .ok (some bytes) else TrieDB.get db k
  error : ∀ {db db' : DB} {h : H256} {bytes : List UInt8} {e : TrieError},
    TrieDB.insert db h bytes = (db', .error e) → ∀ k, TrieDB.get db' k = TrieDB.get db k

variable {DB : Type} [TrieDB DB]

/-- The entries that are inserted before the first insertion that fails. -/
def accepted (db : DB) : NodeMap → NodeMap
  | [] => []
  | (hash,bytes) :: rest =>
    match TrieDB.insert db hash bytes with
    | (_, .error _) => []
    | (db', .ok ()) => (hash,bytes) :: accepted db' rest

inductive Reaches (t : MutableTrie DB) : NodeRef → Prop where
  | root : Reaches t (.hash t.root)
  | ext {r : NodeRef} {path : Nibbles} {child : NodeRef} (h : Reaches t r)
    (hnode : t.resolve r = .ok (.extension path child)) : Reaches t child
  | branch {r : NodeRef} {children : Fin 16 → NodeRef} {value : Option (List UInt8)} (h : Reaches t r)
    (hnode : t.resolve r = .ok (.branch children value)) (i : Fin 16) : Reaches t (children i)

/-- Every node that is reached from the root is in the database. -/
def AllStored (t : MutableTrie DB) : Prop :=
  ∀ h, Reaches t (.hash h) → h ≠ emptyRoot → ∃ bytes, TrieDB.get t.db h = .ok (some bytes)

/-- Every node that is reached is in the database, or is drained before the insertion that fails. -/
def Spared (P : Platform) (t : MutableTrie DB) : Prop :=
  ∀ h, Reaches t (.hash h) → h ≠ emptyRoot → ∃ bytes, t.lookup h = some bytes ∧
    ((h,bytes) ∈ accepted t.db (P.iterOrder t.cache.current) ∨ TrieDB.get t.db h = .ok (some bytes))

/-- A commit, even one that fails, keeps every answer, and one more commit stores every node. -/
def Kept (P : Platform) (t : MutableTrie DB) : Prop :=
  (∀ key found, t.get key = .ok found → (t.commit P).1.get key = .ok found) ∧
    ∀ root, ((t.commit P).1.commit P).2 = .ok root → ∀ h, Reaches t (.hash h) → h ≠ emptyRoot →
      ∃ bytes, t.lookup h = some bytes ∧ TrieDB.get ((t.commit P).1.commit P).1.db h = .ok (some bytes)

section Flush
variable {db : DB} {entries : NodeMap}

theorem accepted_subset (db : DB) (entries : NodeMap) : accepted db entries <+: entries := by
  induction entries generalizing db with
  | nil => exact List.prefix_refl _
  | cons e entries ih =>
    obtain ⟨hash,bytes⟩ := e
    rw [accepted]
    split
    · exact List.nil_prefix
    · rename_i db' hinsert
      exact (List.prefix_cons_inj _).mpr (ih db')

theorem accepted_of_ok {db' : DB} (h : flush db entries = (db', .ok ())) : accepted db entries = entries := by
  induction entries generalizing db with
  | nil => rfl
  | cons e entries ih =>
    obtain ⟨hash,bytes⟩ := e
    rw [flush] at h
    rw [accepted]
    rcases hinsert : TrieDB.insert db hash bytes with ⟨db₁,_ | ⟨⟩⟩
    · rw [hinsert] at h
      cases h
    · rw [hinsert] at h
      exact congrArg ((hash,bytes) :: ·) (ih h)

theorem get_flush (hlaw : Lawful DB) (hnodup : (entries.map Prod.fst).Nodup) (db : DB) (k : H256) :
    TrieDB.get (flush db entries).1 k =
      match (accepted db entries).lookup k with
      | some bytes => .ok (some bytes)
      | none => TrieDB.get db k := by
  induction entries generalizing db with
  | nil => rfl
  | cons e entries ih =>
    obtain ⟨hash,bytes⟩ := e
    obtain ⟨hfree,hrest⟩ := List.nodup_cons.mp hnodup
    rw [flush, accepted]
    rcases hinsert : TrieDB.insert db hash bytes with ⟨db',_ | ⟨⟩⟩
    · exact hlaw.error hinsert k
    · dsimp only
      rw [ih hrest db', List.lookup_cons, hlaw.ok hinsert k]
      by_cases hk : k = hash
      · subst hk
        have hnone : (accepted db' entries).lookup k = none := by
          refine List.lookup_eq_none_iff.mpr fun e he => ?_
          rw [bne_iff_ne]
          intro heq
          exact hfree (List.mem_map.mpr ⟨e,(accepted_subset db' entries).subset he,heq.symm⟩)
        rw [hnone, beq_self_eq_true, if_pos rfl]
      · rw [beq_eq_false_iff_ne.mpr hk, if_neg hk]

end Flush

section Commit
variable {P : Platform} {t : MutableTrie DB}

omit [TrieDB DB] in
theorem nodup_drained (P : Platform) (t : MutableTrie DB) : ((P.iterOrder t.cache.current).map Prod.fst).Nodup :=
  (((P.iterOrder_perm _).map Prod.fst).nodup_iff).mpr t.cache.nodup_current

theorem commit_fst (P : Platform) (t : MutableTrie DB) :
    (t.commit P).1 = fromRoot t.root (flush t.db (P.iterOrder t.cache.current)).1 := by
  rw [commit]
  rcases flush t.db (P.iterOrder t.cache.current) with ⟨db',_ | ⟨⟩⟩
  · rfl
  · rfl

theorem lookup_of_accepted {h : H256} {bytes : List UInt8}
    (hmem : (h,bytes) ∈ accepted t.db (P.iterOrder t.cache.current)) : t.cache.lookup h = some bytes := by
  rw [← NodeMap.lookup_current, NodeMap.lookup_eq_some_iff t.cache.nodup_current]
  exact (P.iterOrder_perm _).mem_iff.mp ((accepted_subset _ _).subset hmem)

theorem lookup_commit (hlaw : Lawful DB) (P : Platform) (t : MutableTrie DB) (h : H256) :
    (t.commit P).1.lookup h =
      match (accepted t.db (P.iterOrder t.cache.current)).lookup h with
      | some bytes => some bytes
      | none => (TrieDB.get t.db h).toOption.join := by
  rw [commit_fst, lookup, fromRoot, List.lookup_nil]
  dsimp only
  rw [get_flush hlaw (nodup_drained P t)]
  cases (accepted t.db (P.iterOrder t.cache.current)).lookup h with
  | none => rfl
  | some bytes => rfl

theorem lookup_accepted_iff {h : H256} {bytes : List UInt8} :
    (accepted t.db (P.iterOrder t.cache.current)).lookup h = some bytes ↔
      (h,bytes) ∈ accepted t.db (P.iterOrder t.cache.current) :=
  NodeMap.lookup_eq_some_iff ((nodup_drained P t).sublist ((accepted_subset _ _).sublist.map Prod.fst)) h bytes

theorem lookup_commit_of_ok (hlaw : Lawful DB) {root : H256} (hok : (t.commit P).2 = .ok root) (h : H256) :
    (t.commit P).1.lookup h = t.lookup h := by
  have hall : accepted t.db (P.iterOrder t.cache.current) = P.iterOrder t.cache.current := by
    rw [commit] at hok
    rcases hflush : flush t.db (P.iterOrder t.cache.current) with ⟨db',_ | ⟨⟩⟩
    · rw [hflush] at hok
      cases hok
    · exact accepted_of_ok hflush
  have hdrained : (P.iterOrder t.cache.current).lookup h = t.cache.lookup h := by
    rw [← NodeMap.lookup_perm (P.iterOrder_perm _).symm t.cache.nodup_current, NodeMap.lookup_current]
  rw [lookup_commit hlaw, hall, lookup]
  cases hcached : t.cache.lookup h with
  | none => simp only [hdrained, hcached]
  | some bytes => simp only [hdrained, hcached]

/-- What a commit leaves readable: the entries it handed over, and what was there. -/
theorem get_commit_iff (hlaw : Lawful DB) {h : H256} {bytes : List UInt8} (hlookup : t.lookup h = some bytes) :
    TrieDB.get (t.commit P).1.db h = .ok (some bytes) ↔
      (h,bytes) ∈ accepted t.db (P.iterOrder t.cache.current) ∨ TrieDB.get t.db h = .ok (some bytes) := by
  rw [commit_fst, fromRoot]
  dsimp only
  rw [get_flush hlaw (nodup_drained P t)]
  cases haccepted : (accepted t.db (P.iterOrder t.cache.current)).lookup h with
  | none =>
    have hfree : (h,bytes) ∉ accepted t.db (P.iterOrder t.cache.current) := by
      rw [← lookup_accepted_iff, haccepted]
      intro hsome
      cases hsome
    exact (or_iff_right hfree).symm
  | some b =>
    have hmem := lookup_accepted_iff.mp haccepted
    have hcache := lookup_of_accepted hmem
    rw [lookup, hcache] at hlookup
    obtain rfl := Option.some.inj hlookup
    exact iff_of_true rfl (Or.inl hmem)

theorem Spared.lookup (hlaw : Lawful DB) (hspared : Spared P t) {h : H256} (hreach : Reaches t (.hash h))
    (hne : h ≠ emptyRoot) : (t.commit P).1.lookup h = t.lookup h := by
  obtain ⟨bytes,hlookup,hthere⟩ := hspared h hreach hne
  have hget := (get_commit_iff hlaw hlookup).mpr hthere
  have hcache : (t.commit P).1.cache = [] := by rw [commit_fst]; rfl
  rw [hlookup, MutableTrie.lookup, hcache, List.lookup_nil]
  dsimp only
  rw [hget]
  rfl

theorem Spared.resolve (hlaw : Lawful DB) (hspared : Spared P t) {r : NodeRef} (hreach : Reaches t r) :
    (t.commit P).1.resolve r = t.resolve r := by
  cases r with
  | empty => rfl
  | inline node => rfl
  | hash h =>
    by_cases hne : h = emptyRoot
    · rw [MutableTrie.resolve, MutableTrie.resolve, if_pos hne, if_pos hne]
    · rw [MutableTrie.resolve, MutableTrie.resolve, if_neg hne, if_neg hne, hspared.lookup hlaw hreach hne]

theorem Spared.getNode (hlaw : Lawful DB) (hspared : Spared P t) {r : NodeRef} (hreach : Reaches t r) (fuel : ℕ)
    (key : Nibbles) (depth : ℕ) : (t.commit P).1.getNode fuel r key depth = t.getNode fuel r key depth := by
  induction fuel generalizing r depth with
  | zero => rfl
  | succ fuel ih =>
    rw [MutableTrie.getNode, MutableTrie.getNode, hspared.resolve hlaw hreach]
    cases hnode : t.resolve r with
    | error e => rfl
    | ok node =>
      cases node with
      | empty => rfl
      | leaf path value => rfl
      | extension path child =>
        simp only [bind, Except.bind]
        split
        · rfl
        · exact ih (hreach.ext hnode) _
      | branch children value =>
        simp only [bind, Except.bind]
        split
        · rfl
        · exact ih (hreach.branch hnode _) _

theorem Spared.get (hlaw : Lawful DB) (hspared : Spared P t) (key : List UInt8) :
    (t.commit P).1.get key = t.get key := by
  have hroot : (t.commit P).1.root = t.root := by rw [commit_fst]; rfl
  rw [MutableTrie.get, MutableTrie.get, hroot]
  split
  · rfl
  · exact hspared.getNode hlaw .root _ _ _

theorem commit_commit (P : Platform) (t : MutableTrie DB) :
    (t.commit P).1.commit P = ((t.commit P).1,.ok t.root) := by
  have hnone : P.iterOrder ([] : NodeMap) = [] := List.Perm.eq_nil (P.iterOrder_perm [])
  rw [commit_fst]
  generalize (flush t.db (P.iterOrder t.cache.current)).1 = db
  have hcurrent : NodeMap.current (fromRoot t.root db).cache = [] := rfl
  rw [commit, hcurrent, hnone]
  rfl

theorem kept_iff (hlaw : Lawful DB) (t : MutableTrie DB) : Kept P t ↔ Spared P t := by
  constructor
  · rintro ⟨-,hstored⟩ h hreach hne
    rw [commit_commit] at hstored
    obtain ⟨bytes,hlookup,hget⟩ := hstored t.root rfl h hreach hne
    exact ⟨bytes,hlookup,(get_commit_iff hlaw hlookup).mp hget⟩
  · intro hspared
    refine ⟨?_,?_⟩
    · intro key found hfound
      rw [hspared.get hlaw, hfound]
    · intro root _ h hreach hne
      obtain ⟨bytes,hlookup,hthere⟩ := hspared h hreach hne
      rw [commit_commit]
      exact ⟨bytes,hlookup,(get_commit_iff hlaw hlookup).mpr hthere⟩

end Commit

section Trees
variable {P : Platform} {E : Set (List UInt8)} {t s : MutableTrie DB} {u v : NibbleTree}

/-- What is cached and what is in the database are encodings under their hashes. -/
structure Addressed (P : Platform) (E : Set (List UInt8)) (t : MutableTrie DB) : Prop where
  genuine : Genuine P t
  within : Within E t
  stored : ∀ h bytes, TrieDB.get t.db h = .ok (some bytes) → bytes ∈ E ∧ P.keccak256 bytes = h

theorem Addressed.lookup (h : Addressed P E t) {k : H256} {bytes : List UInt8} (hlookup : t.lookup k = some bytes) :
    bytes ∈ E ∧ P.keccak256 bytes = k := by
  unfold MutableTrie.lookup at hlookup
  split at hlookup
  · rename_i b hcache
    obtain rfl := Option.some.inj hlookup
    obtain ⟨before,rest,hsplit,-⟩ := List.lookup_eq_some_iff.mp hcache
    have hmem : (k,b) ∈ t.cache := by
      rw [hsplit]
      exact List.mem_append_right _ List.mem_cons_self
    exact ⟨h.within _ hmem,(h.genuine _ hmem).1.symm⟩
  · cases hget : TrieDB.get t.db k with
    | error e =>
      rw [hget] at hlookup
      cases hlookup
    | ok found =>
      rw [hget] at hlookup
      exact h.stored k bytes (hget.trans (congrArg Except.ok hlookup))

theorem reaches_spec (hsafe : Safe P E) (hr : Represents P E t u) (hs : Stored P E s u) {r : NodeRef}
    (h : Reaches t r) :
    ∃ v, t.resolve r = .ok (toNode P v) ∧ Clean v ∧ Stored P E t v ∧ Stored P E s v ∧
      (r = .hash t.root ∧ v = u ∨ r = treeRef P v ∧ Linked P E t v ∧ Linked P E s v) := by
  induction h with
  | root => exact ⟨u,(hr.resolve_root hsafe).2,hr.filled.clean,hr.stored,hs,Or.inl ⟨rfl,rfl⟩⟩
  | ext _ hnode ih =>
    obtain ⟨v,hresolve,hclean,hstored,hstored',-⟩ := ih
    rw [hnode] at hresolve
    cases v with
    | ext path' child' =>
      cases hresolve
      exact ⟨child',resolve_treeRef hsafe hclean hstored.1,hclean,hstored.2,hstored'.2,
        Or.inr ⟨rfl,hstored.1,hstored'.1⟩⟩
    | empty => cases hresolve
    | leaf path' value => cases hresolve
    | branch children' value => cases hresolve
  | branch _ hnode i ih =>
    obtain ⟨v,hresolve,hclean,hstored,hstored',-⟩ := ih
    rw [hnode] at hresolve
    cases v with
    | branch children' value' =>
      cases hresolve
      exact ⟨children' i,resolve_treeRef hsafe (hclean.1 i) (hstored i).1,hclean.1 i,(hstored i).2,(hstored' i).2,
        Or.inr ⟨rfl,(hstored i).1,(hstored' i).1⟩⟩
    | empty => cases hresolve
    | leaf path' value => cases hresolve
    | ext path' child' => cases hresolve

theorem held_of_reaches (hsafe : Safe P E) (hr : Represents P E t u) (hs : Represents P E s u) {h : H256} (hreach : Reaches t (.hash h)) (hne : h ≠ emptyRoot) :
    ∃ encoded, P.keccak256 encoded = h ∧ Holds P E t encoded ∧ Holds P E s encoded := by
  obtain ⟨v,-,-,-,-,⟨hr',rfl⟩ | ⟨hr',hlinked,hlinked'⟩⟩ := reaches_spec hsafe hr hs.stored hreach
  · cases hr'
    have hv : v ≠ .empty := fun hempty => hne ((hr.resolve_root hsafe).1.mpr hempty)
    refine ⟨encoding P v,?_,hr.top hv,hs.top hv⟩
    rw [hr.root, rootHash_of_ne hv]
  · by_cases hv : v = .empty
    · subst hv
      cases hr'
    · rw [treeRef_of_ne hv] at hr'
      split at hr'
      · cases hr'
      · rename_i hlong
        cases hr'
        exact ⟨encoding P v,rfl,hlinked (Nat.le_of_not_lt hlong),hlinked' (Nat.le_of_not_lt hlong)⟩

theorem stored_of_found (hsafe : Safe P E) (hclean : Clean v) (hstored : Stored P E t v) {r : NodeRef}
    (hreach : Reaches t r) (hresolve : t.resolve r = .ok (toNode P v))
    (hfound : ∀ h bytes, Reaches t (.hash h) → h ≠ emptyRoot → t.lookup h = some bytes → s.lookup h = some bytes) :
    Stored P E s v := by
  have hlink : ∀ child : NibbleTree, Clean child → Reaches t (treeRef P child) → Linked P E t child →
      Linked P E s child := by
    intro child hchild hreach hlinked hlong
    have hne : child ≠ .empty := by
      rintro rfl
      rw [encoding_empty] at hlong
      exact absurd hlong (by decide)
    have hheld := hlinked hlong
    rw [treeRef_of_ne hne, if_neg (Nat.not_lt.mpr hlong)] at hreach
    exact ⟨hheld.1,hfound _ _ hreach (resolve_hash hsafe hchild hne hheld).1 hheld.2⟩
  induction v generalizing r with
  | empty => trivial
  | leaf path value => trivial
  | ext path child ih =>
    have hchild : Reaches t (treeRef P child) := .ext hreach hresolve
    exact ⟨hlink child hclean hchild hstored.1,
      ih hclean hstored.2 hchild (resolve_treeRef hsafe hclean hstored.1)⟩
  | branch children value ih =>
    intro i
    have hchild : Reaches t (treeRef P (children i)) := .branch hreach hresolve i
    exact ⟨hlink (children i) (hclean.1 i) hchild (hstored i).1,
      ih i (hclean.1 i) (hstored i).2 hchild (resolve_treeRef hsafe (hclean.1 i) (hstored i).1)⟩

theorem represents_of_found (hsafe : Safe P E) (hr : Represents P E t u) (hroot : s.root = t.root)
    (hfound : ∀ h bytes, Reaches t (.hash h) → h ≠ emptyRoot → t.lookup h = some bytes → s.lookup h = some bytes) :
    Represents P E s u where
  normal := hr.normal
  filled := hr.filled
  root := hroot.trans hr.root
  top := by
    intro hne
    have hheld := hr.top hne
    refine ⟨hheld.1,hfound _ _ ?_ (resolve_hash hsafe hr.filled.clean hne hheld).1 hheld.2⟩
    have hreach : Reaches t (.hash t.root) := .root
    rwa [hr.root, rootHash_of_ne hne] at hreach
  stored := stored_of_found hsafe hr.filled.clean hr.stored .root (hr.resolve_root hsafe).2 hfound

theorem exists_key (p : Nibbles) : ∃ k, p <+: Nibbles.fromBytes k := by
  by_cases heven : p.length % 2 = 0
  · exact ⟨Nibbles.packPairs p,by rw [Nibbles.fromBytes_packPairs p heven]⟩
  · have hodd : (p ++ [0]).length % 2 = 0 := by
      rw [List.length_append, List.length_singleton]
      omega
    exact ⟨Nibbles.packPairs (p ++ [0]),by rw [Nibbles.fromBytes_packPairs _ hodd]; exact List.prefix_append _ _⟩

/-- Every lookup along a path succeeds from a reference on. -/
def Answers (t : MutableTrie DB) (r : NodeRef) (p : Nibbles) : Prop :=
  ∀ k, p <+: Nibbles.fromBytes k → ∃ fuel found, t.getNode fuel r (Nibbles.fromBytes k) p.length = .ok found

theorem Answers.resolves {r : NodeRef} {p : Nibbles} (h : Answers t r p) : ∃ node, t.resolve r = .ok node := by
  obtain ⟨k,hk⟩ := exists_key p
  obtain ⟨_ | fuel,found,hfound⟩ := h k hk
  · cases hfound
  · rw [getNode] at hfound
    cases hresolve : t.resolve r with
    | error e =>
      rw [hresolve] at hfound
      cases hfound
    | ok node => exact ⟨node,rfl⟩

theorem Answers.ext {r child : NodeRef} {p path : Nibbles} (h : Answers t r p)
    (hresolve : t.resolve r = .ok (.extension path child)) : Answers t child (p ++ path) := by
  intro k hk
  obtain ⟨rest,hrest⟩ := hk
  obtain ⟨_ | fuel,found,hfound⟩ := h k ⟨path ++ rest,by rw [← hrest, List.append_assoc]⟩
  · cases hfound
  · have hdrop : (Nibbles.fromBytes k).slice p.length = path ++ rest := by
      rw [Nibbles.slice, ← hrest, List.append_assoc, List.drop_left]
    have hall : Nibbles.commonPrefixLen (path ++ rest) path = path.length := by
      by_contra hoff
      have hnone := Nibbles.dropPrefix?_eq (path ++ rest) path
      rw [if_neg hoff, Patricia.dropPrefix?_append] at hnone
      cases hnone
    rw [getNode, hresolve] at hfound
    simp only [bind, Except.bind, hdrop, hall, lt_irrefl, if_false] at hfound
    rw [List.length_append]
    exact ⟨fuel,found,hfound⟩

theorem Answers.branch {r : NodeRef} {refs : Fin 16 → NodeRef} {value : Option (List UInt8)} {p : Nibbles}
    (h : Answers t r p) (hresolve : t.resolve r = .ok (.branch refs value)) (i : Fin 16) :
    Answers t (refs i) (p ++ [i]) := by
  intro k hk
  obtain ⟨rest,hrest⟩ := hk
  obtain ⟨_ | fuel,found,hfound⟩ := h k ⟨[i] ++ rest,by rw [← hrest, List.append_assoc]⟩
  · cases hfound
  · have hlt : p.length < (Nibbles.fromBytes k).length := by
      rw [← hrest]
      simp
    have hnibble : (Nibbles.fromBytes k).nibbleAt p.length = i := by
      rw [← hrest, Nibbles.nibbleAt]
      simp
    rw [getNode, hresolve] at hfound
    simp only [bind, Except.bind, if_neg (Nat.ne_of_lt hlt), hnibble] at hfound
    rw [List.length_append, List.length_singleton]
    exact ⟨fuel,found,hfound⟩

theorem holds_of_resolves (hsafe : Safe P E) (haddressed : Addressed P E s) (hclean : Clean v) (hne : v ≠ .empty)
    (hheld : Holds P E t (encoding P v)) {node : TrieNode}
    (hresolve : s.resolve (.hash (P.keccak256 (encoding P v))) = .ok node) : Holds P E s (encoding P v) := by
  rw [resolve, if_neg (resolve_hash hsafe hclean hne hheld).1] at hresolve
  cases hlookup : s.lookup (P.keccak256 (encoding P v)) with
  | none =>
    rw [hlookup] at hresolve
    cases hresolve
  | some bytes =>
    obtain ⟨hmem,hhash⟩ := haddressed.lookup hlookup
    obtain rfl := hsafe.inj hmem hheld.1 hhash
    exact ⟨hmem,hlookup⟩

theorem stored_of_answers (hsafe : Safe P E) (haddressed : Addressed P E s) (hclean : Clean v)
    (hstored : Stored P E t v) {r : NodeRef} {p : Nibbles} (hanswers : Answers s r p)
    (hresolve : s.resolve r = .ok (toNode P v)) : Stored P E s v := by
  have hlink : ∀ child : NibbleTree, Clean child → Linked P E t child → ∀ p, Answers s (treeRef P child) p →
      Linked P E s child := by
    intro child hchild hlinked p hanswers hlong
    have hne : child ≠ .empty := by
      rintro rfl
      rw [encoding_empty] at hlong
      exact absurd hlong (by decide)
    obtain ⟨node,hnode⟩ := hanswers.resolves
    rw [treeRef_of_ne hne, if_neg (Nat.not_lt.mpr hlong)] at hnode
    exact holds_of_resolves hsafe haddressed hchild hne (hlinked hlong) hnode
  induction v generalizing r p with
  | empty => trivial
  | leaf path value => trivial
  | ext path child ih =>
    have hchild := hanswers.ext hresolve
    have hlinked := hlink child hclean hstored.1 _ hchild
    exact ⟨hlinked,ih hclean hstored.2 hchild (resolve_treeRef hsafe hclean hlinked)⟩
  | branch children value ih =>
    intro i
    have hchild := hanswers.branch hresolve i
    have hlinked := hlink (children i) (hclean.1 i) (hstored i).1 _ hchild
    exact ⟨hlinked,ih i (hclean.1 i) (hstored i).2 hchild (resolve_treeRef hsafe (hclean.1 i) hlinked)⟩

theorem represents_of_gets (hsafe : Safe P E) (hr : Represents P E t u) (hroot : s.root = t.root)
    (haddressed : Addressed P E s) (hgets : ∀ key, ∃ found, s.get key = .ok found) : Represents P E s u := by
  by_cases hne : u = .empty
  · subst hne
    exact ⟨trivial,hr.filled,hroot.trans hr.root,fun h => absurd rfl h,trivial⟩
  · have hnonempty : s.root ≠ emptyRoot := by
      rw [hroot]
      exact fun h => hne ((hr.resolve_root hsafe).1.mp h)
    have hanswers : Answers s (.hash s.root) [] := by
      intro k _
      obtain ⟨found,hfound⟩ := hgets k
      rw [get, if_neg hnonempty] at hfound
      exact ⟨_,found,hfound⟩
    obtain ⟨node,hnode⟩ := hanswers.resolves
    have htop : s.root = P.keccak256 (encoding P u) := by rw [hroot, hr.root, rootHash_of_ne hne]
    rw [htop] at hnode
    have hheld := holds_of_resolves hsafe haddressed hr.filled.clean hne (hr.top hne) hnode
    have hresolve := (resolve_hash hsafe hr.filled.clean hne hheld).2
    rw [← htop] at hresolve
    exact ⟨hr.normal,hr.filled,hroot.trans hr.root,fun _ => hheld,
      stored_of_answers hsafe haddressed hr.filled.clean hr.stored hanswers hresolve⟩

theorem allStored_of_cache (hsafe : Safe P E) (hr : Represents P E t u) (hcache : t.cache = []) : AllStored t := by
  intro h hreach hne
  obtain ⟨encoded,rfl,hheld,-⟩ := held_of_reaches hsafe hr hr hreach hne
  have hlookup := hheld.2
  rw [lookup, hcache, List.lookup_nil] at hlookup
  dsimp only at hlookup
  cases hget : TrieDB.get t.db (P.keccak256 encoded) with
  | error e =>
    rw [hget] at hlookup
    cases hlookup
  | ok found =>
    rw [hget] at hlookup
    exact ⟨encoded,congrArg Except.ok hlookup⟩

end Trees

section Healthy
variable {P : Platform} {E : Set (List UInt8)} {t : MutableTrie DB}

/-- A trie that stands for a tree, in a cache and a database of encodings under their hashes. -/
def Healthy (P : Platform) (E : Set (List UInt8)) (t : MutableTrie DB) : Prop :=
  (∃ u, Represents P E t u) ∧ Addressed P E t

theorem Addressed.commit (hlaw : Lawful DB) (h : Addressed P E t) : Addressed P E (t.commit P).1 := by
  have hcache : (t.commit P).1.cache = [] := by rw [commit_fst]; rfl
  refine ⟨?_,?_,?_⟩
  · intro e he
    rw [hcache] at he
    cases he
  · intro e he
    rw [hcache] at he
    cases he
  · intro k bytes hget
    rw [commit_fst, fromRoot] at hget
    dsimp only at hget
    rw [get_flush hlaw (nodup_drained P t)] at hget
    split at hget
    · rename_i b haccepted
      cases hget
      have hlookup := lookup_of_accepted (lookup_accepted_iff.mp haccepted)
      refine h.lookup (k := k) ?_
      rw [MutableTrie.lookup, hlookup]
    · exact h.stored k bytes hget

theorem Represents.commit (hlaw : Lawful DB) (hsafe : Safe P E) {u : NibbleTree} (hr : Represents P E t u)
    (hspared : Spared P t) : Represents P E (t.commit P).1 u := by
  refine represents_of_found hsafe hr (by rw [commit_fst]; rfl) ?_
  intro h bytes hreach hne hlookup
  rw [hspared.lookup hlaw hreach hne, hlookup]

theorem spared_of_ok (hlaw : Lawful DB) (hsafe : Safe P E) {u : NibbleTree} (hr : Represents P E t u) {root : H256}
    (hok : (t.commit P).2 = .ok root) : Spared P t := by
  intro h hreach hne
  obtain ⟨encoded,rfl,hheld,-⟩ := held_of_reaches hsafe hr hr hreach hne
  refine ⟨encoded,hheld.2,(get_commit_iff hlaw hheld.2).mp ?_⟩
  have hlookup := lookup_commit_of_ok hlaw hok (P.keccak256 encoded)
  have hcache : (t.commit P).1.cache = [] := by rw [commit_fst]; rfl
  rw [hheld.2, lookup, hcache, List.lookup_nil] at hlookup
  dsimp only at hlookup
  cases hget : TrieDB.get (t.commit P).1.db (P.keccak256 encoded) with
  | error e =>
    rw [hget] at hlookup
    cases hlookup
  | ok found =>
    rw [hget] at hlookup
    exact congrArg Except.ok hlookup

theorem spared_of_gets (hlaw : Lawful DB) (hsafe : Safe P E) (h : Healthy P E t)
    (hgets : ∀ key found, t.get key = .ok found → (t.commit P).1.get key = .ok found) : Spared P t := by
  obtain ⟨⟨u,hr⟩,haddressed⟩ := h
  have hafter : Represents P E (t.commit P).1 u := by
    refine represents_of_gets hsafe hr (by rw [commit_fst]; rfl) (haddressed.commit hlaw) ?_
    exact fun key => ⟨_,hgets key _ (hr.get hsafe key)⟩
  intro h hreach hne
  obtain ⟨encoded,rfl,hheld,hheld'⟩ := held_of_reaches hsafe hr hafter hreach hne
  refine ⟨encoded,hheld.2,(get_commit_iff hlaw hheld.2).mp ?_⟩
  have hlookup := hheld'.2
  have hcache : (t.commit P).1.cache = [] := by rw [commit_fst]; rfl
  rw [lookup, hcache, List.lookup_nil] at hlookup
  dsimp only at hlookup
  cases hget : TrieDB.get (t.commit P).1.db (P.keccak256 encoded) with
  | error e =>
    rw [hget] at hlookup
    cases hlookup
  | ok found =>
    rw [hget] at hlookup
    exact congrArg Except.ok hlookup

end Healthy

end MutableTrie

namespace TrieCall
open MutableTrie (Lawful Spared Kept AllStored Healthy Addressed Genuine Extends Within)

variable {DB : Type} [TrieDB DB] {P : Platform} {E : Set (List UInt8)} {t start : MutableTrie DB} {calls : List TrieCall}

theorem serve_healthy (hlaw : Lawful DB) (hsafe : Safe P E) (h : Healthy P E t) {call : TrieCall}
    (hvalue : ∀ key value, call = insert key value → value ≠ []) (hw : Within E (serve P t call).1)
    (hspared : call = commit → ∀ e, (t.commit P).2 = .error e → Spared P t) : Healthy P E (serve P t call).1 := by
  obtain ⟨⟨u,hr⟩,haddressed⟩ := h
  have hedit : ∀ t', Extends t t' → Genuine P t' → Within E t' → Addressed P E t' := by
    intro t' hextends hgenuine hwithin
    refine ⟨hgenuine,hwithin,?_⟩
    rw [hextends.db]
    exact haddressed.stored
  cases call with
  | insert key value =>
    obtain ⟨-,hr'⟩ := hr.insert hsafe (hvalue key value rfl) hw
    exact ⟨⟨_,hr'⟩,hedit _ (MutableTrie.extends_insert t key value) (haddressed.genuine.insert key value) hw⟩
  | delete key =>
    obtain ⟨-,hr'⟩ := hr.delete hsafe hw
    exact ⟨⟨_,hr'⟩,hedit _ (MutableTrie.extends_delete t key) (haddressed.genuine.delete key) hw⟩
  | commit =>
    have hthis : Spared P t := by
      cases hresult : (t.commit P).2 with
      | error e => exact hspared rfl e hresult
      | ok root => exact MutableTrie.spared_of_ok hlaw hsafe hr hresult
    exact ⟨⟨u,hr.commit hlaw hsafe hthis⟩,haddressed.commit hlaw⟩

def AllSpared (P : Platform) (start : MutableTrie DB) (calls : List TrieCall) : Prop :=
  ∀ past rest e, calls = past ++ commit :: rest → ((after P start past).commit P).2 = .error e →
    Spared P (after P start past)

/-- After a failed commit every answer is as before, and a later commit that succeeds stores every node. -/
def Lossless (P : Platform) (start : MutableTrie DB) (calls : List TrieCall) : Prop :=
  ∀ past rest e, calls = past ++ commit :: rest → ((after P start past).commit P).2 = .error e →
    (∀ key found, (after P start past).get key = .ok found →
      (after P start (past ++ [commit])).get key = .ok found) ∧
    ∀ mid rest' root, rest = mid ++ commit :: rest' →
      ((after P start (past ++ commit :: mid)).commit P).2 = .ok root →
        AllStored (after P start (past ++ commit :: mid ++ [commit]))

theorem after_commit (P : Platform) (start : MutableTrie DB) (past : List TrieCall) :
    after P start (past ++ [commit]) = ((after P start past).commit P).1 := by
  rw [after, Machine.final_append]
  rfl

theorem healthy_after (hlaw : Lawful DB) (hsafe : Safe P E) (hstart : Healthy P E start)
    (hvalues : NonEmptyValues calls) (hw : ∀ past, past <+: calls → Within E (after P start past))
    (hspared : AllSpared P start calls) : Healthy P E (after P start calls) := by
  induction calls using List.reverseRecOn with
  | nil => exact hstart
  | append_singleton calls call ih =>
    have hlast : call ∈ calls ++ [call] := List.mem_append_right _ (List.mem_singleton_self _)
    have hhealthy := ih (fun key value h => hvalues key value (List.mem_append_left _ h))
      (fun past h => hw past (h.trans (List.prefix_append _ _)))
      (fun past rest e hsplit => hspared past (rest ++ [call]) e (by rw [hsplit]; simp))
    have hwithin := hw _ (List.prefix_refl (calls ++ [call]))
    rw [after, Machine.final_append] at hwithin ⊢
    refine serve_healthy hlaw hsafe hhealthy (fun key value h => hvalues key value (h ▸ hlast)) hwithin ?_
    rintro rfl e he
    exact hspared calls [] e rfl he

/-- A run loses nothing exactly when its failed commits spare what the trie needs. -/
theorem lossless_of_healthy_iff (hlaw : Lawful DB) (hsafe : Safe P E) (hstart : Healthy P E start)
    (hvalues : NonEmptyValues calls) (hw : ∀ past, past <+: calls → Within E (after P start past)) :
    Lossless P start calls ↔ AllSpared P start calls := by
  have hpart : ∀ past rest, calls = past ++ rest → AllSpared P start past → Healthy P E (after P start past) := by
    intro past rest hsplit hspared
    have hpast : past <+: calls := ⟨rest,hsplit.symm⟩
    exact healthy_after hlaw hsafe hstart (fun key value h => hvalues key value (hpast.subset h))
      (fun past' h => hw past' (h.trans hpast)) hspared
  constructor
  · intro hlossless past
    -- the commits before have spared what was needed, so the trie is still healthy
    induction hlen : past.length using Nat.strongRecOn generalizing past with
    | ind n ih =>
      intro rest e hsplit he
      have hbefore : AllSpared P start past := by
        intro past' rest' e' hsplit' he'
        refine ih past'.length ?_ past' rfl (rest' ++ commit :: rest) e' ?_ he'
        · rw [← hlen, hsplit', List.length_append, List.length_cons]
          omega
        · rw [hsplit, hsplit', List.append_assoc]
          rfl
      refine MutableTrie.spared_of_gets hlaw hsafe (hpart past _ hsplit hbefore) ?_
      rw [← after_commit]
      exact (hlossless past rest e hsplit he).1
  · intro hspared past rest e hsplit he
    have hthis := hspared past rest e hsplit he
    refine ⟨?_,?_⟩
    · intro key found hfound
      rw [after_commit, hthis.get hlaw, hfound]
    · intro mid rest' root hrest hok
      have hlonger : calls = (past ++ commit :: mid) ++ commit :: rest' := by
        rw [hsplit, hrest, List.append_assoc]
        rfl
      have hlater : AllSpared P start (past ++ commit :: mid) := by
        intro past' rest'' e' hsplit' he'
        exact hspared past' (rest'' ++ commit :: rest') e' (by rw [hlonger, hsplit', List.append_assoc]; rfl) he'
      obtain ⟨⟨u,hr⟩,-⟩ := hpart _ _ hlonger hlater
      rw [after_commit]
      exact MutableTrie.allStored_of_cache hsafe
        (hr.commit hlaw hsafe (MutableTrie.spared_of_ok hlaw hsafe hr hok)) (by rw [MutableTrie.commit_fst]; rfl)

/-- A failed commit keeps the answers, and lets the next commit store every node, exactly when it has
spared what the trie needs; and a run of calls loses nothing at all exactly when its failed commits do so. -/
theorem failed_commit_iff (hlaw : Lawful DB) :
    (∀ t : MutableTrie DB, Kept P t ↔ Spared P t) ∧
    ∀ (E : Set (List UInt8)) (start : MutableTrie DB) (calls : List TrieCall), Safe P E → Healthy P E start →
      NonEmptyValues calls → (∀ b ∈ involved P start calls, b ∈ E) →
        (Lossless P start calls ↔ AllSpared P start calls) := by
  refine ⟨MutableTrie.kept_iff hlaw,?_⟩
  intro E start calls hsafe hstart hvalues hinvolved
  refine lossless_of_healthy_iff hlaw hsafe hstart hvalues ?_
  exact fun past hpast e he => hinvolved _ (within_involved hpast e he)

/-- A database over memory; the list says which of the next insertions fail. -/
structure FlakyDB where
  store : NodeMap
  failing : List Bool

instance : TrieDB FlakyDB where
  get db hash := .ok (db.store.lookup hash)
  insert db hash value :=
    match db.failing with
    | true :: rest => (⟨db.store,rest⟩, .error (.database "disk full"))
    | false :: rest => (⟨(hash,value) :: db.store,rest⟩, .ok ())
    | [] => (⟨(hash,value) :: db.store,[]⟩, .ok ())

theorem lawful_flaky : Lawful FlakyDB where
  ok := by
    rintro ⟨store,failing⟩ db' h bytes hinsert k
    have hget : db'.store = (h,bytes) :: store := by
      rcases failing with _ | ⟨_ | _,rest⟩
      · cases hinsert
        rfl
      · cases hinsert
        rfl
      · cases hinsert
    change Except.ok (db'.store.lookup k) = _
    rw [hget, List.lookup_cons]
    by_cases hk : k = h
    · subst hk
      rw [beq_self_eq_true, if_pos rfl]
    · rw [beq_eq_false_iff_ne.mpr hk, if_neg hk]
      rfl
  error := by
    rintro ⟨store,failing⟩ db' h bytes e hinsert k
    rcases failing with _ | ⟨_ | _,rest⟩
    · cases hinsert
    · cases hinsert
    · cases hinsert
      rfl

def flakyTrie : MutableTrie FlakyDB := MutableTrie.new ⟨[],[true]⟩

def failingRun : List TrieCall := [.insert [0x12] (List.replicate 40 7),.commit]

theorem failed_commit_iff_flakyTrie :
    (Kept .integersEmptyRoot flakyTrie ↔ Spared .integersEmptyRoot flakyTrie) ∧
      (Lossless .integersEmptyRoot flakyTrie failingRun ↔ AllSpared .integersEmptyRoot flakyTrie failingRun) := by
  have hvalues : NonEmptyValues failingRun := nonEmptyValues_cons nofun (nonEmptyValues_cons nofun nofun)
  have hkeccak : Safe .integersEmptyRoot {b | b ∈ involved .integersEmptyRoot flakyTrie failingRun} :=
    safe_of_list (by decide +kernel) (by decide +kernel) (by decide +kernel) (by decide +kernel)
  have hhealthy : Healthy .integersEmptyRoot {b | b ∈ involved .integersEmptyRoot flakyTrie failingRun} flakyTrie := by
    refine ⟨⟨.empty,MutableTrie.represents_new _⟩,fun e he => (by cases he),fun e he => (by cases he),?_⟩
    intro h bytes hget
    cases hget
  obtain ⟨hone,hrun⟩ := failed_commit_iff (P := .integersEmptyRoot) lawful_flaky
  exact ⟨hone flakyTrie,hrun _ flakyTrie failingRun hkeccak hhealthy hvalues fun b hb => hb⟩

/-- The key that was inserted is gone after the commit that failed, and the next commit stores nothing. -/
theorem failed_commit_loses :
    ¬ Lossless .integersEmptyRoot flakyTrie failingRun ∧
      ¬ Kept .integersEmptyRoot (after .integersEmptyRoot flakyTrie [.insert [0x12] (List.replicate 40 7)]) := by
  have hfails : ∃ e, ((after .integersEmptyRoot flakyTrie [.insert [0x12] (List.replicate 40 7)]).commit
      .integersEmptyRoot).2 = .error e := ⟨_,rfl⟩
  have hbefore : (after .integersEmptyRoot flakyTrie [.insert [0x12] (List.replicate 40 7)]).get [0x12] =
      .ok (some (List.replicate 40 7)) := by decide +kernel
  have hafter : (after .integersEmptyRoot flakyTrie failingRun).get [0x12] ≠ .ok (some (List.replicate 40 7)) := by
    decide +kernel
  obtain ⟨e,he⟩ := hfails
  constructor
  · intro hlossless
    exact hafter ((hlossless [.insert [0x12] (List.replicate 40 7)] [] e rfl he).1 _ _ hbefore)
  · rintro ⟨hkept,-⟩
    exact hafter (hkept _ _ hbefore)

end TrieCall

end ZbxChain
