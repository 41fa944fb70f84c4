import ZbxChain.State.PersistentRoot
import ZbxChain.Trie.Binding

/-! # `ZbxDbTrieAdapter`, and what of a state root can be read back

A trie keeps its new nodes in a cache of its own, which only `MutableTrie::commit` moves to
the database. The functions that compute a root over a database leave the cache behind, so
a root can be read back just when the database has had its nodes all along.
-/
namespace ZbxChain
open MutableTrie (Denotes Holds RootOf)

def autoFlushThreshold : ℕ := 1024

/-- The column of trie nodes is the log of what was written, the newest in front; the buffer
that the clones share has the oldest in front. Neither the disk nor the lock fails. -/
structure ZbxDbTrieAdapter where
  trieNodes : NodeMap
  pending : NodeMap
  deriving DecidableEq

namespace ZbxDbTrieAdapter

def commit (db : ZbxDbTrieAdapter) : ZbxDbTrieAdapter :=
  if db.pending.isEmpty then db else ⟨db.pending.reverse ++ db.trieNodes,[]⟩

def get (db : ZbxDbTrieAdapter) (hash : H256) : Option (List UInt8) :=
  match db.pending.lookup hash with
  | some value => some value
  | none => db.trieNodes.lookup hash

def insert (db : ZbxDbTrieAdapter) (hash : H256) (value : List UInt8) : ZbxDbTrieAdapter :=
  let pushed : ZbxDbTrieAdapter := { db with pending := db.pending ++ [(hash,value)] }
  if autoFlushThreshold ≤ pushed.pending.length then pushed.commit else pushed

instance : TrieDB ZbxDbTrieAdapter where
  get db hash := .ok (db.get hash)
  insert db hash value := (db.insert hash value, .ok ())

/-- The nodes on disk and in the buffer. -/
def nodes (db : ZbxDbTrieAdapter) : List (List UInt8) := (db.pending ++ db.trieNodes).map Prod.snd

/-- The root of a trie whose nodes the database holds. -/
def Openable (P : Platform) (db : ZbxDbTrieAdapter) (root : H256) : Prop :=
  ∃ m, Denotes P {b | b ∈ db.nodes} (MutableTrie.fromRoot root db) m

/-- The database holds the trie of a map. -/
def Keeps (P : Platform) (db : ZbxDbTrieAdapter) (m : Contents) : Prop :=
  ∃ root, Denotes P {b | b ∈ db.nodes} (MutableTrie.fromRoot root db) m

variable {P : Platform} {E : Set (List UInt8)} {db : ZbxDbTrieAdapter} {root hash : H256}
  {b : List UInt8} {m : Contents}

theorem mem_nodes_commit : b ∈ db.commit.nodes ↔ b ∈ db.nodes := by
  unfold commit
  split
  · exact Iff.rfl
  · unfold nodes
    simp only [List.nil_append, List.map_append, List.map_reverse, List.mem_append, List.mem_reverse]

theorem mem_nodes_of_get (h : db.get hash = some b) : b ∈ db.nodes := by
  have hmem : ∀ {l : NodeMap}, l.lookup hash = some b → b ∈ l.map Prod.snd := by
    intro l hl
    obtain ⟨l₁,l₂,rfl,-⟩ := List.lookup_eq_some_iff.mp hl
    simp
  unfold nodes
  rw [List.map_append, List.mem_append]
  unfold get at h
  split at h
  · rename_i value hpending
    cases h
    exact Or.inl (hmem hpending)
  · exact Or.inr (hmem h)

theorem denotes_within (hE : ∀ b ∈ db.nodes, b ∈ E)
    (hm : Denotes P {b | b ∈ db.nodes} (MutableTrie.fromRoot root db) m) :
    Denotes P E (MutableTrie.fromRoot root db) m :=
  hm.imp rfl rfl (fun b hheld => ⟨hE b hheld.1,hheld.2⟩)

theorem openable_empty (P : Platform) (db : ZbxDbTrieAdapter) : Openable P db emptyStorageRoot :=
  ⟨_,MutableTrie.denotes_new db⟩

theorem openable_of_lookup {t : MutableTrie ZbxDbTrieAdapter} (ht : Denotes P E t m)
    (h : ∀ hash b, t.lookup hash = some b → db.get hash = some b) : Openable P db t.root :=
  ⟨m,ht.imp rfl rfl (fun _ hheld =>
    ⟨mem_nodes_of_get (h _ _ hheld.2),h _ _ hheld.2⟩)⟩

theorem keeps_iff (hsafe : Safe P E) (hE : ∀ b ∈ db.nodes, b ∈ E) {DB : Type} [TrieDB DB]
    {t : MutableTrie DB} (ht : Denotes P E t m) : Keeps P db m ↔ Openable P db t.root := by
  constructor
  · rintro ⟨root,hm⟩
    have hroot : root = t.root := hm.root_eq rfl ht
    exact ⟨m,hroot ▸ hm⟩
  · rintro ⟨m',hm'⟩
    have hsame := (denotes_within hE hm').contents_eq hsafe ht rfl
    exact ⟨t.root,hsame ▸ hm'⟩

end ZbxDbTrieAdapter

open ZbxDbTrieAdapter

section Roots
variable (P : Platform) (accounts : Accounts) (storage : Storage) (db : ZbxDbTrieAdapter)

def WordsAfter (addr : Address) (state : AccountState) (m : Contents) : Prop :=
  ∃ m₀, Denotes P {b | b ∈ db.nodes} (MutableTrie.fromRoot state.storageRoot db) m₀ ∧
    match storage.lookup addr with
    | some slots => Overwrites (slotKey P) (slotValue slots) slots.keys m₀ m
    | none => m = m₀

def LeavesAfter (m : Contents) : Prop :=
  ∃ roots : Address → H256,
    (∀ addr state, accounts.lookup addr = some state →
      ∃ words, WordsAfter P storage db addr state words ∧ RootOf P words (roots addr)) ∧
    Overwrites (addressKey P) (leafOf (fun addr _ => .ok (roots addr)) accounts storage) accounts.keys
      (fun _ => none) m

/-- Once its buffer is flushed, the database holds the trie of the leaves and, for every
account that is not empty, the trie of its words. -/
structure AlreadyKept : Prop where
  leaves : ∀ m, LeavesAfter P accounts storage db m → Keeps P db.commit m
  words : ∀ addr state m, accounts.lookup addr = some state → state.isEmpty = false →
    WordsAfter P storage db addr state m → Keeps P db.commit m

/-- What is returned can be read back after a commit: the root, the leaf of every account
that is not empty, and the storage root in it. -/
def Persistent : Prop :=
  ∀ root, (computeStateRootWithDb P accounts storage db).2 = .ok root →
    Openable P (computeStateRootWithDb P accounts storage db).1.commit root ∧
    ∀ addr state, accounts.lookup addr = some state → state.isEmpty = false →
      ∃ storageRoot, rootInDb P storage db addr state = .ok storageRoot ∧
        (MutableTrie.fromRoot root (computeStateRootWithDb P accounts storage db).1.commit).get
          (addressKey P addr) = .ok (some (encodeAccountRlp state storageRoot)) ∧
        Openable P (computeStateRootWithDb P accounts storage db).1.commit storageRoot

end Roots

section Persistence
variable {P : Platform} {E : Set (List UInt8)} {accounts : Accounts} {storage : Storage}
  {db : ZbxDbTrieAdapter} {addr : Address} {state : AccountState} {m m' : Contents}

theorem wordsAfter_spec (hsafe : Safe P E) (hnodes : ∀ b ∈ db.nodes, b ∈ E)
    (hE : ∀ b ∈ stateHashedWithDb P accounts storage db, b ∈ E)
    (haccount : accounts.lookup addr = some state) (hopen : Openable P db state.storageRoot) :
    ∃ words, WordsAfter P storage db addr state words ∧
      ∃ t : MutableTrie ZbxDbTrieAdapter, Denotes P E t words ∧
        rootInDb P storage db addr state = .ok t.root := by
  obtain ⟨m₀,hm₀⟩ := hopen
  have hm₀' := denotes_within hnodes hm₀
  unfold WordsAfter rootInDb leafRootWithDb
  cases hslots : storage.lookup addr with
  | none => exact ⟨m₀,⟨m₀,hm₀,rfl⟩,_,hm₀',rfl⟩
  | some slots =>
    by_cases hempty : slots.entries.isEmpty
    · have hkeys : slots.keys = [] := by
        rw [AList.keys, List.isEmpty_iff.mp hempty]
        rfl
      simp only [if_pos hempty]
      refine ⟨m₀,⟨m₀,hm₀,?_⟩,_,hm₀',rfl⟩
      rw [hkeys]
      exact Overwrites.refl _ _ m₀
    · obtain ⟨hroot,words,hwords,hover⟩ := computeStorageRootWithDb_spec hsafe hm₀'
        (slotsHashedWithDb_subset hE haccount hslots)
      simp only [if_neg hempty]
      exact ⟨words,⟨m₀,hm₀,hover⟩,_,hwords,hroot⟩

theorem WordsAfter.unique (hsafe : Safe P E) (hnodes : ∀ b ∈ db.nodes, b ∈ E)
    (h : WordsAfter P storage db addr state m) (h' : WordsAfter P storage db addr state m') : m = m' := by
  obtain ⟨m₀,hm₀,hover⟩ := h
  obtain ⟨m₀',hm₀',hover'⟩ := h'
  have hsame := (denotes_within hnodes hm₀).contents_eq hsafe (denotes_within hnodes hm₀') rfl
  subst hsame
  cases hslots : storage.lookup addr with
  | none =>
    rw [hslots] at hover hover'
    exact hover.trans hover'.symm
  | some slots =>
    rw [hslots] at hover hover'
    exact hover.unique hover'

theorem LeavesAfter.unique (hsafe : Safe P E) (hnodes : ∀ b ∈ db.nodes, b ∈ E)
    (h : LeavesAfter P accounts storage db m) (h' : LeavesAfter P accounts storage db m') : m = m' := by
  obtain ⟨roots,hroots,hover⟩ := h
  obtain ⟨roots',hroots',hover'⟩ := h'
  have hsame : leafOf (fun addr _ => .ok (roots' addr)) accounts storage =
      leafOf (fun addr _ => .ok (roots addr)) accounts storage := by
    apply leafOf_congr
    intro addr state haccount
    obtain ⟨words,hwords,hroot⟩ := hroots addr state haccount
    obtain ⟨words',hwords',hroot'⟩ := hroots' addr state haccount
    rw [hwords.unique hsafe hnodes hwords'] at hroot
    rw [hroot.unique rfl hroot']
  rw [hsame] at hover'
  exact hover.unique hover'

theorem leavesAfter_spec (hsafe : Safe P E) (hnodes : ∀ b ∈ db.nodes, b ∈ E)
    (hopen : ∀ addr state, accounts.lookup addr = some state → Openable P db state.storageRoot)
    (hE : ∀ b ∈ stateHashedWithDb P accounts storage db, b ∈ E) :
    (computeStateRootWithDb P accounts storage db).2 =
        .ok (accountTrieWithDb P accounts storage db).1.root ∧
      ∃ leaves, LeavesAfter P accounts storage db leaves ∧
        Denotes P E (accountTrieWithDb P accounts storage db).1 leaves ∧
        ∀ addr state root, accounts.lookup addr = some state → state.isEmpty = false →
          rootInDb P storage db addr state = .ok root →
          leaves (addressKey P addr) = some (encodeAccountRlp state root) := by
  have hopened : ∀ addr state slots, accounts.lookup addr = some state →
      storage.lookup addr = some slots →
      ∃ m, Denotes P E (MutableTrie.fromRoot state.storageRoot db) m := by
    intro addr state slots haccount _
    obtain ⟨m₀,hm₀⟩ := hopen addr state haccount
    exact ⟨m₀,denotes_within hnodes hm₀⟩
  obtain ⟨hroot,leaves,hleaves,hover⟩ := computeStateRootWithDb_spec hsafe hopened hE
  refine ⟨hroot,leaves,?_,hleaves,?_⟩
  · obtain ⟨roots,hroots⟩ : ∃ roots : Address → H256, ∀ addr state,
        accounts.lookup addr = some state → rootInDb P storage db addr state = .ok (roots addr) := by
      refine ⟨fun addr => ((accounts.lookup addr).bind fun state =>
        (rootInDb P storage db addr state).toOption).getD 0,?_⟩
      intro addr state haccount
      obtain ⟨-,-,t,-,hstorage⟩ := wordsAfter_spec hsafe hnodes hE haccount (hopen addr state haccount)
      dsimp only
      rw [haccount, Option.bind_some, hstorage]
      rfl
    refine ⟨roots,?_,?_⟩
    · intro addr state haccount
      obtain ⟨words,hafter,t,ht,hstorage⟩ :=
        wordsAfter_spec hsafe hnodes hE haccount (hopen addr state haccount)
      rw [hroots addr state haccount] at hstorage
      rw [Except.ok.inj hstorage]
      exact ⟨words,hafter,ht.rootOf⟩
    · rw [leafOf_congr (fun addr state haccount => (hroots addr state haccount).symm)]
      exact hover
  · intro addr state root haccount hstate hroot
    rw [hover.written addr (AList.mem_keys_of_lookup haccount), leafOf_of_lookup haccount hroot, hstate]
    rfl

/-- What is returned can be read back just when the database has held it already. -/
theorem persistent_iff (P : Platform) (accounts : Accounts) (storage : Storage)
    (db : ZbxDbTrieAdapter)
    (hopen : ∀ addr state, accounts.lookup addr = some state →
      state.storageRoot ≠ emptyStorageRoot → Openable P db state.storageRoot)
    (hkeccak : Safe P {b | b ∈ stateHashedWithDb P accounts storage db ++ db.nodes}) :
    Persistent P accounts storage db ↔ AlreadyKept P accounts storage db := by
  have hE : ∀ b ∈ stateHashedWithDb P accounts storage db,
      b ∈ {b | b ∈ stateHashedWithDb P accounts storage db ++ db.nodes} :=
    fun b hb => List.mem_append_left _ hb
  have hnodes : ∀ b ∈ db.nodes, b ∈ {b | b ∈ stateHashedWithDb P accounts storage db ++ db.nodes} :=
    fun b hb => List.mem_append_right _ hb
  have hcommit : ∀ b ∈ db.commit.nodes,
      b ∈ {b | b ∈ stateHashedWithDb P accounts storage db ++ db.nodes} :=
    fun b hb => hnodes b (mem_nodes_commit.mp hb)
  have hopened : ∀ addr state, accounts.lookup addr = some state → Openable P db state.storageRoot := by
    intro addr state haccount
    by_cases hempty : state.storageRoot = emptyStorageRoot
    · rw [hempty]
      exact openable_empty P db
    · exact hopen addr state haccount hempty
  obtain ⟨hroot,leaves,hafter,ht,hvalues⟩ := leavesAfter_spec hkeccak hnodes hopened hE
  unfold Persistent
  rw [db_computeStateRootWithDb]
  constructor
  · intro hpersistent
    obtain ⟨hopenable,haccounts⟩ := hpersistent _ hroot
    constructor
    · intro m hm
      rw [hm.unique hkeccak hnodes hafter]
      exact (keeps_iff hkeccak hcommit ht).mpr hopenable
    · intro addr state m haccount hstate hm
      obtain ⟨words,hafter',s,hs,hstorage⟩ :=
        wordsAfter_spec hkeccak hnodes hE haccount (hopened addr state haccount)
      obtain ⟨storageRoot,hsame,-,hopenable'⟩ := haccounts addr state haccount hstate
      rw [hstorage] at hsame
      cases hsame
      rw [hm.unique hkeccak hnodes hafter']
      exact (keeps_iff hkeccak hcommit hs).mpr hopenable'
  · intro hkept root hreturned
    rw [hroot] at hreturned
    cases hreturned
    have hopenable := (keeps_iff hkeccak hcommit ht).mp (hkept.leaves leaves hafter)
    refine ⟨hopenable,?_⟩
    intro addr state haccount hstate
    obtain ⟨words,hafter',s,hs,hstorage⟩ :=
      wordsAfter_spec hkeccak hnodes hE haccount (hopened addr state haccount)
    refine ⟨s.root,hstorage,?_,?_⟩
    · obtain ⟨m,hm⟩ := hopenable
      have hm' := denotes_within hcommit hm
      rw [hm'.get hkeccak, hm'.contents_eq hkeccak ht rfl, hvalues addr state s.root haccount hstate hstorage]
    · exact (keeps_iff hkeccak hcommit hs).mp (hkept.words addr state words haccount hstate hafter')

def loneAccount : Accounts := (∅ : Accounts).insert 1 { AccountState.fresh with nonce := 1 }

def emptyDb : ZbxDbTrieAdapter := ⟨[],[]⟩

def keptDb : ZbxDbTrieAdapter :=
  ⟨(accountTrieWithDb .integersEmptyRoot loneAccount ∅ emptyDb).1.cache,[]⟩

theorem loneAccount_storageRoot (haccount : loneAccount.lookup addr = some state) :
    state.storageRoot = emptyStorageRoot := by
  rcases AList.lookup_insert_some haccount with ⟨-,rfl⟩ | ⟨-,hnone⟩
  · rfl
  · cases hnone

theorem openable_keptDb (hm : Denotes .integersEmptyRoot E
    (accountTrieWithDb .integersEmptyRoot loneAccount ∅ keptDb).1 m) :
    Openable .integersEmptyRoot keptDb (accountTrieWithDb .integersEmptyRoot loneAccount ∅ keptDb).1.root := by
  have hcache : (accountTrieWithDb .integersEmptyRoot loneAccount ∅ keptDb).1.cache =
      keptDb.trieNodes := by decide +kernel
  have hdb : (accountTrieWithDb .integersEmptyRoot loneAccount ∅ keptDb).1.db = keptDb := by
    decide +kernel
  refine openable_of_lookup hm (fun hash b hlookup => ?_)
  unfold MutableTrie.lookup at hlookup
  rw [hcache, hdb] at hlookup
  split at hlookup
  · rename_i bytes hfound
    rw [← hlookup]
    exact hfound
  · exact hlookup

theorem persistent_keptDb : Persistent .integersEmptyRoot loneAccount ∅ keptDb := by
  have hkeccak : Safe .integersEmptyRoot
      {b | b ∈ stateHashedWithDb .integersEmptyRoot loneAccount ∅ keptDb ++ keptDb.nodes} :=
    safe_of_list (by decide +kernel) (by decide +kernel) (by decide +kernel) (by decide +kernel)
  have hE : ∀ b ∈ stateHashedWithDb .integersEmptyRoot loneAccount ∅ keptDb,
      b ∈ {b | b ∈ stateHashedWithDb .integersEmptyRoot loneAccount ∅ keptDb ++ keptDb.nodes} :=
    fun b hb => List.mem_append_left _ hb
  have hnodes : ∀ b ∈ keptDb.nodes,
      b ∈ {b | b ∈ stateHashedWithDb .integersEmptyRoot loneAccount ∅ keptDb ++ keptDb.nodes} :=
    fun b hb => List.mem_append_right _ hb
  have hopen : ∀ addr state, loneAccount.lookup addr = some state →
      Openable .integersEmptyRoot keptDb state.storageRoot := by
    intro addr state haccount
    rw [loneAccount_storageRoot haccount]
    exact openable_empty _ keptDb
  have hkept : AlreadyKept .integersEmptyRoot loneAccount ∅ keptDb := by
    constructor
    · intro m hm
      obtain ⟨-,leaves,hafter,ht,-⟩ := leavesAfter_spec hkeccak hnodes hopen hE
      rw [hm.unique hkeccak hnodes hafter]
      exact (keeps_iff hkeccak hnodes ht).mpr (openable_keptDb ht)
    · rintro addr state m haccount - ⟨m₀,hm₀,hsame⟩
      have hm : m = m₀ := hsame
      rw [hm]
      exact ⟨_,hm₀⟩
  refine (persistent_iff .integersEmptyRoot loneAccount ∅ keptDb ?_ hkeccak).mpr hkept
  intro addr state haccount _
  exact hopen addr state haccount

/-- The leaf of the only account cannot be found under the root that was returned. -/
theorem lone_account_lost : ∃ root,
    (computeStateRootWithDb .integersEmptyRoot loneAccount ∅ emptyDb).2 = .ok root ∧
    ((MutableTrie.fromRoot root
      (computeStateRootWithDb .integersEmptyRoot loneAccount ∅ emptyDb).1.commit).get
        (addressKey .integersEmptyRoot 1)).toOption = none ∧
    ¬ Persistent .integersEmptyRoot loneAccount ∅ emptyDb := by
  have hroot : (computeStateRootWithDb .integersEmptyRoot loneAccount ∅ emptyDb).2 =
      .ok (accountTrieWithDb .integersEmptyRoot loneAccount ∅ emptyDb).1.root := by decide +kernel
  have hlost : ((MutableTrie.fromRoot (accountTrieWithDb .integersEmptyRoot loneAccount ∅ emptyDb).1.root
      (computeStateRootWithDb .integersEmptyRoot loneAccount ∅ emptyDb).1.commit).get
        (addressKey .integersEmptyRoot 1)).toOption = none := by decide +kernel
  refine ⟨_,hroot,hlost,?_⟩
  intro hpersistent
  obtain ⟨-,haccounts⟩ := hpersistent _ hroot
  obtain ⟨storageRoot,-,hleaf,-⟩ := haccounts 1 { AccountState.fresh with nonce := 1 } rfl rfl
  rw [hleaf] at hlost
  cases hlost

end Persistence

end ZbxChain
