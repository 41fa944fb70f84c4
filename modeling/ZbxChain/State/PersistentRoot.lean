import ZbxChain.State.StateRoot
import ZbxChain.Trie.MapLaws

/-! # `zbx_state::mpt`: the state root over tries in a database

A storage trie is opened at the account's own root. The clones of a database that the tries hold
share one buffer, so what a storage trie leaves of the database is what the account trie goes on
with.

The words of an account are a function of the slots. Their trie has the hash of a slot as a key
and no entry for a zero word, so the trie that is opened and written over is the trie of the
words written over.
-/
namespace ZbxChain

section Tries
open MutableTrie (Denotes Within Extends)
variable {DB : Type} [TrieDB DB]

/-- The loop body of `compute_storage_root_with_db`. -/
def updateSlot (P : Platform) (trie : MutableTrie DB) (e : Σ _ : H256, H256) :
    MutableTrie DB × Except Fault Unit :=
  if e.2 = 0 then
    match trie.delete P (slotKey P e.1) with
    | (trie, .ok _) => (trie, .ok ())
    | (trie, .error (.error .keyNotFound)) => (trie, .ok ())
    | (trie, .error err) => (trie, .error err)
  else trie.insert P (slotKey P e.1) (encodeSlotValue e.2)

def storageTrieWithDb (P : Platform) (slots : Slots) (prevRoot : H256) (db : DB) :
    MutableTrie DB × Except Fault Unit :=
  forEach (updateSlot P) (MutableTrie.fromRoot prevRoot db) (P.iterOrder slots.entries)

def computeStorageRootWithDb (P : Platform) (slots : Slots) (prevRoot : H256) (db : DB) :
    DB × Except Fault H256 :=
  match storageTrieWithDb P slots prevRoot db with
  | (trie, .error e) => (trie.db, .error e)
  | (trie, .ok ()) => (trie.db, .ok (storageRootOf trie.root))

def leafRootWithDb (P : Platform) (acctStorage : Option Slots) (state : AccountState) (db : DB) :
    DB × Except Fault H256 :=
  match acctStorage with
  | some slots =>
    if slots.entries.isEmpty then (db, .ok state.storageRoot)
    else computeStorageRootWithDb P slots state.storageRoot db
  | none => (db, .ok state.storageRoot)

/-- The loop body of `compute_state_root_with_db`. -/
def insertAccountWithDb (P : Platform) (storage : Storage) (trie : MutableTrie DB)
    (e : Σ _ : Address, AccountState) : MutableTrie DB × Except Fault Unit :=
  let acctStorage := storage.lookup e.1
  if e.2.isEmpty && cacheIsEmpty acctStorage then (trie, .ok ())
  else
    match leafRootWithDb P acctStorage e.2 trie.db with
    | (db, .error err) => ({ trie with db := db }, .error err)
    | (db, .ok storageRoot) =>
      MutableTrie.insert P { trie with db := db } (addressKey P e.1) (encodeAccountRlp e.2 storageRoot)

def accountTrieWithDb (P : Platform) (accounts : Accounts) (storage : Storage) (db : DB) :
    MutableTrie DB × Except Fault Unit :=
  forEach (insertAccountWithDb P storage) (MutableTrie.new db) (P.iterOrder accounts.entries)

def computeStateRootWithDb (P : Platform) (accounts : Accounts) (storage : Storage) (db : DB) :
    DB × Except Fault H256 :=
  match accountTrieWithDb P accounts storage db with
  | (trie, .error e) => (trie.db, .error e)
  | (trie, .ok ()) => (trie.db, .ok trie.root)

def slotsHashedWithDb (P : Platform) (slots : Slots) (prevRoot : H256) (db : DB) : List (List UInt8) :=
  slots.keys.map H256.asBytes ++ (storageTrieWithDb P slots prevRoot db).1.cache.map Prod.snd

def accountHashedWithDb (P : Platform) (accounts : Accounts) (storage : Storage) (db : DB)
    (addr : Address) : List (List UInt8) :=
  match accounts.lookup addr, storage.lookup addr with
  | some state, some slots => slotsHashedWithDb P slots state.storageRoot db
  | _, _ => []

/-- What the computation of a state root hashes, with the encoding that `EMPTY_ROOT` is the
hash of. -/
def stateHashedWithDb (P : Platform) (accounts : Accounts) (storage : Storage) (db : DB) :
    List (List UInt8) :=
  [0x80] :: accounts.keys.map Address.asBytes ++
    (accountTrieWithDb P accounts storage db).1.cache.map Prod.snd ++
    accounts.keys.flatMap (accountHashedWithDb P accounts storage db)

def rootInDb (P : Platform) (storage : Storage) (db : DB) (addr : Address) (state : AccountState) :
    Except Fault H256 := (leafRootWithDb P (storage.lookup addr) state db).2

section Specs
variable {P : Platform} {E : Set (List UInt8)} {slots : Slots} {accounts : Accounts}
  {storage : Storage} {db : DB} {m₀ : Contents}

theorem extends_updateSlot (t : MutableTrie DB) (e : Σ _ : H256, H256) :
    Extends t (updateSlot P t e).1 := by
  unfold updateSlot
  split
  · have hdelete := MutableTrie.extends_delete (P := P) t (slotKey P e.1)
    split <;> rename_i hcall <;> rwa [hcall] at hdelete
  · exact MutableTrie.extends_insert t _ _

theorem db_computeStorageRootWithDb (P : Platform) (slots : Slots) (prevRoot : H256) (db : DB) :
    (computeStorageRootWithDb P slots prevRoot db).1 = db := by
  have hdb := (extends_forEach (extends_updateSlot (P := P)) (MutableTrie.fromRoot prevRoot db)
    (P.iterOrder slots.entries)).db
  unfold computeStorageRootWithDb storageTrieWithDb
  split <;> rename_i hcall <;> rw [hcall] at hdb <;> exact hdb

theorem db_leafRootWithDb (P : Platform) (acctStorage : Option Slots) (state : AccountState) (db : DB) :
    (leafRootWithDb P acctStorage state db).1 = db := by
  unfold leafRootWithDb
  split
  · split
    · rfl
    · exact db_computeStorageRootWithDb P _ _ db
  · rfl

theorem insertAccountWithDb_eq (P : Platform) (storage : Storage) (trie : MutableTrie DB)
    (e : Σ _ : Address, AccountState) : insertAccountWithDb P storage trie e =
      if e.2.isEmpty && cacheIsEmpty (storage.lookup e.1) then (trie, .ok ())
      else match rootInDb P storage trie.db e.1 e.2 with
        | .error err => (trie, .error err)
        | .ok root => trie.insert P (addressKey P e.1) (encodeAccountRlp e.2 root) := by
  have hdb := db_leafRootWithDb P (storage.lookup e.1) e.2 trie.db
  unfold insertAccountWithDb rootInDb
  dsimp only
  split
  · rfl
  · rcases hcall : leafRootWithDb P (storage.lookup e.1) e.2 trie.db with ⟨db,err | root⟩
    · rw [hcall] at hdb
      cases hdb
      rfl
    · rw [hcall] at hdb
      cases hdb
      rfl

theorem extends_insertAccountWithDb (t : MutableTrie DB) (e : Σ _ : Address, AccountState) :
    Extends t (insertAccountWithDb P storage t e).1 := by
  rw [insertAccountWithDb_eq]
  split
  · exact Extends.refl t
  · split
    · exact Extends.refl t
    · exact MutableTrie.extends_insert t _ _

theorem db_computeStateRootWithDb (P : Platform) (accounts : Accounts) (storage : Storage) (db : DB) :
    (computeStateRootWithDb P accounts storage db).1 = db := by
  have hdb : (accountTrieWithDb P accounts storage db).1.db = db :=
    (extends_forEach extends_insertAccountWithDb (MutableTrie.new db) (P.iterOrder accounts.entries)).db
  unfold computeStateRootWithDb
  split <;> rename_i hcall <;> rw [hcall] at hdb <;> exact hdb

theorem updateSlot_spec (hsafe : Safe P E) {t : MutableTrie DB} {m : Contents} (hm : Denotes P E t m)
    {e : Σ _ : H256, H256} (he : slots.lookup e.1 = some e.2) (hw : Within E (updateSlot P t e).1) :
    (updateSlot P t e).2 = .ok () ∧
      Denotes P E (updateSlot P t e).1 (Function.update m (slotKey P e.1) (slotValue slots e.1)) := by
  have hvalue : slotValue slots e.1 = if e.2 = 0 then none else some (encodeSlotValue e.2) := by
    rw [slotValue, he]
    rfl
  unfold updateSlot at hw ⊢
  rw [hvalue]
  by_cases hzero : e.2 = 0
  · simp only [if_pos hzero] at hw ⊢
    have hdelete : Within E (t.delete P (slotKey P e.1)).1 := by
      rcases hcall : t.delete P (slotKey P e.1) with ⟨t',err | b⟩
      · rw [hcall] at hw
        split at hw <;> rename_i heq <;> cases heq <;> exact hw
      · rw [hcall] at hw
        exact hw
    obtain ⟨hok,hm'⟩ := hm.delete hsafe hdelete
    rcases hcall : t.delete P (slotKey P e.1) with ⟨t',r⟩
    rw [hcall] at hok hm'
    cases hok
    exact ⟨rfl,hm'⟩
  · simp only [if_neg hzero] at hw ⊢
    exact hm.insert hsafe (encodeSlotValue_ne_nil e.2) hw

/-- The storage trie over a database holds the old words with the new ones over them. -/
theorem computeStorageRootWithDb_spec (hsafe : Safe P E) {prevRoot : H256}
    (hopen : Denotes P E (MutableTrie.fromRoot prevRoot db) m₀)
    (hE : ∀ b ∈ slotsHashedWithDb P slots prevRoot db, b ∈ E) :
    (computeStorageRootWithDb P slots prevRoot db).2 =
        .ok (storageTrieWithDb P slots prevRoot db).1.root ∧
      ∃ m, Denotes P E (storageTrieWithDb P slots prevRoot db).1 m ∧
        Overwrites (slotKey P) (slotValue slots) slots.keys m₀ m := by
  have hwithin : Within E (storageTrieWithDb P slots prevRoot db).1 :=
    fun e he => hE _ (List.mem_append_right _ (List.mem_map_of_mem he))
  have hinj : Set.InjOn (slotKey P) {k | k ∈ slots.keys} :=
    slotKey_injOn hsafe fun slot hslot => hE _ (List.mem_append_left _ (List.mem_map_of_mem hslot))
  obtain ⟨hok,hdenotes⟩ : (storageTrieWithDb P slots prevRoot db).2 = .ok () ∧
      ∃ m, Denotes P E (storageTrieWithDb P slots prevRoot db).1 m ∧
        Overwrites (slotKey P) (slotValue slots) slots.keys m₀ m :=
    forEach_iterOrder hinj extends_updateSlot
      (fun s m e he _ hm _ hw => updateSlot_spec hsafe hm he hw) hopen hwithin
  refine ⟨?_,hdenotes⟩
  unfold computeStorageRootWithDb
  rcases hcall : storageTrieWithDb P slots prevRoot db with ⟨trie,r⟩
  rw [hcall] at hok
  cases hok
  simp only [storageRootOf_eq]

theorem slotsHashedWithDb_subset (hE : ∀ b ∈ stateHashedWithDb P accounts storage db, b ∈ E)
    {addr : Address} {state : AccountState} (haccount : accounts.lookup addr = some state)
    (hslots : storage.lookup addr = some slots) :
    ∀ b ∈ slotsHashedWithDb P slots state.storageRoot db, b ∈ E := by
  have haddr : addr ∈ accounts.keys := AList.mem_keys_of_lookup haccount
  intro b hb
  refine hE b (List.mem_append_right _ (List.mem_flatMap.mpr ⟨addr,haddr,?_⟩))
  rwa [accountHashedWithDb, haccount, hslots]

theorem rootInDb_ok (hsafe : Safe P E) {addr : Address} {state : AccountState}
    (hopen : ∀ slots, storage.lookup addr = some slots →
      ∃ m, Denotes P E (MutableTrie.fromRoot state.storageRoot db) m)
    (hE : ∀ slots, storage.lookup addr = some slots →
      ∀ b ∈ slotsHashedWithDb P slots state.storageRoot db, b ∈ E) :
    ∃ root, rootInDb P storage db addr state = .ok root := by
  unfold rootInDb leafRootWithDb
  cases hslots : storage.lookup addr with
  | none => exact ⟨_,rfl⟩
  | some slots =>
    by_cases hempty : slots.entries.isEmpty
    · exact ⟨state.storageRoot,by simp only [if_pos hempty]⟩
    · obtain ⟨m,hm⟩ := hopen slots hslots
      refine ⟨(storageTrieWithDb P slots state.storageRoot db).1.root,?_⟩
      simp only [if_neg hempty]
      exact (computeStorageRootWithDb_spec hsafe hm (hE slots hslots)).1

theorem insertAccountWithDb_spec (hsafe : Safe P E) {t : MutableTrie DB} {m : Contents}
    (hm : Denotes P E t m) (hdb : t.db = db) {e : Σ _ : Address, AccountState}
    (he : accounts.lookup e.1 = some e.2) {root : H256}
    (hroot : rootInDb P storage db e.1 e.2 = .ok root) (hfresh : m (addressKey P e.1) = none)
    (hw : Within E (insertAccountWithDb P storage t e).1) :
    (insertAccountWithDb P storage t e).2 = .ok () ∧
      Denotes P E (insertAccountWithDb P storage t e).1
        (Function.update m (addressKey P e.1)
          (leafOf (rootInDb P storage db) accounts storage e.1)) := by
  rw [leafOf_of_lookup he hroot]
  rw [insertAccountWithDb_eq, hdb, hroot] at hw ⊢
  by_cases hskip : (e.2.isEmpty && cacheIsEmpty (storage.lookup e.1)) = true
  · rw [if_pos hskip, if_pos hskip]
    refine ⟨rfl,?_⟩
    rwa [← hfresh, Function.update_eq_self]
  · simp only [if_neg hskip] at hw ⊢
    exact hm.insert hsafe (encodeAccountRlp_ne_nil e.2 root) hw

theorem computeStateRootWithDb_of_roots (hsafe : Safe P E)
    (hroots : ∀ addr state, accounts.lookup addr = some state →
      ∃ root, rootInDb P storage db addr state = .ok root)
    (hE : ∀ b ∈ stateHashedWithDb P accounts storage db, b ∈ E) :
    (computeStateRootWithDb P accounts storage db).2 =
        .ok (accountTrieWithDb P accounts storage db).1.root ∧
      ∃ m, Denotes P E (accountTrieWithDb P accounts storage db).1 m ∧
        Overwrites (addressKey P) (leafOf (rootInDb P storage db) accounts storage) accounts.keys
          (fun _ => none) m := by
  have hwithin : Within E (accountTrieWithDb P accounts storage db).1 := by
    intro e he
    refine hE _ (List.mem_append_left _ (List.mem_append_right _ ?_))
    exact List.mem_map_of_mem he
  have hinj : Set.InjOn (addressKey P) {k | k ∈ accounts.keys} := by
    refine addressKey_injOn hsafe (fun addr haddr => hE _ ?_)
    exact List.mem_append_left _ (List.mem_append_left _ (List.mem_cons_of_mem _ (List.mem_map_of_mem haddr)))
  obtain ⟨hok,hdenotes⟩ : (accountTrieWithDb P accounts storage db).2 = .ok () ∧
      ∃ m, Denotes P E (accountTrieWithDb P accounts storage db).1 m ∧
        Overwrites (addressKey P) (leafOf (rootInDb P storage db) accounts storage) accounts.keys
          (fun _ => none) m := by
    refine forEach_iterOrder hinj extends_insertAccountWithDb ?_ (MutableTrie.denotes_new db) hwithin
    intro s m e haccount hdb hm hfresh hw
    obtain ⟨root,hroot⟩ := hroots e.1 e.2 haccount
    exact insertAccountWithDb_spec hsafe hm hdb haccount hroot hfresh hw
  refine ⟨?_,hdenotes⟩
  unfold computeStateRootWithDb
  rcases hcall : accountTrieWithDb P accounts storage db with ⟨trie,r⟩
  rw [hcall] at hok
  cases hok
  rfl

theorem computeStateRootWithDb_spec (hsafe : Safe P E)
    (hopen : ∀ addr state slots, accounts.lookup addr = some state → storage.lookup addr = some slots →
      ∃ m, Denotes P E (MutableTrie.fromRoot state.storageRoot db) m)
    (hE : ∀ b ∈ stateHashedWithDb P accounts storage db, b ∈ E) :
    (computeStateRootWithDb P accounts storage db).2 =
        .ok (accountTrieWithDb P accounts storage db).1.root ∧
      ∃ m, Denotes P E (accountTrieWithDb P accounts storage db).1 m ∧
        Overwrites (addressKey P) (leafOf (rootInDb P storage db) accounts storage) accounts.keys
          (fun _ => none) m := by
  refine computeStateRootWithDb_of_roots hsafe (fun addr state haccount => ?_) hE
  exact rootInDb_ok hsafe (fun slots hslots => hopen addr state slots haccount hslots)
    (fun slots hslots => slotsHashedWithDb_subset hE haccount hslots)

omit [TrieDB DB] in
theorem forEach_ok {ε : Type} {body : MutableTrie DB → ε → MutableTrie DB × Except Fault Unit}
    (hgrow : ∀ t e, Extends t (body t e).1) {t : MutableTrie DB} {l : List ε}
    (h : (forEach body t l).2 = .ok ()) : ∀ e ∈ l, ∃ s, s.db = t.db ∧ (body s e).2 = .ok () := by
  induction l generalizing t with
  | nil => exact nofun
  | cons e l ih =>
    have hdb := (hgrow t e).db
    rw [forEach] at h
    rcases hcall : body t e with ⟨next,err | ⟨⟩⟩
    · rw [hcall] at h
      cases h
    · rw [hcall] at h hdb
      intro e' he'
      rcases List.mem_cons.mp he' with rfl | he'
      · exact ⟨t,rfl,by rw [hcall]⟩
      · obtain ⟨s,hs,hok⟩ := ih h e' he'
        exact ⟨s,hs.trans hdb,hok⟩

theorem rootInDb_of_cacheIsEmpty {addr : Address} (state : AccountState)
    (h : cacheIsEmpty (storage.lookup addr) = true) :
    rootInDb P storage db addr state = .ok state.storageRoot := by
  unfold rootInDb leafRootWithDb
  unfold cacheIsEmpty at h
  cases hslots : storage.lookup addr with
  | none => rfl
  | some slots =>
    rw [hslots, Option.all_some] at h
    simp only [if_pos h]

theorem rootInDb_of_computed {root : H256}
    (h : (computeStateRootWithDb P accounts storage db).2 = .ok root) {addr : Address}
    {state : AccountState} (haccount : accounts.lookup addr = some state) :
    ∃ storageRoot, rootInDb P storage db addr state = .ok storageRoot := by
  have hall : (accountTrieWithDb P accounts storage db).2 = .ok () := by
    unfold computeStateRootWithDb at h
    rcases hcall : accountTrieWithDb P accounts storage db with ⟨trie,err | ⟨⟩⟩
    · rw [hcall] at h
      cases h
    · rfl
  have hmem : (⟨addr,state⟩ : Σ _ : Address, AccountState) ∈ P.iterOrder accounts.entries :=
    P.mem_iterOrder.mpr (AList.mem_lookup_iff.mp haccount)
  obtain ⟨trie,hdb,hok⟩ := forEach_ok extends_insertAccountWithDb hall _ hmem
  rw [insertAccountWithDb_eq] at hok
  split at hok
  · rename_i hskip
    obtain ⟨-,hcache⟩ := Bool.and_eq_true_iff.mp hskip
    exact ⟨state.storageRoot,rootInDb_of_cacheIsEmpty state hcache⟩
  · split at hok
    · cases hok
    · rename_i storageRoot hroot
      have hnew : trie.db = db := hdb
      rw [hnew] at hroot
      exact ⟨storageRoot,hroot⟩

end Specs

section Agreement
variable {P P' : Platform} {E : Set (List UInt8)} {slots : Slots}

theorem computeStorageRoot_eq_withDb (hhash : P'.keccak256 = P.keccak256) (db : DB)
    (hsafe : Safe P E) (hE : ∀ b ∈ slotsHashed P slots, b ∈ E)
    (hE' : ∀ b ∈ slotsHashedWithDb P' slots emptyStorageRoot db, b ∈ E) :
    computeStorageRoot P slots = (computeStorageRootWithDb P' slots emptyStorageRoot db).2 := by
  have hnew : Denotes P' E (MutableTrie.fromRoot emptyStorageRoot db) (fun _ => none) :=
    MutableTrie.denotes_new db
  obtain ⟨hroot,m,hm,hover⟩ := computeStorageRoot_spec hsafe hE
  obtain ⟨hroot',m',hm',hover'⟩ := computeStorageRootWithDb_spec (hsafe.congr hhash) hnew hE'
  rw [slotKey_congr hhash] at hover'
  have hsame : m = m' := hover.unique hover'
  rw [hroot, hroot', hm.root_eq hhash (hsame ▸ hm')]

/-- The root in memory and the root over any database are the same, in whatever orders the
two go over the hash tables. -/
theorem roots_agree (hhash : P'.keccak256 = P.keccak256) (accounts : Accounts) (storage : Storage)
    (db : DB)
    (hroots : ∀ addr state slots, accounts.lookup addr = some state →
      storage.lookup addr = some slots → state.storageRoot = emptyStorageRoot)
    (hkeccak : Safe P
      {b | b ∈ stateHashed P accounts storage ++ stateHashedWithDb P' accounts storage db}) :
    ∃ root, computeStateRoot P accounts storage = .ok root ∧
      (computeStateRootWithDb P' accounts storage db).2 = .ok root := by
  have hE : ∀ b ∈ stateHashed P accounts storage,
      b ∈ {b | b ∈ stateHashed P accounts storage ++ stateHashedWithDb P' accounts storage db} :=
    fun b hb => List.mem_append_left _ hb
  have hE' : ∀ b ∈ stateHashedWithDb P' accounts storage db,
      b ∈ {b | b ∈ stateHashed P accounts storage ++ stateHashedWithDb P' accounts storage db} :=
    fun b hb => List.mem_append_right _ hb
  have hopen : ∀ addr state slots, accounts.lookup addr = some state →
      storage.lookup addr = some slots →
      ∃ m, Denotes P' {b | b ∈ stateHashed P accounts storage ++ stateHashedWithDb P' accounts storage db}
        (MutableTrie.fromRoot state.storageRoot db) m := by
    intro addr state slots haccount hslots
    rw [hroots addr state slots haccount hslots]
    exact ⟨_,MutableTrie.denotes_new db⟩
  obtain ⟨hroot,m,hm,hover⟩ := computeStateRoot_spec hkeccak hE
  obtain ⟨hroot',m',hm',hover'⟩ := computeStateRootWithDb_spec (hkeccak.congr hhash) hopen hE'
  have hleaves : leafOf (rootInDb P' storage db) accounts storage =
      leafOf (rootInMemory P storage) accounts storage := by
    apply leafOf_congr
    intro addr state haccount
    unfold rootInDb rootInMemory leafRootWithDb leafRoot
    cases hslots : storage.lookup addr with
    | none => rfl
    | some slots =>
      by_cases hempty : slots.entries.isEmpty
      · simp only [if_pos hempty]
      · have hin := hroots addr state slots haccount hslots
        simp only [if_neg hempty, hin]
        refine (computeStorageRoot_eq_withDb hhash db hkeccak ?_ ?_).symm
        · exact fun b hb => hE b (slotsHashed_subset haccount hslots b hb)
        · rw [← hin]
          exact slotsHashedWithDb_subset hE' haccount hslots
  rw [addressKey_congr hhash, hleaves] at hover'
  have hsame : m = m' := hover.unique hover'
  refine ⟨_,hroot,?_⟩
  rw [hroot', hm.root_eq hhash (hsame ▸ hm')]

def demoAccounts : Accounts :=
  ((∅ : Accounts).insert 1 { AccountState.fresh with nonce := 1 }).insert 2 AccountState.fresh

def demoStorage : Storage := (∅ : Storage).insert 1 (((∅ : Slots).insert 5 7).insert 6 0)

theorem roots_agree_two_slots :
    ∃ root, computeStateRoot .integersEmptyRoot demoAccounts demoStorage = .ok root ∧
      (computeStateRootWithDb .integersEmptyRoot demoAccounts demoStorage
        (⟨[]⟩ : MemoryTrieDB)).2 = .ok root := by
  have hroots : ∀ addr state slots, demoAccounts.lookup addr = some state →
      demoStorage.lookup addr = some slots → state.storageRoot = emptyStorageRoot := by
    intro addr state slots haccount _
    rcases AList.lookup_insert_some haccount with ⟨-,rfl⟩ | ⟨-,hfirst⟩
    · rfl
    · rcases AList.lookup_insert_some hfirst with ⟨-,rfl⟩ | ⟨-,hnone⟩
      · rfl
      · cases hnone
  have hkeccak : Safe .integersEmptyRoot {b | b ∈ stateHashed .integersEmptyRoot demoAccounts demoStorage ++
      stateHashedWithDb .integersEmptyRoot demoAccounts demoStorage (⟨[]⟩ : MemoryTrieDB)} :=
    safe_of_list (by decide +kernel) (by decide +kernel) (by decide +kernel) (by decide +kernel)
  exact roots_agree rfl demoAccounts demoStorage _ hroots hkeccak

end Agreement

end Tries

open MutableTrie (Denotes RootOf)

/-- What the storage trie holds of a word. -/
def wordEntry (value : H256) : Option (List UInt8) :=
  if value = 0 then none else some (encodeSlotValue value)

/-- The map of the storage trie of these words. -/
def WordsOf (P : Platform) (words : H256 → H256) (m : Contents) : Prop :=
  Keyed (slotKey P) (fun slot => wordEntry (words slot)) m

/-- The words with the delta written over them. -/
def overridden (words : H256 → H256) (delta : Slots) (slot : H256) : H256 :=
  (delta.lookup slot).getD (words slot)

theorem wordEntry_eq_none {value : H256} : wordEntry value = none ↔ value = 0 := by
  unfold wordEntry
  split
  · rename_i hzero
    exact ⟨fun _ => hzero,fun _ => rfl⟩
  · rename_i hword
    exact ⟨nofun,fun hzero => absurd hzero hword⟩

theorem wordEntry_overridden_of_mem {delta : Slots} {slot : H256} (words : H256 → H256)
    (h : slot ∈ delta.keys) : wordEntry (overridden words delta slot) = slotValue delta slot := by
  obtain ⟨value,hvalue⟩ := Option.isSome_iff_exists.mp (AList.lookup_isSome.mpr (AList.mem_keys.mpr h))
  rw [overridden, slotValue, hvalue]
  rfl

theorem overridden_of_not_mem {delta : Slots} {slot : H256} (words : H256 → H256)
    (h : slot ∉ delta.keys) : overridden words delta slot = words slot := by
  have hnone : delta.lookup slot = none := AList.lookup_eq_none.mpr (fun hmem => h (AList.mem_keys.mp hmem))
  rw [overridden, hnone, Option.getD_none]

section Delta
variable {P : Platform} {E : Set (List UInt8)} {DB : Type} [TrieDB DB] {db : DB} {words : H256 → H256}
  {delta : Slots} {prevRoot : H256} {m : Contents}

theorem storageTrieWithDb_overridden (hsafe : Safe P E) (hwords : WordsOf P words m)
    (hopen : Denotes P E (MutableTrie.fromRoot prevRoot db) m)
    (hslots : ∀ slot, words slot ≠ 0 → H256.asBytes slot ∈ E)
    (hE : ∀ b ∈ slotsHashedWithDb P delta prevRoot db, b ∈ E) :
    (computeStorageRootWithDb P delta prevRoot db).2 =
        .ok (storageTrieWithDb P delta prevRoot db).1.root ∧
      ∃ m', Denotes P E (storageTrieWithDb P delta prevRoot db).1 m' ∧
        WordsOf P (overridden words delta) m' := by
  obtain ⟨hroot,m',hm',hover⟩ := computeStorageRootWithDb_spec hsafe hopen hE
  have hinj : Set.InjOn (slotKey P) {slot | slot ∈ delta.keys ∨ wordEntry (words slot) ≠ none} := by
    refine slotKey_injOn hsafe fun slot hslot => ?_
    rcases hslot with hkey | hword
    · exact hE _ (List.mem_append_left _ (List.mem_map_of_mem hkey))
    · exact hslots slot (fun hzero => hword (wordEntry_eq_none.mpr hzero))
  refine ⟨hroot,m',hm',hwords.overwritten hover hinj ?_ ?_⟩
  · exact fun slot hslot => wordEntry_overridden_of_mem words hslot
  · exact fun slot hslot => congrArg wordEntry (overridden_of_not_mem words hslot)

/-- A delta over the trie of some words gives the root of the trie of the words with the delta
written over them, in whatever order the delta is gone over; it is the empty root just when
every word is zero. -/
theorem storage_root_overridden (hsafe : Safe P E) (hwords : WordsOf P words m)
    (hopen : Denotes P E (MutableTrie.fromRoot prevRoot db) m)
    (hslots : ∀ slot, words slot ≠ 0 → H256.asBytes slot ∈ E)
    (hE : ∀ b ∈ slotsHashedWithDb P delta prevRoot db, b ∈ E) :
    ∃ root m', (computeStorageRootWithDb P delta prevRoot db).2 = .ok root ∧
      WordsOf P (overridden words delta) m' ∧ RootOf P m' root ∧
      (root = emptyStorageRoot ↔ ∀ slot, overridden words delta slot = 0) := by
  obtain ⟨hroot,m',hm',hwords'⟩ := storageTrieWithDb_overridden hsafe hwords hopen hslots hE
  refine ⟨_,m',hroot,hwords',hm'.rootOf,?_⟩
  have hempty : m' = (fun _ => none) ↔ ∀ slot, overridden words delta slot = 0 := by
    rw [hwords'.eq_none_iff]
    exact forall_congr' fun slot => wordEntry_eq_none
  rw [← hempty]
  exact hm'.root_eq_empty_iff hsafe

def formerSlots : Slots := (((∅ : Slots).insert 5 7).insert 6 8).insert 9 1

def formerTrie : MutableTrie MemoryTrieDB :=
  (storageTrieWithDb .integersEmptyRoot formerSlots emptyStorageRoot (⟨[]⟩ : MemoryTrieDB)).1

def formerDb : MemoryTrieDB := ⟨formerTrie.cache⟩

def demoDelta : Slots := ((((∅ : Slots).insert 5 0).insert 6 3).insert 7 0).insert 8 4

theorem lookup_formerDb (hash : H256) :
    (MutableTrie.fromRoot formerTrie.root formerDb).lookup hash = formerTrie.lookup hash := by
  have hdb : formerTrie.db = ⟨[]⟩ := by decide +kernel
  unfold MutableTrie.lookup
  rw [hdb]
  cases hcached : formerTrie.cache.lookup hash with
  | none => simp [MutableTrie.fromRoot, formerDb, TrieDB.get, hcached, Except.toOption]
  | some bytes => simp [MutableTrie.fromRoot, formerDb, TrieDB.get, hcached, Except.toOption]

theorem storage_root_overridden_demoDelta :
    ∃ root m, (computeStorageRootWithDb .integersEmptyRoot demoDelta formerTrie.root formerDb).2 = .ok root ∧
      WordsOf .integersEmptyRoot (overridden (overridden (fun _ => 0) formerSlots) demoDelta) m ∧
      RootOf .integersEmptyRoot m root ∧
      (root = emptyStorageRoot ↔
        ∀ slot, overridden (overridden (fun _ => 0) formerSlots) demoDelta slot = 0) := by
  let hashed := [0x80] :: slotsHashedWithDb .integersEmptyRoot formerSlots emptyStorageRoot
    (⟨[]⟩ : MemoryTrieDB) ++ slotsHashedWithDb .integersEmptyRoot demoDelta formerTrie.root formerDb
  have hsafe : Safe .integersEmptyRoot {b | b ∈ hashed} :=
    safe_of_list (by decide +kernel) (by decide +kernel) (by decide +kernel) (by decide +kernel)
  have hformer : ∀ b ∈ slotsHashedWithDb .integersEmptyRoot formerSlots emptyStorageRoot
      (⟨[]⟩ : MemoryTrieDB), b ∈ {b | b ∈ hashed} :=
    fun b hb => List.mem_append_left _ (List.mem_cons_of_mem _ hb)
  have hnone : WordsOf .integersEmptyRoot (fun _ => 0) (fun _ => none) := Keyed.empty _
  obtain ⟨-,m,hm,hwords⟩ := storageTrieWithDb_overridden hsafe hnone
    (MutableTrie.denotes_new (⟨[]⟩ : MemoryTrieDB)) (fun slot hne => absurd rfl hne) hformer
  have hopen : Denotes .integersEmptyRoot {b | b ∈ hashed}
      (MutableTrie.fromRoot formerTrie.root formerDb) m := by
    refine hm.imp rfl rfl (fun b hheld => ⟨hheld.1,?_⟩)
    rw [lookup_formerDb]
    exact hheld.2
  refine storage_root_overridden hsafe hwords hopen ?_ (fun b hb => List.mem_append_right _ hb)
  intro slot hslot
  have hkey : slot ∈ formerSlots.keys := by
    by_contra hout
    exact hslot (overridden_of_not_mem _ hout)
  exact hformer _ (List.mem_append_left _ (List.mem_map_of_mem hkey))

end Delta

end ZbxChain
