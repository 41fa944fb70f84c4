import ZbxChain.State.StateRoot
import ZbxChain.Trie.Binding

/-! # `zbx_state::state_db`: the overlay and its state root

An overlay of accounts, storage and tombstones is read as a world state: an absent account is
the default account and an absent slot the zero word. The root is computed from the visible
accounts and the slot maps, and it tells more than the world state: whether a slot map has
entries at all.
-/
namespace ZbxChain
open MutableTrie (Denotes)

def computeStateRootFiltered (P : Platform) (base dirty : Accounts) (storage : Storage)
    (toDelete : List Address) : Except Fault H256 :=
  let visible := base.insertAll (P.iterOrder dirty.entries)
  let visible := visible.eraseAll (P.iterOrder toDelete)
  computeStateRoot P visible storage

/-- The arguments of `compute_state_root_filtered`. -/
structure Overlay where
  base : Accounts
  dirty : Accounts
  storage : Storage
  toDelete : List Address

namespace Overlay

def visible (P : Platform) (o : Overlay) : Accounts :=
  (o.base.insertAll (P.iterOrder o.dirty.entries)).eraseAll (P.iterOrder o.toDelete)

def stateRoot (P : Platform) (o : Overlay) : Except Fault H256 :=
  computeStateRootFiltered P o.base o.dirty o.storage o.toDelete

def account? (o : Overlay) (addr : Address) : Option AccountState :=
  if addr ∈ o.toDelete then none else (o.dirty.lookup addr).or (o.base.lookup addr)

def account (o : Overlay) (addr : Address) : AccountState := (o.account? addr).getD .fresh

def word (o : Overlay) (addr : Address) (slot : H256) : H256 := readSlot o.storage addr slot

/-- One world state: nonce, balance, code and vm of every address and all words. -/
def SameState (o o' : Overlay) : Prop :=
  ∀ addr, (o.account addr).fields = (o'.account addr).fields ∧ ∀ slot, o.word addr slot = o'.word addr slot

def noEntries (o : Overlay) (addr : Address) : Bool := cacheIsEmpty (o.storage.lookup addr)

/-- An account has a leaf unless it is empty and has no slot entries, of any value. -/
def hasLeaf (o : Overlay) (addr : Address) : Bool :=
  match o.account? addr with
  | some state => !(state.isEmpty && o.noEntries addr)
  | none => false

/-- The storage root a leaf starts from: the account's own if there are no slot entries. -/
def inherited (o : Overlay) (addr : Address) : H256 :=
  if o.noEntries addr then (o.account addr).storageRoot else emptyStorageRoot

/-- The same addresses have leaves, and the leaves start from the same storage roots. -/
def Aligned (o o' : Overlay) : Prop :=
  ∀ addr, o.hasLeaf addr = o'.hasLeaf addr ∧ (o.hasLeaf addr = true → o.inherited addr = o'.inherited addr)

def hashed (P : Platform) (o : Overlay) : List (List UInt8) := stateHashed P (o.visible P) o.storage

def leaf (P : Platform) (o : Overlay) : Address → Option (List UInt8) :=
  leafOf (rootInMemory P o.storage) (o.visible P) o.storage

variable {P P' : Platform} {E : Set (List UInt8)} {o o' : Overlay} {addr : Address}
  {st st' : AccountState}

theorem account?_of_mem (h : addr ∈ o.toDelete) : o.account? addr = none := if_pos h

theorem account?_of_not_mem (h : addr ∉ o.toDelete) :
    o.account? addr = (o.dirty.lookup addr).or (o.base.lookup addr) := if_neg h

theorem account?_congr (hdeleted : addr ∈ o.toDelete ↔ addr ∈ o'.toDelete)
    (hdirty : o.dirty.lookup addr = o'.dirty.lookup addr)
    (hbase : o.base.lookup addr = o'.base.lookup addr) : o.account? addr = o'.account? addr := by
  by_cases h : addr ∈ o.toDelete
  · rw [account?_of_mem h, account?_of_mem (hdeleted.mp h)]
  · rw [account?_of_not_mem h, account?_of_not_mem (fun h' => h (hdeleted.mpr h')), hdirty, hbase]

theorem lookup_visible (P : Platform) (o : Overlay) (addr : Address) :
    (o.visible P).lookup addr = o.account? addr := by
  have hdirty : (P.iterOrder o.dirty.entries).dlookup addr = o.dirty.lookup addr :=
    List.perm_dlookup addr ((List.perm_nodupKeys (P.iterOrder_perm _)).mpr o.dirty.nodupKeys)
      (P.iterOrder_perm _)
  rw [visible, AList.lookup_eraseAll,
    AList.lookup_insertAll ((List.perm_nodupKeys (P.iterOrder_perm _)).mpr o.dirty.nodupKeys), hdirty]
  simp only [P.mem_iterOrder]
  rfl

theorem word_of_noEntries (h : o.noEntries addr = true) (slot : H256) : o.word addr slot = 0 := by
  unfold noEntries cacheIsEmpty at h
  unfold word readSlot
  cases hslots : o.storage.lookup addr with
  | none => rfl
  | some slots =>
    rw [hslots, Option.all_some, List.isEmpty_iff] at h
    rw [Option.bind_some, AList.lookup, h]
    rfl

theorem slotValue_eq {slots : Slots} (hslots : o.storage.lookup addr = some slots) :
    slotValue slots = fun slot =>
      if o.word addr slot = 0 then none else some (encodeSlotValue (o.word addr slot)) := by
  funext slot
  unfold slotValue word readSlot
  rw [hslots, Option.bind_some]
  cases slots.lookup slot with
  | none => rfl
  | some value => rfl

theorem rootInMemory_of_noEntries (h : o.noEntries addr = true) :
    rootInMemory P o.storage addr st = .ok st.storageRoot := by
  unfold noEntries cacheIsEmpty at h
  unfold rootInMemory leafRoot
  cases hslots : o.storage.lookup addr with
  | none => rfl
  | some slots =>
    rw [hslots, Option.all_some] at h
    simp only [if_pos h]

theorem rootInMemory_of_entries (P : Platform) (st : AccountState) (h : o.noEntries addr = false) :
    ∃ slots, o.storage.lookup addr = some slots ∧
      rootInMemory P o.storage addr st = computeStorageRoot P slots := by
  unfold noEntries cacheIsEmpty at h
  unfold rootInMemory leafRoot
  cases hslots : o.storage.lookup addr with
  | none =>
    rw [hslots] at h
    cases h
  | some slots =>
    rw [hslots, Option.all_some] at h
    refine ⟨slots,rfl,?_⟩
    simp only [h, Bool.false_eq_true, if_false]

theorem computeStorageRoot_zero {slots : Slots} (hsafe : Safe P E)
    (hE : ∀ b ∈ slotsHashed P slots, b ∈ E) (hzero : slotValue slots = fun _ => none) :
    computeStorageRoot P slots = .ok emptyStorageRoot := by
  obtain ⟨hroot,m,hm,hover⟩ := computeStorageRoot_spec hsafe hE
  have hnone : m = fun _ => none := by
    apply hover.ext (Overwrites.refl (slotKey P) (slotValue slots) _)
    intro slot hslot
    rw [hzero] at hslot
    exact absurd rfl hslot
  rw [hnone] at hm
  rw [hroot, hm.root_empty]
  rfl

/-- Two present accounts get one storage root just when the roots they start from agree. -/
theorem rootInMemory_eq_iff (hhash : P'.keccak256 = P.keccak256) (hsafe : Safe P E)
    (hE : ∀ b ∈ o.hashed P, b ∈ E) (hE' : ∀ b ∈ o'.hashed P', b ∈ E)
    (hwords : ∀ slot, o.word addr slot = o'.word addr slot) (hst : o.account? addr = some st)
    (hst' : o'.account? addr = some st') :
    rootInMemory P o.storage addr st = rootInMemory P' o'.storage addr st' ↔
      o.inherited addr = o'.inherited addr := by
  have hvisible : (o.visible P).lookup addr = some st := by rw [lookup_visible, hst]
  have hvisible' : (o'.visible P').lookup addr = some st' := by rw [lookup_visible, hst']
  have haccount : o.account addr = st := by rw [account, hst]; rfl
  have haccount' : o'.account addr = st' := by rw [account, hst']; rfl
  have hzero : ∀ {q : Overlay} {slots : Slots}, q.storage.lookup addr = some slots →
      (∀ slot, q.word addr slot = 0) → slotValue slots = fun _ => none := by
    intro q slots hslots hall
    rw [slotValue_eq hslots]
    funext slot
    rw [if_pos (hall slot)]
  unfold inherited
  rw [haccount, haccount']
  cases hnone : o.noEntries addr with
  | true =>
    rw [rootInMemory_of_noEntries hnone, if_pos rfl]
    cases hnone' : o'.noEntries addr with
    | true =>
      rw [rootInMemory_of_noEntries hnone', if_pos rfl]
      exact Except.ok.injEq _ _ |>.to_iff
    | false =>
      -- without entries on one side, all words of the other are zero
      obtain ⟨slots,hslots,hroot⟩ := rootInMemory_of_entries P' st' hnone'
      have hall : ∀ slot, o'.word addr slot = 0 :=
        fun slot => (hwords slot).symm.trans (word_of_noEntries hnone slot)
      rw [hroot, computeStorageRoot_zero (hsafe.congr hhash)
        (fun b hb => hE' b (slotsHashed_subset hvisible' hslots b hb)) (hzero hslots hall)]
      exact Except.ok.injEq _ _ |>.to_iff
  | false =>
    obtain ⟨slots,hslots,hroot⟩ := rootInMemory_of_entries P st hnone
    have hEslots := fun b hb => hE b (slotsHashed_subset hvisible hslots b hb)
    rw [hroot]
    cases hnone' : o'.noEntries addr with
    | true =>
      have hall : ∀ slot, o.word addr slot = 0 :=
        fun slot => (hwords slot).trans (word_of_noEntries hnone' slot)
      rw [rootInMemory_of_noEntries hnone', if_pos rfl,
        computeStorageRoot_zero hsafe hEslots (hzero hslots hall)]
      exact Except.ok.injEq _ _ |>.to_iff
    | false =>
      obtain ⟨slots',hslots',hroot'⟩ := rootInMemory_of_entries P' st' hnone'
      rw [hroot']
      refine iff_of_true ?_ rfl
      apply computeStorageRoot_congr hhash hsafe (hsafe.congr hhash) hEslots
        (fun b hb => hE' b (slotsHashed_subset hvisible' hslots' b hb))
      rw [slotValue_eq hslots, slotValue_eq hslots']
      funext slot
      rw [hwords]

theorem leaf_of_account (hsafe : Safe P E) (hE : ∀ b ∈ o.hashed P, b ∈ E)
    (hst : o.account? addr = some st) :
    ∃ root, rootInMemory P o.storage addr st = .ok root ∧
      o.leaf P addr = if o.hasLeaf addr then some (encodeAccountRlp st root) else none := by
  have hvisible : (o.visible P).lookup addr = some st := by rw [lookup_visible, hst]
  obtain ⟨root,hroot⟩ : ∃ root, rootInMemory P o.storage addr st = .ok root :=
    rootInMemory_ok hsafe st (fun slots hslots b hb => hE b (slotsHashed_subset hvisible hslots b hb))
  refine ⟨root,hroot,?_⟩
  have hhas : o.hasLeaf addr = !(st.isEmpty && o.noEntries addr) := by rw [hasLeaf, hst]
  have hskip : (st.isEmpty && cacheIsEmpty (o.storage.lookup addr)) = (st.isEmpty && o.noEntries addr) :=
    rfl
  rw [leaf, leafOf_of_lookup hvisible hroot, hhas, hskip]
  cases (st.isEmpty && o.noEntries addr) with
  | true => rfl
  | false => rfl

theorem leaf_of_absent (P : Platform) (hst : o.account? addr = none) : o.leaf P addr = none := by
  rw [leaf, leafOf, lookup_visible, hst, Option.bind_none]

theorem hasLeaf_of_absent (hst : o.account? addr = none) : o.hasLeaf addr = false := by
  rw [hasLeaf, hst]

/-- The leaves of one world state agree just when the overlays are aligned. -/
theorem leaf_eq_iff (hhash : P'.keccak256 = P.keccak256) (hsafe : Safe P E)
    (hE : ∀ b ∈ o.hashed P, b ∈ E) (hE' : ∀ b ∈ o'.hashed P', b ∈ E) (hsame : SameState o o')
    (addr : Address) :
    o.leaf P addr = o'.leaf P' addr ↔
      o.hasLeaf addr = o'.hasLeaf addr ∧
        (o.hasLeaf addr = true → o.inherited addr = o'.inherited addr) := by
  obtain ⟨hfields,hwords⟩ := hsame addr
  cases hst : o.account? addr with
  | none =>
    rw [leaf_of_absent P hst, hasLeaf_of_absent hst]
    cases hst' : o'.account? addr with
    | none =>
      rw [leaf_of_absent P' hst', hasLeaf_of_absent hst']
      exact iff_of_true rfl ⟨rfl,nofun⟩
    | some st' =>
      obtain ⟨root',-,hleaf'⟩ := leaf_of_account (hsafe.congr hhash) hE' hst'
      rw [hleaf']
      cases o'.hasLeaf addr with
      | true => exact iff_of_false nofun (fun h => nomatch h.1)
      | false => exact iff_of_true rfl ⟨rfl,nofun⟩
  | some st =>
    obtain ⟨root,hroot,hleaf⟩ := leaf_of_account hsafe hE hst
    rw [hleaf]
    cases hst' : o'.account? addr with
    | none =>
      rw [leaf_of_absent P' hst', hasLeaf_of_absent hst']
      cases o.hasLeaf addr with
      | true => exact iff_of_false nofun (fun h => nomatch h.1)
      | false => exact iff_of_true rfl ⟨rfl,nofun⟩
    | some st' =>
      obtain ⟨root',hroot',hleaf'⟩ := leaf_of_account (hsafe.congr hhash) hE' hst'
      have hiff := rootInMemory_eq_iff hhash hsafe hE hE' hwords hst hst'
      rw [hroot, hroot'] at hiff
      rw [hleaf', ← hiff]
      have hsamefields : st.fields = st'.fields := by
        rwa [account, account, hst, hst'] at hfields
      cases o.hasLeaf addr with
      | false =>
        cases o'.hasLeaf addr with
        | false => exact iff_of_true rfl ⟨rfl,nofun⟩
        | true => exact iff_of_false nofun (fun h => nomatch h.1)
      | true =>
        cases o'.hasLeaf addr with
        | false => exact iff_of_false nofun (fun h => nomatch h.1)
        | true =>
          rw [if_pos rfl, if_pos rfl, ← encodeAccountRlp_congr hsamefields]
          constructor
          · intro heq
            exact ⟨rfl,fun _ => by rw [encodeAccountRlp_inj (Option.some.inj heq)]⟩
          · rintro ⟨-,heq⟩
            rw [Except.ok.inj (heq rfl)]

theorem stateRoot_eq_of_aligned (hhash : P'.keccak256 = P.keccak256) (hsame : SameState o o')
    (hkeccak : Safe P {b | b ∈ o.hashed P ++ o'.hashed P'}) (haligned : Aligned o o') :
    o.stateRoot P = o'.stateRoot P' := by
  have hE : ∀ b ∈ o.hashed P, b ∈ {b | b ∈ o.hashed P ++ o'.hashed P'} :=
    fun b hb => List.mem_append_left _ hb
  have hE' : ∀ b ∈ o'.hashed P', b ∈ {b | b ∈ o.hashed P ++ o'.hashed P'} :=
    fun b hb => List.mem_append_right _ hb
  apply computeStateRoot_congr hhash hkeccak (hkeccak.congr hhash) hE hE'
  funext addr
  exact (leaf_eq_iff hhash hkeccak hE hE' hsame addr).mpr (haligned addr)

/-- Two overlays of one world state have one state root just when they are aligned. -/
theorem stateRoot_eq_iff (hhash : P'.keccak256 = P.keccak256) (o o' : Overlay)
    (hsame : SameState o o') (hkeccak : Safe P {b | b ∈ o.hashed P ++ o'.hashed P'}) :
    o.stateRoot P = o'.stateRoot P' ↔ Aligned o o' := by
  have hE : ∀ b ∈ o.hashed P, b ∈ {b | b ∈ o.hashed P ++ o'.hashed P'} :=
    fun b hb => List.mem_append_left _ hb
  have hE' : ∀ b ∈ o'.hashed P', b ∈ {b | b ∈ o.hashed P ++ o'.hashed P'} :=
    fun b hb => List.mem_append_right _ hb
  refine ⟨fun hroots addr => ?_,stateRoot_eq_of_aligned hhash hsame hkeccak⟩
  obtain ⟨hroot,m,hm,hover⟩ := computeStateRoot_spec hkeccak hE
  obtain ⟨hroot',m',hm',hover'⟩ := computeStateRoot_spec (hkeccak.congr hhash) hE'
  have hsameroot : (accountTrie P (o.visible P) o.storage).1.root =
      (accountTrie P' (o'.visible P') o'.storage).1.root := by
    refine Except.ok.inj (hroot.symm.trans (Eq.trans ?_ hroot'))
    exact hroots
  have hcontents := hm.contents_eq hkeccak (hm'.platform hhash) hsameroot
  subst hcontents
  rw [addressKey_congr hhash] at hover'
  have hinj : Set.InjOn (addressKey P)
      {s | s ∈ (o.visible P).keys ∨ s ∈ (o'.visible P').keys} := by
    refine addressKey_injOn hkeccak ?_
    rintro s (hs | hs)
    · refine hE _ (List.mem_append_left _ (List.mem_append_left _ (List.mem_cons_of_mem _ ?_)))
      exact List.mem_map_of_mem hs
    · refine hE' _ (List.mem_append_left _ (List.mem_append_left _ (List.mem_cons_of_mem _ ?_)))
      exact List.mem_map_of_mem hs
  have hleaves : o.leaf P = o'.leaf P' := hover.eq_of_same hinj hover'
    (fun _ h => mem_keys_of_leafOf h) (fun _ h => mem_keys_of_leafOf h)
  exact (leaf_eq_iff hhash hkeccak hE hE' hsame addr).mp (congrFun hleaves addr)

/-- An account is read alike from the base, and from the dirty accounts beside one that is
deleted. -/
def demoBase : Overlay := ⟨(∅ : Accounts).insert 1 { AccountState.fresh with nonce := 1 },∅,∅,[]⟩

def demoDirty : Overlay :=
  ⟨(∅ : Accounts).insert 2 { AccountState.fresh with nonce := 9 },
    (∅ : Accounts).insert 1 { AccountState.fresh with nonce := 1 },∅,[2]⟩

theorem account?_demo (addr : Address) : demoBase.account? addr = demoDirty.account? addr := by
  unfold account? demoBase demoDirty
  by_cases hone : addr = 1
  · subst hone
    decide
  · by_cases htwo : addr = 2
    · subst htwo
      decide
    · have hfirst : ∀ state, ((∅ : Accounts).insert 1 state).lookup addr = none :=
        fun _ => AList.lookup_insert_ne hone
      have hsecond : ∀ state, ((∅ : Accounts).insert 2 state).lookup addr = none :=
        fun _ => AList.lookup_insert_ne htwo
      have hkept : addr ∉ ([2] : List Address) := by rwa [List.mem_singleton]
      dsimp only
      rw [hfirst, hsecond, if_neg hkept]
      rfl

theorem stateRoot_eq_base_dirty :
    demoBase.stateRoot .integersEmptyRoot = demoDirty.stateRoot .integersEmptyRoot := by
  have hsame : SameState demoBase demoDirty := by
    intro addr
    unfold account
    rw [account?_demo]
    exact ⟨rfl,fun _ => rfl⟩
  have haligned : Aligned demoBase demoDirty := by
    intro addr
    have hnone : demoBase.noEntries addr = demoDirty.noEntries addr := rfl
    unfold hasLeaf inherited account
    rw [account?_demo, hnone]
    exact ⟨rfl,fun _ => rfl⟩
  have hkeccak : Safe .integersEmptyRoot
      {b | b ∈ demoBase.hashed .integersEmptyRoot ++ demoDirty.hashed .integersEmptyRoot} :=
    safe_of_list (by decide +kernel) (by decide +kernel) (by decide +kernel) (by decide +kernel)
  exact (stateRoot_eq_iff rfl demoBase demoDirty hsame hkeccak).mpr haligned

/-- Nothing, and a touched account with a word set to zero. -/
def untouched : Overlay := ⟨∅,∅,∅,[]⟩

def touched : Overlay :=
  ⟨∅,(∅ : Accounts).insert 1 AccountState.fresh,(∅ : Storage).insert 1 ((∅ : Slots).insert 5 0),[]⟩

theorem zero_word_adds_leaf : SameState untouched touched ∧
    untouched.stateRoot .integersEmptyRoot ≠ touched.stateRoot .integersEmptyRoot := by
  refine ⟨?_,by decide +kernel⟩
  intro addr
  unfold account account? word readSlot untouched touched
  by_cases hone : addr = 1
  · subst hone
    refine ⟨by decide,?_⟩
    intro slot
    rw [AList.lookup_insert, Option.bind_some]
    by_cases hfive : slot = 5
    · subst hfive
      rfl
    · rw [AList.lookup_insert_ne hfive]
      rfl
  · rw [AList.lookup_insert_ne hone, AList.lookup_insert_ne hone]
    exact ⟨rfl,fun _ => rfl⟩

end Overlay

abbrev AddressSet := List Address

/-- What the guards of `set_account` store in a release build; a debug build panics where
they change the account. -/
def guarded (prior state : AccountState) : AccountState :=
  if state.nonce < prior.nonce then { state with nonce := prior.nonce }
  else if !prior.isContract then state
  else if state.codeHash = prior.codeHash then state
  else if state.codeHash = emptyCodeHash then state
  else { state with codeHash := prior.codeHash }

structure StateDb where
  baseAccounts : Accounts
  dirtyAccounts : Accounts
  storageCache : Storage
  dirtyStorage : Table Address (List H256)
  toDelete : AddressSet

namespace StateDb

def new : StateDb := ⟨∅,∅,∅,∅,[]⟩

def seedAccount (db : StateDb) (addr : Address) (state : AccountState) : StateDb :=
  { db with baseAccounts := db.baseAccounts.insert addr state }

def getAccount (db : StateDb) (addr : Address) : AccountState :=
  (db.dirtyAccounts.lookup addr).getD ((db.baseAccounts.lookup addr).getD .fresh)

/-- `prior`: a tombstoned account counts as the default one. -/
def prior (db : StateDb) (addr : Address) : AccountState :=
  if addr ∈ db.toDelete then .fresh else db.getAccount addr

def setAccount (db : StateDb) (addr : Address) (state : AccountState) : StateDb :=
  { db with
    toDelete := db.toDelete.filter (fun a => decide (a ≠ addr))
    dirtyAccounts := db.dirtyAccounts.insert addr (guarded (db.prior addr) state) }

def getStorage (db : StateDb) (addr : Address) (slot : H256) : H256 :=
  readSlot db.storageCache addr slot

def setStorage (db : StateDb) (addr : Address) (slot value : H256) : StateDb :=
  { db with
    storageCache := writeSlot db.storageCache addr slot value
    dirtyStorage := db.dirtyStorage.insert addr
      (((db.dirtyStorage.lookup addr).getD []).insert slot) }

def selfdestruct (db : StateDb) (addr : Address) : StateDb :=
  { db with
    toDelete := db.toDelete.insert addr
    dirtyAccounts := db.dirtyAccounts.erase addr }

/-- What `state_root` hands to `compute_state_root_filtered`. -/
def overlay (db : StateDb) : Overlay :=
  ⟨db.baseAccounts,db.dirtyAccounts,db.storageCache,db.toDelete⟩

def stateRoot (P : Platform) (db : StateDb) : Except Fault H256 :=
  computeStateRootFiltered P db.baseAccounts db.dirtyAccounts db.storageCache db.toDelete

end StateDb

end ZbxChain
