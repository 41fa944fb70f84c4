import ZbxChain.Foundation.Table
import ZbxChain.Trie.Contents

/-! # `zbx_state::mpt`: the accounts, and the state root over tries in memory

The loops go over hash tables, in the platform's order. Every entry is written under the hash of
its key, so in the end the trie stands for the table's entries whatever the order.
-/
namespace ZbxChain
open RlpStream

inductive VmKind where
  | evm
  | zvm
  deriving DecidableEq, Repr

def VmKind.byte : VmKind → UInt8
  | .evm => 0
  | .zvm => 1

def emptyCodeHash : H256 := 0xc5d2460186f7233c927e7db2dcc703c0e500b653ca82273b7bfad8045d85a470

def emptyStorageRoot : H256 := 0x56e81f171bcc55a6ff8345e692c0f86e5b48e01b996cadc001622fb5e363b421

structure AccountState where
  nonce : UInt64
  balance : U256
  codeHash : H256
  storageRoot : H256
  vm : VmKind
  deriving DecidableEq, Repr

namespace AccountState

/-- `AccountState::default`. -/
def fresh : AccountState := ⟨0,0,emptyCodeHash,emptyStorageRoot,.evm⟩

def isEoa (st : AccountState) : Bool := decide (st.codeHash = emptyCodeHash)

def isContract (st : AccountState) : Bool := !st.isEoa

def isEmpty (st : AccountState) : Bool := decide (st.nonce = 0) && decide (st.balance = 0) && st.isEoa

def fields (st : AccountState) : UInt64 × U256 × H256 × VmKind := (st.nonce,st.balance,st.codeHash,st.vm)

end AccountState

def u64MinBe (n : UInt64) : List UInt8 :=
  if n = 0 then [] else (beBytes64 n).dropWhile (· == 0)

def stripLeadingZeros (b : List UInt8) : List UInt8 := b.dropWhile (· == 0)

/-- `encode_account_rlp`: the fifth item only for `Zvm`. -/
def encodeAccountRlp (state : AccountState) (storageRoot : H256) : List UInt8 :=
  let zvm := decide (state.vm = .zvm)
  let s := new.beginList (if zvm then 5 else 4)
  let s := s.append (u64MinBe state.nonce)
  let s := s.append (stripLeadingZeros state.balance.toBigEndian)
  let s := s.append storageRoot.asBytes
  let s := s.append state.codeHash.asBytes
  let s := if zvm then s.append [VmKind.zvm.byte] else s
  s.out

/-- A storage value as `compute_storage_root` encodes it. -/
def encodeSlotValue (value : H256) : List UInt8 := (new.append (stripLeadingZeros value.asBytes)).out

def leafHead (state : AccountState) : List UInt8 :=
  stringBytes (u64MinBe state.nonce) ++ stringBytes (stripLeadingZeros state.balance.toBigEndian)

def leafTail (state : AccountState) : List UInt8 :=
  stringBytes state.codeHash.asBytes ++ if state.vm = .zvm then stringBytes [VmKind.zvm.byte] else []

theorem encodeAccountRlp_eq (state : AccountState) (storageRoot : H256) :
    encodeAccountRlp state storageRoot =
      listBytes (leafHead state ++ stringBytes storageRoot.asBytes ++ leafTail state) := by
  have hout := out_newList (if decide (state.vm = .zvm) then 5 else 4)
    (leafHead state ++ stringBytes storageRoot.asBytes ++ leafTail state)
  rw [← hout]
  unfold encodeAccountRlp leafHead leafTail
  by_cases hzvm : state.vm = .zvm
  · simp [hzvm, append_eq, newList]
  · simp [hzvm, append_eq, newList]

theorem encodeAccountRlp_ne_nil (state : AccountState) (storageRoot : H256) :
    encodeAccountRlp state storageRoot ≠ [] := by
  rw [encodeAccountRlp_eq, listBytes, listHeader]
  split
  · exact List.cons_ne_nil _ _
  · exact List.cons_ne_nil _ _

theorem encodeSlotValue_ne_nil (value : H256) : encodeSlotValue value ≠ [] := by
  have hout : encodeSlotValue value = stringBytes (stripLeadingZeros value.asBytes) := by
    simp [encodeSlotValue, append_eq, out, new]
  rw [hout, stringBytes, stringHeader]
  split
  · exact List.cons_ne_nil _ _
  · split
    · rename_i hone
      intro hnil
      rw [List.nil_append] at hnil
      rw [hnil] at hone
      cases hone.1
    · split
      · exact List.cons_ne_nil _ _
      · exact List.cons_ne_nil _ _

theorem stringBytes_hash (h : H256) : stringBytes h.asBytes = 0xa0 :: h.asBytes := by
  rw [stringBytes, stringHeader, H256.length_asBytes]
  rfl

/-- The account record gives its storage root away. -/
theorem encodeAccountRlp_inj {state : AccountState} {root root' : H256}
    (h : encodeAccountRlp state root = encodeAccountRlp state root') : root = root' := by
  have hlen : ∀ r : H256, (leafHead state ++ stringBytes r.asBytes ++ leafTail state).length =
      (leafHead state).length + 33 + (leafTail state).length := by
    intro r
    simp only [stringBytes_hash, List.length_append, List.length_cons, H256.length_asBytes]
  rw [encodeAccountRlp_eq, encodeAccountRlp_eq, listBytes, listBytes, hlen, hlen] at h
  have hitems := List.append_cancel_right (List.append_cancel_left h)
  have hbytes := List.append_cancel_left hitems
  rw [stringBytes_hash, stringBytes_hash, List.cons_inj_right] at hbytes
  rw [← H256.fromSlice_asBytes root, hbytes, H256.fromSlice_asBytes]

theorem encodeAccountRlp_congr {st st' : AccountState} (h : st.fields = st'.fields) (root : H256) :
    encodeAccountRlp st root = encodeAccountRlp st' root := by
  simp only [AccountState.fields, Prod.mk.injEq] at h
  obtain ⟨hnonce,hbalance,hcode,hvm⟩ := h
  simp only [encodeAccountRlp, hnonce, hbalance, hcode, hvm]

abbrev Slots := Table H256 H256
abbrev Accounts := Table Address AccountState
abbrev Storage := Table Address Slots

def readSlot (storage : Storage) (addr : Address) (slot : H256) : H256 :=
  ((storage.lookup addr).bind fun slots => slots.lookup slot).getD 0

def writeSlot (storage : Storage) (addr : Address) (slot value : H256) : Storage :=
  storage.insert addr (((storage.lookup addr).getD ∅).insert slot value)

section Definitions
variable {DB : Type} [TrieDB DB]

def forEach {ε : Type} (body : MutableTrie DB → ε → MutableTrie DB × Except Fault Unit) :
    MutableTrie DB → List ε → MutableTrie DB × Except Fault Unit
  | trie, [] => (trie, .ok ())
  | trie, e :: rest =>
    match body trie e with
    | (trie, .error err) => (trie, .error err)
    | (trie, .ok ()) => forEach body trie rest

/-- `expect`. -/
def expectOk {α : Type} : Except Fault α → Except Fault α
  | .ok a => .ok a
  | .error _ => .error .panic

def slotKey (P : Platform) (slot : H256) : List UInt8 := (P.keccak256 slot.asBytes).asBytes

def addressKey (P : Platform) (addr : Address) : List UInt8 := (P.keccak256 addr.asBytes).asBytes

/-- The loop body of `compute_storage_root`. -/
def insertSlot (P : Platform) (trie : MutableTrie DB) (e : Σ _ : H256, H256) :
    MutableTrie DB × Except Fault Unit :=
  if e.2 = 0 then (trie, .ok ())
  else
    let (trie,r) := trie.insert P (slotKey P e.1) (encodeSlotValue e.2)
    (trie,expectOk r)

def storageTrie (P : Platform) (slots : Slots) : MutableTrie MemoryTrieDB × Except Fault Unit :=
  forEach (insertSlot P) (MutableTrie.new ⟨[]⟩) (P.iterOrder slots.entries)

def storageRootOf (root : H256) : H256 := if root = emptyRoot then emptyStorageRoot else root

def computeStorageRoot (P : Platform) (slots : Slots) : Except Fault H256 :=
  match storageTrie P slots with
  | (_, .error e) => .error e
  | (trie, .ok ()) => .ok (storageRootOf trie.root)

def cacheIsEmpty (acctStorage : Option Slots) : Bool := acctStorage.all (·.entries.isEmpty)

def leafRoot (compute : Slots → Except Fault H256) (acctStorage : Option Slots)
    (state : AccountState) : Except Fault H256 :=
  match acctStorage with
  | some slots => if slots.entries.isEmpty then .ok state.storageRoot else compute slots
  | none => .ok state.storageRoot

/-- The loop body of `compute_state_root`. -/
def insertAccount (P : Platform) (storage : Storage) (trie : MutableTrie DB)
    (e : Σ _ : Address, AccountState) : MutableTrie DB × Except Fault Unit :=
  let acctStorage := storage.lookup e.1
  if e.2.isEmpty && cacheIsEmpty acctStorage then (trie, .ok ())
  else
    match leafRoot (computeStorageRoot P) acctStorage e.2 with
    | .error err => (trie, .error err)
    | .ok storageRoot =>
      let (trie,r) := trie.insert P (addressKey P e.1) (encodeAccountRlp e.2 storageRoot)
      (trie,expectOk r)

def accountTrie (P : Platform) (accounts : Accounts) (storage : Storage) :
    MutableTrie MemoryTrieDB × Except Fault Unit :=
  forEach (insertAccount P storage) (MutableTrie.new ⟨[]⟩) (P.iterOrder accounts.entries)

def computeStateRoot (P : Platform) (accounts : Accounts) (storage : Storage) : Except Fault H256 :=
  match accountTrie P accounts storage with
  | (_, .error e) => .error e
  | (trie, .ok ()) => .ok trie.root

end Definitions

section Words
variable (storage : Storage) (addr a : Address) (slot r value : H256)

theorem readSlot_writeSlot : readSlot (writeSlot storage addr slot value) a r =
    if a = addr ∧ r = slot then value else readSlot storage a r := by
  unfold readSlot writeSlot
  by_cases ha : a = addr
  · subst ha
    rw [AList.lookup_insert, Option.bind_some]
    by_cases hr : r = slot
    · subst hr
      rw [AList.lookup_insert, if_pos ⟨rfl,rfl⟩]
      rfl
    · rw [AList.lookup_insert_ne hr, if_neg (fun h => hr h.2)]
      cases storage.lookup a with
      | none => rfl
      | some slots => rfl
  · rw [AList.lookup_insert_ne ha, if_neg (fun h => ha h.1)]

theorem cacheIsEmpty_writeSlot : cacheIsEmpty ((writeSlot storage addr slot value).lookup a) =
    if a = addr then false else cacheIsEmpty (storage.lookup a) := by
  unfold writeSlot
  by_cases ha : a = addr
  · subst ha
    rw [AList.lookup_insert, if_pos rfl, cacheIsEmpty, Option.all_some, AList.entries_insert]
    rfl
  · rw [AList.lookup_insert_ne ha, if_neg ha]

theorem readSlot_erase : readSlot (storage.erase addr) a r = if a = addr then 0 else readSlot storage a r := by
  unfold readSlot
  by_cases ha : a = addr
  · subst ha
    rw [AList.lookup_erase, if_pos rfl]
    rfl
  · rw [AList.lookup_erase_ne ha, if_neg ha]

end Words

/-- The encoded word of a slot, `none` for zero. -/
def slotValue (slots : Slots) (slot : H256) : Option (List UInt8) :=
  (slots.lookup slot).bind fun value => if value = 0 then none else some (encodeSlotValue value)

/-- The leaf of an address, `none` where it has none. -/
def leafOf (rootOf : Address → AccountState → Except Fault H256) (accounts : Accounts)
    (storage : Storage) (addr : Address) : Option (List UInt8) :=
  (accounts.lookup addr).bind fun state =>
    if state.isEmpty && cacheIsEmpty (storage.lookup addr) then none
    else (rootOf addr state).toOption.map (encodeAccountRlp state)

theorem leafOf_congr {accounts : Accounts} {storage : Storage}
    {rootOf rootOf' : Address → AccountState → Except Fault H256}
    (h : ∀ addr state, accounts.lookup addr = some state → rootOf addr state = rootOf' addr state) :
    leafOf rootOf accounts storage = leafOf rootOf' accounts storage := by
  funext addr
  unfold leafOf
  cases haccount : accounts.lookup addr with
  | none => rfl
  | some state => rw [Option.bind_some, Option.bind_some, h addr state haccount]

theorem leafOf_of_lookup {accounts : Accounts} {storage : Storage}
    {rootOf : Address → AccountState → Except Fault H256} {addr : Address} {state : AccountState}
    {root : H256} (haccount : accounts.lookup addr = some state) (hroot : rootOf addr state = .ok root) :
    leafOf rootOf accounts storage addr =
      if state.isEmpty && cacheIsEmpty (storage.lookup addr) then none
      else some (encodeAccountRlp state root) := by
  rw [leafOf, haccount, Option.bind_some, hroot]
  rfl

def slotsHashed (P : Platform) (slots : Slots) : List (List UInt8) :=
  slots.keys.map H256.asBytes ++ (storageTrie P slots).1.cache.map Prod.snd

/-- What the computation of a state root hashes, with the encoding that `EMPTY_ROOT` is the
hash of. -/
def stateHashed (P : Platform) (accounts : Accounts) (storage : Storage) : List (List UInt8) :=
  [0x80] :: accounts.keys.map Address.asBytes ++ (accountTrie P accounts storage).1.cache.map Prod.snd ++
    accounts.keys.flatMap (fun addr => ((storage.lookup addr).map (slotsHashed P)).getD [])

section Loops
open MutableTrie (Denotes Within Extends)
variable {P : Platform} {E : Set (List UInt8)} {DB : Type} [TrieDB DB] {ε κ ν : Type}

omit [TrieDB DB] in
theorem extends_forEach {body : MutableTrie DB → ε → MutableTrie DB × Except Fault Unit}
    (hbody : ∀ t e, Extends t (body t e).1) (t : MutableTrie DB) (l : List ε) :
    Extends t (forEach body t l).1 := by
  induction l generalizing t with
  | nil => exact Extends.refl t
  | cons e l ih =>
    have hfirst := hbody t e
    rw [forEach]
    rcases hcall : body t e with ⟨t',err | ⟨⟩⟩
    · rw [hcall] at hfirst
      exact hfirst
    · rw [hcall] at hfirst
      exact hfirst.trans (ih t')

theorem forEach_spec {body : MutableTrie DB → (Σ _ : κ, ν) → MutableTrie DB × Except Fault Unit}
    {key : κ → List UInt8} {g : κ → Option (List UInt8)} {l : List (Σ _ : κ, ν)} {m₀ : Contents}
    (hinj : Set.InjOn key {k | k ∈ l.keys}) (hnodup : l.keys.Nodup)
    (hgrow : ∀ t e, Extends t (body t e).1)
    {t : MutableTrie DB} (hbody : ∀ s m e, e ∈ l → s.db = t.db → Denotes P E s m →
      m (key e.1) = m₀ (key e.1) → Within E (body s e).1 → (body s e).2 = .ok () ∧
        Denotes P E (body s e).1 (Function.update m (key e.1) (g e.1)))
    (ht : Denotes P E t m₀) (hw : Within E (forEach body t l).1) :
    (forEach body t l).2 = .ok () ∧
      ∃ m, Denotes P E (forEach body t l).1 m ∧ Overwrites key g l.keys m₀ m := by
  -- `done` are the keys of the entries already written
  have hrun : ∀ (rest : List (Σ _ : κ, ν)) (done : List κ) (s : MutableTrie DB) (m : Contents),
      (∀ e ∈ rest, e ∈ l) → done ++ rest.keys = l.keys → s.db = t.db → Denotes P E s m →
      Overwrites key g done m₀ m → Within E (forEach body s rest).1 →
      (forEach body s rest).2 = .ok () ∧
        ∃ m', Denotes P E (forEach body s rest).1 m' ∧ Overwrites key g (done ++ rest.keys) m₀ m' := by
    intro rest
    induction rest with
    | nil =>
      intro done s m _ _ _ hm hover _
      exact ⟨rfl,m,hm,by simpa using hover⟩
    | cons e rest ih =>
      intro done s m hmem hkeys hdb hm hover hw
      have hfresh : ∀ r ∈ done, key r ≠ key e.1 := by
        intro r hr heq
        have hrl : r ∈ l.keys := by
          rw [← hkeys]
          exact List.mem_append_left _ hr
        have hel : e.1 ∈ l.keys := by
          rw [← hkeys]
          exact List.mem_append_right _ (by simp)
        rw [← hkeys, List.nodup_append] at hnodup
        exact hnodup.2.2 r hr e.1 (by simp) (hinj hrl hel heq)
      obtain ⟨hsame,hover'⟩ := hover.snoc (s := e.1) hfresh
      have hfirst : Within E (body s e).1 := by
        refine Extends.within ?_ hw
        rw [forEach]
        rcases hcall : body s e with ⟨s',err | ⟨⟩⟩
        · exact Extends.refl s'
        · exact extends_forEach hgrow s' rest
      obtain ⟨hok,hm'⟩ := hbody s m e (hmem e List.mem_cons_self) hdb hm hsame hfirst
      have hdb' := (hgrow s e).db.trans hdb
      rcases hcall : body s e with ⟨s',r⟩
      rw [hcall] at hok hm' hdb'
      cases hok
      simp only [forEach, hcall] at hw ⊢
      have hkeys' : (done ++ [e.1]) ++ rest.keys = l.keys := by
        rw [List.append_assoc, ← hkeys, List.keys_cons]
        rfl
      have hrest := ih (done ++ [e.1]) s' _ (fun e he => hmem e (List.mem_cons_of_mem _ he)) hkeys'
        hdb' hm' hover' hw
      rwa [hkeys', ← hkeys] at hrest
  exact hrun l [] t m₀ (fun e he => he) rfl rfl ht (Overwrites.refl key g m₀) hw

end Loops

section Roots
open MutableTrie (Denotes Within Extends)
variable {P : Platform} {E : Set (List UInt8)} {DB : Type} [TrieDB DB] {slots : Slots}
  {accounts : Accounts} {storage : Storage}

theorem storageRootOf_eq (root : H256) : storageRootOf root = root := by
  unfold storageRootOf
  split
  · rename_i hempty
    exact hempty.symm
  · rfl

theorem asBytes_inj {h h' : H256} (heq : h.asBytes = h'.asBytes) : h = h' := by
  rw [← H256.fromSlice_asBytes h, heq, H256.fromSlice_asBytes]

theorem slotKey_injOn (hsafe : Safe P E) {S : Set H256} (hS : ∀ slot ∈ S, H256.asBytes slot ∈ E) :
    Set.InjOn (slotKey P) S := by
  intro slot hslot slot' hslot' heq
  apply asBytes_inj
  exact hsafe.inj (hS slot hslot) (hS slot' hslot') (asBytes_inj heq)

theorem addressKey_injOn (hsafe : Safe P E) {S : Set Address}
    (hS : ∀ addr ∈ S, Address.asBytes addr ∈ E) : Set.InjOn (addressKey P) S := by
  intro addr haddr addr' haddr' heq
  apply Bytes.bytesBE_bitVec_inj (k := 20)
  exact hsafe.inj (hS addr haddr) (hS addr' haddr') (asBytes_inj heq)

theorem mem_iterOrder_keys {κ ν : Type} [DecidableEq κ] (t : Table κ ν) (k : κ) :
    k ∈ (P.iterOrder t.entries).keys ↔ k ∈ t.keys :=
  ((P.iterOrder_perm t.entries).map Sigma.fst).mem_iff

theorem nodup_iterOrder_keys {κ ν : Type} [DecidableEq κ] (t : Table κ ν) :
    (P.iterOrder t.entries).keys.Nodup :=
  ((P.iterOrder_perm t.entries).map Sigma.fst).nodup_iff.mpr t.keys_nodup

theorem lookup_of_mem_iterOrder {κ ν : Type} [DecidableEq κ] {t : Table κ ν} {e : Σ _ : κ, ν}
    (h : e ∈ P.iterOrder t.entries) : t.lookup e.1 = some e.2 :=
  AList.mem_lookup_iff.mpr (P.mem_iterOrder.mp h)

theorem forEach_iterOrder {κ ν : Type} [DecidableEq κ] {table : Table κ ν}
    {body : MutableTrie DB → (Σ _ : κ, ν) → MutableTrie DB × Except Fault Unit} {key : κ → List UInt8}
    {g : κ → Option (List UInt8)} {m₀ : Contents} (hinj : Set.InjOn key {k | k ∈ table.keys})
    (hgrow : ∀ t e, Extends t (body t e).1) {t : MutableTrie DB}
    (hbody : ∀ s m e, table.lookup e.1 = some e.2 → s.db = t.db → Denotes P E s m →
      m (key e.1) = m₀ (key e.1) → Within E (body s e).1 → (body s e).2 = .ok () ∧
        Denotes P E (body s e).1 (Function.update m (key e.1) (g e.1)))
    (ht : Denotes P E t m₀) (hw : Within E (forEach body t (P.iterOrder table.entries)).1) :
    (forEach body t (P.iterOrder table.entries)).2 = .ok () ∧
      ∃ m, Denotes P E (forEach body t (P.iterOrder table.entries)).1 m ∧ Overwrites key g table.keys m₀ m := by
  have hinj' : Set.InjOn key {k | k ∈ (P.iterOrder table.entries).keys} :=
    hinj.mono fun k hk => (mem_iterOrder_keys table k).mp hk
  obtain ⟨hok,m,hm,hover⟩ := forEach_spec hinj' (nodup_iterOrder_keys table) hgrow
    (fun s m e he => hbody s m e (lookup_of_mem_iterOrder he)) ht hw
  exact ⟨hok,m,hm,hover.congr (mem_iterOrder_keys table)⟩

theorem extends_insertSlot (t : MutableTrie DB) (e : Σ _ : H256, H256) :
    Extends t (insertSlot P t e).1 := by
  unfold insertSlot
  split
  · exact Extends.refl t
  · exact MutableTrie.extends_insert t _ _

theorem extends_insertAccount (t : MutableTrie DB) (e : Σ _ : Address, AccountState) :
    Extends t (insertAccount P storage t e).1 := by
  unfold insertAccount
  dsimp only
  split
  · exact Extends.refl t
  · split
    · exact Extends.refl t
    · exact MutableTrie.extends_insert t _ _

theorem insertSlot_spec (hsafe : Safe P E) {t : MutableTrie DB} {m : Contents} (hm : Denotes P E t m)
    {e : Σ _ : H256, H256} (he : slots.lookup e.1 = some e.2) (hfresh : m (slotKey P e.1) = none)
    (hw : Within E (insertSlot P t e).1) :
    (insertSlot P t e).2 = .ok () ∧
      Denotes P E (insertSlot P t e).1 (Function.update m (slotKey P e.1) (slotValue slots e.1)) := by
  have hvalue : slotValue slots e.1 = if e.2 = 0 then none else some (encodeSlotValue e.2) := by
    rw [slotValue, he]
    rfl
  unfold insertSlot at hw ⊢
  rw [hvalue]
  by_cases hzero : e.2 = 0
  · rw [if_pos hzero, if_pos hzero]
    refine ⟨rfl,?_⟩
    rwa [← hfresh, Function.update_eq_self]
  · rw [if_neg hzero] at hw
    rw [if_neg hzero, if_neg hzero]
    obtain ⟨hdone,hm'⟩ := hm.insert hsafe (encodeSlotValue_ne_nil e.2) hw
    exact ⟨by simp only [hdone, expectOk],hm'⟩

/-- The storage trie holds the slots under their hashed keys. -/
theorem computeStorageRoot_spec (hsafe : Safe P E) (hE : ∀ b ∈ slotsHashed P slots, b ∈ E) :
    computeStorageRoot P slots = .ok (storageTrie P slots).1.root ∧
      ∃ m, Denotes P E (storageTrie P slots).1 m ∧
        Overwrites (slotKey P) (slotValue slots) slots.keys (fun _ => none) m := by
  have hwithin : Within E (storageTrie P slots).1 :=
    fun e he => hE _ (List.mem_append_right _ (List.mem_map_of_mem he))
  have hinj : Set.InjOn (slotKey P) {k | k ∈ slots.keys} :=
    slotKey_injOn hsafe fun slot hslot => hE _ (List.mem_append_left _ (List.mem_map_of_mem hslot))
  obtain ⟨hok,hdenotes⟩ : (storageTrie P slots).2 = .ok () ∧ ∃ m, Denotes P E (storageTrie P slots).1 m ∧
      Overwrites (slotKey P) (slotValue slots) slots.keys (fun _ => none) m :=
    forEach_iterOrder hinj extends_insertSlot
      (fun s m e he _ hm hfresh hw => insertSlot_spec hsafe hm he hfresh hw) (MutableTrie.denotes_new _) hwithin
  refine ⟨?_,hdenotes⟩
  unfold computeStorageRoot
  rcases hcall : storageTrie P slots with ⟨trie,r⟩
  rw [hcall] at hok
  cases hok
  simp only [storageRootOf_eq]

theorem slotsHashed_subset {addr : Address} {state : AccountState}
    (haccount : accounts.lookup addr = some state) (hslots : storage.lookup addr = some slots) :
    ∀ b ∈ slotsHashed P slots, b ∈ stateHashed P accounts storage := by
  have haddr : addr ∈ accounts.keys := AList.mem_keys_of_lookup haccount
  intro b hb
  refine List.mem_append_right _ (List.mem_flatMap.mpr ⟨addr,haddr,?_⟩)
  rwa [hslots]

def rootInMemory (P : Platform) (storage : Storage) (addr : Address) (state : AccountState) :
    Except Fault H256 := leafRoot (computeStorageRoot P) (storage.lookup addr) state

theorem rootInMemory_ok (hsafe : Safe P E) {addr : Address} (state : AccountState)
    (hE : ∀ slots, storage.lookup addr = some slots → ∀ b ∈ slotsHashed P slots, b ∈ E) :
    ∃ root, rootInMemory P storage addr state = .ok root := by
  unfold rootInMemory leafRoot
  cases hslots : storage.lookup addr with
  | none => exact ⟨_,rfl⟩
  | some slots =>
    by_cases hempty : slots.entries.isEmpty
    · exact ⟨_,if_pos hempty⟩
    · refine ⟨(storageTrie P slots).1.root,?_⟩
      simp only [if_neg hempty]
      exact (computeStorageRoot_spec hsafe (hE slots hslots)).1

theorem insertAccount_spec (hsafe : Safe P E) {t : MutableTrie DB} {m : Contents}
    (hm : Denotes P E t m) {e : Σ _ : Address, AccountState} (he : accounts.lookup e.1 = some e.2)
    {root : H256} (hroot : rootInMemory P storage e.1 e.2 = .ok root)
    (hfresh : m (addressKey P e.1) = none) (hw : Within E (insertAccount P storage t e).1) :
    (insertAccount P storage t e).2 = .ok () ∧
      Denotes P E (insertAccount P storage t e).1
        (Function.update m (addressKey P e.1)
          (leafOf (rootInMemory P storage) accounts storage e.1)) := by
  rw [leafOf_of_lookup he hroot]
  unfold insertAccount at hw ⊢
  unfold rootInMemory at hroot
  dsimp only at hw ⊢
  by_cases hskip : (e.2.isEmpty && cacheIsEmpty (storage.lookup e.1)) = true
  · rw [if_pos hskip, if_pos hskip]
    refine ⟨rfl,?_⟩
    rwa [← hfresh, Function.update_eq_self]
  · simp only [if_neg hskip, hroot] at hw ⊢
    obtain ⟨hdone,hm'⟩ := hm.insert hsafe (encodeAccountRlp_ne_nil e.2 root) hw
    exact ⟨by simp only [hdone, expectOk],hm'⟩

/-- The account trie holds the accounts, each with its own storage root. -/
theorem computeStateRoot_spec (hsafe : Safe P E) (hE : ∀ b ∈ stateHashed P accounts storage, b ∈ E) :
    computeStateRoot P accounts storage = .ok (accountTrie P accounts storage).1.root ∧
      ∃ m, Denotes P E (accountTrie P accounts storage).1 m ∧
        Overwrites (addressKey P) (leafOf (rootInMemory P storage) accounts storage) accounts.keys
          (fun _ => none) m := by
  have hwithin : Within E (accountTrie P accounts storage).1 := by
    intro e he
    refine hE _ (List.mem_append_left _ (List.mem_append_right _ ?_))
    exact List.mem_map_of_mem he
  have hinj : Set.InjOn (addressKey P) {k | k ∈ accounts.keys} := by
    refine addressKey_injOn hsafe (fun addr haddr => hE _ ?_)
    exact List.mem_append_left _ (List.mem_append_left _ (List.mem_cons_of_mem _ (List.mem_map_of_mem haddr)))
  obtain ⟨hok,hdenotes⟩ : (accountTrie P accounts storage).2 = .ok () ∧
      ∃ m, Denotes P E (accountTrie P accounts storage).1 m ∧
        Overwrites (addressKey P) (leafOf (rootInMemory P storage) accounts storage) accounts.keys
          (fun _ => none) m := by
    refine forEach_iterOrder hinj extends_insertAccount ?_ (MutableTrie.denotes_new _) hwithin
    intro t m e haccount _ hm hfresh hw
    obtain ⟨root,hroot⟩ := rootInMemory_ok hsafe e.2
      (fun slots hslots b hb => hE b (slotsHashed_subset haccount hslots b hb))
    exact insertAccount_spec hsafe hm haccount hroot hfresh hw
  refine ⟨?_,hdenotes⟩
  unfold computeStateRoot
  rcases hcall : accountTrie P accounts storage with ⟨trie,r⟩
  rw [hcall] at hok
  cases hok
  rfl

theorem slotKey_congr {P' : Platform} (hhash : P'.keccak256 = P.keccak256) : slotKey P' = slotKey P := by
  funext slot
  rw [slotKey, slotKey, hhash]

theorem addressKey_congr {P' : Platform} (hhash : P'.keccak256 = P.keccak256) :
    addressKey P' = addressKey P := by
  funext addr
  rw [addressKey, addressKey, hhash]

theorem mem_keys_of_slotValue {slot : H256} (h : slotValue slots slot ≠ none) : slot ∈ slots.keys := by
  rw [← AList.mem_keys, ← AList.lookup_isSome, Option.isSome_iff_ne_none]
  intro hnone
  exact h (by rw [slotValue, hnone, Option.bind_none])

theorem mem_keys_of_leafOf {rootOf : Address → AccountState → Except Fault H256} {addr : Address}
    (h : leafOf rootOf accounts storage addr ≠ none) : addr ∈ accounts.keys := by
  rw [← AList.mem_keys, ← AList.lookup_isSome, Option.isSome_iff_ne_none]
  intro hnone
  exact h (by rw [leafOf, hnone, Option.bind_none])

theorem computeStorageRoot_congr {P' : Platform} {E' : Set (List UInt8)} {slots' : Slots}
    (hhash : P'.keccak256 = P.keccak256) (hsafe : Safe P E) (hsafe' : Safe P' E')
    (hE : ∀ b ∈ slotsHashed P slots, b ∈ E) (hE' : ∀ b ∈ slotsHashed P' slots', b ∈ E')
    (hwords : slotValue slots = slotValue slots') :
    computeStorageRoot P slots = computeStorageRoot P' slots' := by
  obtain ⟨hroot,m,hm,hover⟩ := computeStorageRoot_spec hsafe hE
  obtain ⟨hroot',m',hm',hover'⟩ := computeStorageRoot_spec hsafe' hE'
  rw [slotKey_congr hhash, ← hwords] at hover'
  have hsame : m = m' := by
    apply hover.ext hover'
    intro slot hslot
    exact ⟨mem_keys_of_slotValue hslot,mem_keys_of_slotValue (hwords ▸ hslot)⟩
  rw [hroot, hroot', hm.root_eq hhash (hsame ▸ hm')]

/-- The root depends on what the accounts and slots read, not on their order. -/
theorem computeStateRoot_congr {P' : Platform} {E' : Set (List UInt8)} {accounts' : Accounts}
    {storage' : Storage} (hhash : P'.keccak256 = P.keccak256) (hsafe : Safe P E) (hsafe' : Safe P' E')
    (hE : ∀ b ∈ stateHashed P accounts storage, b ∈ E)
    (hE' : ∀ b ∈ stateHashed P' accounts' storage', b ∈ E')
    (hleaves : leafOf (rootInMemory P storage) accounts storage =
      leafOf (rootInMemory P' storage') accounts' storage') :
    computeStateRoot P accounts storage = computeStateRoot P' accounts' storage' := by
  obtain ⟨hroot,m,hm,hover⟩ := computeStateRoot_spec hsafe hE
  obtain ⟨hroot',m',hm',hover'⟩ := computeStateRoot_spec hsafe' hE'
  rw [addressKey_congr hhash, ← hleaves] at hover'
  have hsame : m = m' := by
    apply hover.ext hover'
    intro addr haddr
    exact ⟨mem_keys_of_leafOf haddr,mem_keys_of_leafOf (hleaves ▸ haddr)⟩
  rw [hroot, hroot', hm.root_eq hhash (hsame ▸ hm')]

end Roots

end ZbxChain
