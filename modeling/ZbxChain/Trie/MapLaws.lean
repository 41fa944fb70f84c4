import ZbxChain.Foundation.Machine
import ZbxChain.Trie.Contents
import Mathlib.Data.List.Infix

/-! # The trie is a map, and its root is canonical

A run starts from the empty trie and makes any calls of `insert`, `delete` and `commit`.
-/
namespace ZbxChain

theorem NodeMap.lookup_filter {h k : H256} (hk : h ≠ k) (m : NodeMap) :
    List.lookup h (m.filter (fun e => decide (e.1 ≠ k))) = m.lookup h := by
  induction m with
  | nil => rfl
  | cons e m ih =>
    obtain ⟨k',b'⟩ := e
    rw [List.filter_cons, List.lookup_cons]
    by_cases hk' : k' = k
    · have hne : h ≠ k' := fun heq => hk (heq.trans hk')
      rw [if_neg (by simpa using hk'), beq_eq_false_iff_ne.mpr hne]
      exact ih
    · rw [if_pos (by simpa using hk'), List.lookup_cons, ih]

theorem NodeMap.lookup_current (m : NodeMap) (h : H256) : m.current.lookup h = m.lookup h := by
  induction m with
  | nil => rfl
  | cons e m ih =>
    obtain ⟨k,b⟩ := e
    rw [current, List.lookup_cons, List.lookup_cons, ← ih]
    by_cases hk : h = k
    · rw [beq_iff_eq.mpr hk]
    · rw [beq_eq_false_iff_ne.mpr hk]
      exact lookup_filter hk (current m)

theorem NodeMap.nodup_current (m : NodeMap) : (m.current.map Prod.fst).Nodup := by
  induction m with
  | nil => exact List.nodup_nil
  | cons e m ih =>
    rw [current, List.map_cons, List.nodup_cons]
    refine ⟨?_,ih.sublist (List.filter_sublist.map Prod.fst)⟩
    rw [List.mem_map]
    rintro ⟨e',he',heq⟩
    have hne := (List.mem_filter.mp he').2
    simp [heq] at hne

theorem NodeMap.lookup_eq_some_iff {l : NodeMap} (h : (l.map Prod.fst).Nodup) (k : H256)
    (b : List UInt8) : l.lookup k = some b ↔ (k,b) ∈ l := by
  induction l with
  | nil => simp
  | cons e l ih =>
    obtain ⟨k',b'⟩ := e
    rw [List.map_cons, List.nodup_cons] at h
    rw [List.lookup_cons, List.mem_cons]
    by_cases hk : k = k'
    · subst hk
      have hfree : (k,b) ∉ l := fun hmem => h.1 (List.mem_map.mpr ⟨(k,b),hmem,rfl⟩)
      rw [beq_self_eq_true]
      simp [hfree, eq_comm]
    · rw [beq_eq_false_iff_ne.mpr hk, ih h.2]
      simp [hk]

theorem NodeMap.lookup_perm {l l' : NodeMap} (hperm : l.Perm l') (h : (l.map Prod.fst).Nodup)
    (k : H256) : l.lookup k = l'.lookup k := by
  have h' : (l'.map Prod.fst).Nodup := (hperm.map Prod.fst).nodup_iff.mp h
  ext b
  rw [lookup_eq_some_iff h, lookup_eq_some_iff h', hperm.mem_iff]

namespace MutableTrie

variable {P : Platform} {DB : Type} [TrieDB DB]

/-- A database that keeps what `commit` hands to it. -/
def Persists (P : Platform) (DB : Type) [TrieDB DB] : Prop :=
  ∀ t : MutableTrie DB, ∃ db, t.commit P = (fromRoot t.root db, .ok t.root) ∧
    ∀ h, (fromRoot t.root db).lookup h = t.lookup h

theorem flush_memory (store entries : NodeMap) :
    flush (⟨store⟩ : MemoryTrieDB) entries = (⟨entries.reverse ++ store⟩, .ok ()) := by
  induction entries generalizing store with
  | nil => rfl
  | cons e entries ih =>
    obtain ⟨k,b⟩ := e
    simp only [flush, TrieDB.insert]
    rw [ih, List.reverse_cons, List.append_assoc, List.singleton_append]

theorem persists_memory (P : Platform) : Persists P MemoryTrieDB := by
  intro t
  obtain ⟨root,⟨store⟩,cache⟩ := t
  have hperm : (P.iterOrder cache.current).reverse.Perm cache.current :=
    (List.reverse_perm _).trans (P.iterOrder_perm _)
  refine ⟨⟨(P.iterOrder cache.current).reverse ++ store⟩,?_,fun h => ?_⟩
  · rw [commit, flush_memory]
    rfl
  · have hlookup : (P.iterOrder cache.current).reverse.lookup h = cache.lookup h := by
      rw [← NodeMap.lookup_perm hperm.symm cache.nodup_current h, NodeMap.lookup_current]
    simp only [lookup, fromRoot, TrieDB.get, List.lookup_nil, List.lookup_append, hlookup]
    cases cache.lookup h with
    | none => rfl
    | some b => rfl

end MutableTrie

/-- The platform of the integers, with the hash that `EMPTY_ROOT` is. -/
def Platform.integersEmptyRoot : Platform :=
  { Platform.integers with
    keccak256 := fun bytes =>
      if bytes = [0x80] then emptyRoot else Platform.integers.keccak256 bytes }

theorem safe_of_list {P : Platform} {l : List (List UInt8)} (hempty : P.keccak256 [0x80] = emptyRoot)
    (hmem : [0x80] ∈ l) (hinj : ∀ a ∈ l, ∀ b ∈ l, P.keccak256 a = P.keccak256 b → a = b)
    (hfits : ∀ b ∈ l, b.length < 2 ^ 63) : Safe P {b | b ∈ l} :=
  ⟨hempty,hmem,fun a ha b hb h => hinj a ha b hb h,hfits⟩

inductive TrieCall where
  | insert (key value : List UInt8)
  | delete (key : List UInt8)
  | commit
  deriving DecidableEq

inductive TrieAnswer where
  | done
  | deleted (present : Bool)
  | committed (root : H256)
  deriving DecidableEq

namespace TrieCall
open MutableTrie (Denotes)
variable {DB : Type} [TrieDB DB]

def serve (P : Platform) (t : MutableTrie DB) :
    TrieCall → MutableTrie DB × Except Fault TrieAnswer
  | insert key value => ((t.insert P key value).1,(t.insert P key value).2.map fun _ => .done)
  | delete key => ((t.delete P key).1,(t.delete P key).2.map .deleted)
  | commit => ((t.commit P).1,(t.commit P).2.map .committed)

def after (P : Platform) (start : MutableTrie DB) (calls : List TrieCall) : MutableTrie DB :=
  Machine.final (serve P) start calls

def change (m : Contents) : TrieCall → Contents
  | insert key value => Function.update m key (some value)
  | delete key => Function.update m key none
  | commit => m

/-- The map after the calls: the value of the last insertion that is not followed by a
deletion of its key. -/
def contents (calls : List TrieCall) : Contents := calls.foldl change (fun _ => none)

def answer (m : Contents) (root : H256) : TrieCall → TrieAnswer
  | insert _ _ => .done
  | delete key => .deleted (m key).isSome
  | commit => .committed root

/-- The encodings that are cached at some time during the calls, and that of the empty
string, which `EMPTY_ROOT` is the hash of. -/
def involved (P : Platform) (start : MutableTrie DB) (calls : List TrieCall) : List (List UInt8) :=
  [0x80] :: calls.inits.flatMap (fun past => (after P start past).cache.map Prod.snd)

def NonEmptyValues (calls : List TrieCall) : Prop :=
  ∀ key value, insert key value ∈ calls → value ≠ []

variable {P : Platform} {E : Set (List UInt8)} {start : MutableTrie DB} {calls past : List TrieCall}

theorem within_involved (h : past <+: calls) :
    MutableTrie.Within {b | b ∈ involved P start calls} (after P start past) := by
  intro e he
  refine List.mem_cons_of_mem _ (List.mem_flatMap.mpr ⟨past,?_,List.mem_map_of_mem he⟩)
  rwa [List.mem_inits]

theorem serve_spec (hsafe : Safe P E) {t : MutableTrie DB} {m : Contents}
    (hm : t.Denotes P E m) {call : TrieCall} (hcommit : call = commit → MutableTrie.Persists P DB)
    (hvalue : ∀ key value, call = insert key value → value ≠ [])
    (hw : MutableTrie.Within E (serve P t call).1) :
    (serve P t call).2 = .ok (call.answer m t.root) ∧
      (serve P t call).1.Denotes P E (change m call) := by
  cases call with
  | insert key value =>
    obtain ⟨hok,hm'⟩ := hm.insert hsafe (hvalue key value rfl) hw
    refine ⟨?_,hm'⟩
    rw [serve, hok]
    rfl
  | delete key =>
    obtain ⟨hok,hm'⟩ := hm.delete hsafe hw
    refine ⟨?_,hm'⟩
    rw [serve, hok]
    rfl
  | commit =>
    obtain ⟨db,hdone,hlookup⟩ := hcommit rfl t
    rw [serve, hdone]
    exact ⟨rfl,hm.congr rfl hlookup⟩

theorem after_spec (hsafe : Safe P E) (hstart : start.Denotes P E (fun _ => none))
    (hcommit : commit ∈ calls → MutableTrie.Persists P DB) (hvalues : NonEmptyValues calls)
    (hw : ∀ past, past <+: calls → MutableTrie.Within E (after P start past)) :
    (after P start calls).Denotes P E (contents calls) := by
  induction calls using List.reverseRecOn with
  | nil => exact hstart
  | append_singleton calls call ih =>
    have hm := ih (fun h => hcommit (List.mem_append_left _ h))
      (fun key value h => hvalues key value (List.mem_append_left _ h))
      (fun past h => hw past (h.trans (List.prefix_append _ _)))
    have hlast : call ∈ calls ++ [call] := List.mem_append_right _ (List.mem_singleton_self _)
    have hwithin := hw _ (List.prefix_refl (calls ++ [call]))
    rw [after, Machine.final_append] at hwithin ⊢
    rw [contents, List.foldl_append]
    exact (serve_spec hsafe hm (fun h => hcommit (h ▸ hlast))
      (fun key value h => hvalues key value (h ▸ hlast)) hwithin).2

/-- A trie over memory answers as the map does after every call, and so does the trie that
is opened at a committed root. -/
theorem trie_is_map (calls : List TrieCall) (hvalues : NonEmptyValues calls)
    (hkeccak : Safe P {b | b ∈ involved P (MutableTrie.new (⟨[]⟩ : MemoryTrieDB)) calls}) :
    let start := MutableTrie.new (⟨[]⟩ : MemoryTrieDB)
    (∀ past call rest, calls = past ++ call :: rest →
      (serve P (after P start past) call).2 =
        .ok (call.answer (contents past) (after P start past).root)) ∧
    (∀ past, past <+: calls → ∀ key, (after P start past).get key = .ok (contents past key)) ∧
    ∀ past rest root, calls = past ++ commit :: rest →
      (serve P (after P start past) commit).2 = .ok (.committed root) → ∀ key,
        (MutableTrie.fromRoot root (after P start (past ++ [commit])).db).get key =
          .ok (contents past key) := by
  intro start
  have hmap : ∀ past, past <+: calls →
      (after P start past).Denotes P {b | b ∈ involved P start calls} (contents past) := by
    intro past hpast
    refine after_spec hkeccak (MutableTrie.denotes_new _) (fun _ => MutableTrie.persists_memory P)
      (fun key value h => hvalues key value (hpast.subset h)) ?_
    exact fun past' h => within_involved (h.trans hpast)
  refine ⟨?_,fun past hpast => (hmap past hpast).get hkeccak,?_⟩
  · rintro past call rest rfl
    have hlast : call ∈ past ++ call :: rest := List.mem_append_right _ List.mem_cons_self
    have hpast : past ++ [call] <+: past ++ call :: rest :=
      (List.prefix_append_right_inj past).mpr ⟨rest,rfl⟩
    have hwithin : MutableTrie.Within {b | b ∈ involved P start (past ++ call :: rest)}
        (after P start (past ++ [call])) := within_involved hpast
    rw [after, Machine.final_append] at hwithin
    exact (serve_spec hkeccak (hmap past (List.prefix_append past _))
      (fun _ => MutableTrie.persists_memory P) (fun key value h => hvalues key value (h ▸ hlast))
      hwithin).1
  · rintro past rest root rfl hroot
    have hm := hmap past (List.prefix_append past _)
    obtain ⟨db,hdone,hlookup⟩ := MutableTrie.persists_memory P (after P start past)
    have hafter : after P start (past ++ [commit]) =
        MutableTrie.fromRoot (after P start past).root db := by
      rw [after, Machine.final_append]
      exact congrArg Prod.fst hdone
    have hcommitted : root = (after P start past).root := by
      rw [serve, hdone] at hroot
      cases hroot
      rfl
    rw [hafter, hcommitted]
    exact Denotes.get hkeccak (hm.congr rfl hlookup)

def demoCalls : List TrieCall :=
  [insert [0x12] [7],insert [0x12,0x34] (List.replicate 40 9),commit,delete [0x12]]

theorem nonEmptyValues_cons {call : TrieCall} (hcall : ∀ key, call ≠ insert key [])
    (h : NonEmptyValues calls) : NonEmptyValues (call :: calls) := by
  intro key value hmem
  rcases List.mem_cons.mp hmem with heq | hmem
  · rintro rfl
    exact hcall key heq.symm
  · exact h key value hmem

theorem trie_is_map_demoCalls :
    (after .integersEmptyRoot (MutableTrie.new (⟨[]⟩ : MemoryTrieDB)) demoCalls).get [0x12,0x34] =
      .ok (some (List.replicate 40 9)) := by
  have hvalues : NonEmptyValues demoCalls :=
    nonEmptyValues_cons nofun (nonEmptyValues_cons nofun (nonEmptyValues_cons nofun
      (nonEmptyValues_cons nofun nofun)))
  have hkeccak : Safe .integersEmptyRoot
      {b | b ∈ involved .integersEmptyRoot (MutableTrie.new (⟨[]⟩ : MemoryTrieDB)) demoCalls} :=
    safe_of_list (by decide +kernel) (by decide +kernel) (by decide +kernel) (by decide +kernel)
  exact (trie_is_map demoCalls hvalues hkeccak).2.1 demoCalls (List.prefix_refl demoCalls) [0x12,0x34]

/-- Two tries over any databases that were edited to the same map have the same root. -/
theorem root_canonical {DB' : Type} [TrieDB DB'] (db : DB) (db' : DB') (calls calls' : List TrieCall)
    (hedits : commit ∉ calls) (hedits' : commit ∉ calls')
    (hvalues : NonEmptyValues calls) (hvalues' : NonEmptyValues calls')
    (hkeccak : Safe P {b | b ∈ involved P (MutableTrie.new db) calls})
    (hkeccak' : Safe P {b | b ∈ involved P (MutableTrie.new db') calls'})
    (hsame : contents calls = contents calls') :
    (after P (MutableTrie.new db) calls).root = (after P (MutableTrie.new db') calls').root ∧
      (contents calls = (fun _ => none) → (after P (MutableTrie.new db) calls).root = emptyRoot) := by
  have hm := after_spec hkeccak (MutableTrie.denotes_new db) (fun h => absurd h hedits) hvalues
    (fun _ h => within_involved h)
  have hm' := after_spec hkeccak' (MutableTrie.denotes_new db') (fun h => absurd h hedits') hvalues'
    (fun _ h => within_involved h)
  refine ⟨hm.root_eq rfl (hsame ▸ hm'),fun hempty => ?_⟩
  rw [hempty] at hm
  exact hm.root_empty

def longWay : List TrieCall := [insert [0x12] [7],insert [0x12,0x34] (List.replicate 40 9),delete [0x12]]

def shortWay : List TrieCall := [insert [0x12,0x34] (List.replicate 40 9)]

theorem contents_longWay : contents longWay = contents shortWay := by
  funext key
  simp only [contents, longWay, shortWay, List.foldl_cons, List.foldl_nil, change]
  by_cases hkey : key = [0x12]
  · subst hkey
    rfl
  · rw [Function.update_of_ne hkey]
    by_cases hother : key = [0x12,0x34]
    · subst hother
      rfl
    · rw [Function.update_of_ne hother, Function.update_of_ne hkey, Function.update_of_ne hother]

theorem root_canonical_longWay :
    (after .integersEmptyRoot (MutableTrie.new (⟨[]⟩ : MemoryTrieDB)) longWay).root =
      (after .integersEmptyRoot (MutableTrie.new (⟨[]⟩ : MemoryTrieDB)) shortWay).root := by
  have hlong : NonEmptyValues longWay :=
    nonEmptyValues_cons nofun (nonEmptyValues_cons nofun (nonEmptyValues_cons nofun nofun))
  have hshort : NonEmptyValues shortWay := nonEmptyValues_cons nofun nofun
  have hkeccak : Safe .integersEmptyRoot
      {b | b ∈ involved .integersEmptyRoot (MutableTrie.new (⟨[]⟩ : MemoryTrieDB)) longWay} :=
    safe_of_list (by decide +kernel) (by decide +kernel) (by decide +kernel) (by decide +kernel)
  have hkeccak' : Safe .integersEmptyRoot
      {b | b ∈ involved .integersEmptyRoot (MutableTrie.new (⟨[]⟩ : MemoryTrieDB)) shortWay} :=
    safe_of_list (by decide +kernel) (by decide +kernel) (by decide +kernel) (by decide +kernel)
  exact (root_canonical _ _ longWay shortWay (by decide) (by decide) hlong hshort hkeccak hkeccak'
    contents_longWay).1

end TrieCall

end ZbxChain
