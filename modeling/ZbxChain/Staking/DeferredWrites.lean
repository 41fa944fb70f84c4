import ZbxChain.Staking.Ledger

/-! # A write-set that is put off, and the database that it is written to

What is read through the write-set is what the database holds once the write-set is stored, and
what it would hold if every write had gone to it at once.
-/
namespace ZbxChain.Staking

/-- The staking columns, and the rows that are not of the length of an amount, each with the
error of its decoding. A write leaves a row that can be decoded. -/
structure StakingDatabase where
  columns : StakingColumns
  undecodable : DelegationKey → Option String

inductive StakingWrite where
  | putDelegation (key : DelegationKey) (amount : ℕ)
  | putUnbondingEntry (key : UnbondingKey) (amount : ℕ)
  | deleteUnbondingEntry (key : UnbondingKey)

/-- Everything that can be read; the matured entries have no order. -/
@[ext] structure StakingReads where
  delegation : DelegationKey → Except StakingError ℕ
  unbondingEntry : UnbondingKey → Except StakingError ℕ
  maturedUnbondings : Address → UInt64 → Except StakingError (Multiset (UInt64 × Address × ℕ))

namespace StakingDatabase

def faults (db : StakingDatabase) : LedgerFaults := { LedgerFaults.none with getDelegation := db.undecodable }

def write (db : StakingDatabase) : StakingWrite → StakingDatabase
  | .putDelegation key amount =>
    ⟨db.columns.putDelegation key amount,Function.update db.undecodable key none⟩
  | .putUnbondingEntry key amount => { db with columns := db.columns.putUnbondingEntry key amount }
  | .deleteUnbondingEntry key => { db with columns := db.columns.deleteUnbondingEntry key }

def applyStakingDelta (db : StakingDatabase) (delta : StakingDelta) : StakingDatabase where
  columns := db.columns.applyStakingDelta delta
  undecodable := fun key => if (delta.delegations.lookup key).isSome then none else db.undecodable key

def reads (db : StakingDatabase) : StakingReads where
  delegation := fun key => stored (db.undecodable key) (db.columns.getDelegation key)
  unbondingEntry := fun key => .ok (db.columns.getUnbondingEntry key)
  maturedUnbondings := fun who currentHeight =>
    .ok (Multiset.ofList (db.columns.iterMaturedUnbondingsFor who currentHeight))

end StakingDatabase

namespace StakingDelta

def write (delta : StakingDelta) : StakingWrite → StakingDelta
  | .putDelegation key amount => delta.putDelegation key amount
  | .putUnbondingEntry key amount => delta.putUnbondingEntry key amount
  | .deleteUnbondingEntry key => delta.deleteUnbondingEntry key

def reads (P : Platform) (delta : StakingDelta) (db : StakingDatabase) : StakingReads where
  delegation := fun key => delta.getDelegation db.faults db.columns key
  unbondingEntry := fun key => delta.getUnbondingEntry db.faults db.columns key
  maturedUnbondings := fun who currentHeight =>
    (delta.iterMaturedUnbondingsFor db.faults db.columns P who currentHeight).map Multiset.ofList

def Settled (delta : StakingDelta) : Prop :=
  ∀ key ∈ delta.unbondingDeletes, delta.unbondingPuts.lookup key = none

/-- What the write-set makes of an entry of the column. -/
def entryOver (delta : StakingDelta) (db : StakingColumns) (key : UnbondingKey) : Option ℕ :=
  if key ∈ delta.unbondingDeletes then none
  else (delta.unbondingPuts.lookup key).or (db.unbonding.lookup key)

end StakingDelta

section Delegations
variable {db : StakingColumns} {key : DelegationKey} {n : ℕ}

theorem getDelegation_putDelegation (db : StakingColumns) (k : DelegationKey) (n : ℕ) (key : DelegationKey) :
    (db.putDelegation k n).getDelegation key = if key = k then n else db.getDelegation key := by
  unfold StakingColumns.getDelegation StakingColumns.putDelegation
  dsimp only
  by_cases hk : key = k
  · subst hk
    rw [if_pos rfl]
    split
    · rename_i hzero
      rw [AList.lookup_erase, hzero, Option.getD_none]
    · rw [AList.lookup_insert, Option.getD_some]
  · rw [if_neg hk]
    split
    · rw [AList.lookup_erase_ne hk]
    · rw [AList.lookup_insert_ne hk]

theorem getDelegation_foldl (l : List (Σ _ : DelegationKey, ℕ)) (hl : l.NodupKeys) (db : StakingColumns)
    (key : DelegationKey) :
    (l.foldl (fun db e => db.putDelegation e.1 e.2) db).getDelegation key =
      (l.dlookup key).getD (db.getDelegation key) := by
  induction l generalizing db with
  | nil => rfl
  | cons e l ih =>
    obtain ⟨k,v⟩ := e
    have hfresh := List.notMem_keys_of_nodupKeys_cons hl
    rw [List.foldl_cons, ih (List.nodupKeys_of_nodupKeys_cons hl), getDelegation_putDelegation]
    by_cases hk : key = k
    · subst hk
      rw [List.dlookup_eq_none.mpr hfresh, List.dlookup_cons_eq, Option.getD_none, Option.getD_some, if_pos rfl]
    · rw [List.dlookup_cons_ne _ _ hk, if_neg hk]

theorem getDelegation_applyStakingDelta (db : StakingColumns) (delta : StakingDelta) (key : DelegationKey) :
    (db.applyStakingDelta delta).getDelegation key =
      (delta.delegations.lookup key).getD (db.getDelegation key) :=
  getDelegation_foldl _ delta.delegations.nodupKeys db key

end Delegations

section Entries
variable {db db' : StakingColumns} {delta : StakingDelta} {key : UnbondingKey} {who : Address}
  {currentHeight unlock : UInt64} {validator : Address} {n : ℕ}

theorem unbonding_foldl (l : List (Σ _ : DelegationKey, ℕ)) (db : StakingColumns) :
    (l.foldl (fun db e => db.putDelegation e.1 e.2) db).unbonding = db.unbonding := by
  induction l generalizing db with
  | nil => rfl
  | cons e l ih => exact ih (db.putDelegation e.1 e.2)

theorem lookup_applyStakingDelta (db : StakingColumns) (delta : StakingDelta) (key : UnbondingKey) :
    (db.applyStakingDelta delta).unbonding.lookup key = delta.entryOver db key := by
  have hputs : ((delta.delegations.entries.foldl (fun db e => db.putDelegation e.1 e.2) db).unbonding.insertAll
      delta.unbondingPuts.entries).lookup key =
      (delta.unbondingPuts.lookup key).or (db.unbonding.lookup key) := by
    rw [unbonding_foldl]
    exact AList.lookup_insertAll delta.unbondingPuts.nodupKeys db.unbonding key
  apply Option.ext
  intro n
  unfold StakingColumns.applyStakingDelta StakingDelta.entryOver
  dsimp only
  rw [AList.lookup_retain, hputs]
  by_cases hdeleted : key ∈ delta.unbondingDeletes
  · simp [hdeleted]
  · simp [hdeleted]

theorem mem_iterMaturedUnbondingsFor :
    (unlock,validator,n) ∈ db.iterMaturedUnbondingsFor who currentHeight ↔
      db.unbonding.lookup (unlock,who,validator) = some n ∧ unlock ≤ currentHeight := by
  unfold StakingColumns.iterMaturedUnbondingsFor
  simp only [List.mem_map, List.mem_filter, (StableSort.sortDesc_perm _).mem_iff, Bool.and_eq_true,
    decide_eq_true_eq, Prod.mk.injEq]
  constructor
  · rintro ⟨⟨⟨unlock,who,validator⟩,n⟩,⟨hmem,hle,rfl⟩,rfl,rfl,rfl⟩
    exact ⟨AList.mem_lookup_iff.mpr hmem,hle⟩
  · rintro ⟨hlookup,hle⟩
    exact ⟨⟨(unlock,who,validator),n⟩,⟨AList.mem_lookup_iff.mp hlookup,hle,rfl⟩,rfl,rfl,rfl⟩

theorem nodup_placesOf {l : List (Σ _ : UnbondingKey, ℕ)} (hl : (l.map Sigma.fst).Nodup)
    (hwho : ∀ e ∈ l, e.1.2.1 = who) :
    (l.map (fun e => ((e.1.1,e.1.2.2) : UInt64 × Address))).Nodup := by
  have hkeys : l.map Sigma.fst = (l.map (fun e => ((e.1.1,e.1.2.2) : UInt64 × Address))).map
      (fun place => (place.1,who,place.2)) := by
    rw [List.map_map]
    apply List.map_congr_left
    intro e he
    rw [Function.comp_apply, ← hwho e he]
  rw [hkeys] at hl
  exact hl.of_map _

theorem nodup_iterMaturedUnbondingsFor (db : StakingColumns) (who : Address) (currentHeight : UInt64) :
    ((db.iterMaturedUnbondingsFor who currentHeight).map (fun e => ((e.1,e.2.1) : UInt64 × Address))).Nodup := by
  unfold StakingColumns.iterMaturedUnbondingsFor
  rw [List.map_map]
  apply nodup_placesOf
  · refine List.Nodup.sublist (List.Sublist.map _ List.filter_sublist) ?_
    exact ((StableSort.sortDesc_perm _).map Sigma.fst).nodup_iff.mpr db.unbonding.keys_nodup
  · intro e he
    have htest := (List.mem_filter.mp he).2
    rw [Bool.and_eq_true] at htest
    exact of_decide_eq_true htest.2

theorem maturedUnbondings_congr {l : List (UInt64 × Address × ℕ)}
    (hnodup : (l.map (fun e => ((e.1,e.2.1) : UInt64 × Address))).Nodup)
    (hmem : ∀ unlock validator n, (unlock,validator,n) ∈ l ↔
      db.unbonding.lookup (unlock,who,validator) = some n ∧ unlock ≤ currentHeight) :
    Multiset.ofList l = Multiset.ofList (db.iterMaturedUnbondingsFor who currentHeight) := by
  rw [Multiset.coe_eq_coe]
  refine (List.perm_ext_iff_of_nodup (hnodup.of_map _)
    ((nodup_iterMaturedUnbondingsFor db who currentHeight).of_map _)).mpr ?_
  rintro ⟨unlock,validator,n⟩
  rw [hmem, mem_iterMaturedUnbondingsFor]

end Entries

section Reads
variable {P : Platform} {db db' : StakingDatabase} {delta : StakingDelta}

/-- Databases that hold the same, whatever the order of their tables. -/
structure StakingDatabase.SameRows (db db' : StakingDatabase) : Prop where
  delegation : ∀ key, db'.reads.delegation key = db.reads.delegation key
  entry : ∀ key, db'.columns.unbonding.lookup key = db.columns.unbonding.lookup key

theorem reads_of_sameRows (h : db.SameRows db') : db'.reads = db.reads := by
  apply StakingReads.ext
  · funext key
    exact h.delegation key
  · funext key
    simp only [StakingDatabase.reads, StakingColumns.getUnbondingEntry, h.entry]
  · funext who currentHeight
    simp only [StakingDatabase.reads]
    rw [maturedUnbondings_congr (nodup_iterMaturedUnbondingsFor db'.columns who currentHeight)]
    intro unlock validator n
    rw [mem_iterMaturedUnbondingsFor, h.entry]

/-- A delegation after the delta is applied is what the delta has, or what was stored. -/
theorem delegation_applyStakingDelta (db : StakingDatabase) (delta : StakingDelta) (key : DelegationKey) :
    (db.applyStakingDelta delta).reads.delegation key =
      match delta.delegations.lookup key with
      | some v => .ok v
      | none => db.reads.delegation key := by
  simp only [StakingDatabase.reads, StakingDatabase.applyStakingDelta, getDelegation_applyStakingDelta]
  cases delta.delegations.lookup key with
  | none => rfl
  | some v => rfl

theorem delegation_write (db : StakingDatabase) (op : StakingWrite) (key : DelegationKey) :
    (db.write op).reads.delegation key =
      match op with
      | .putDelegation k n => if key = k then .ok n else db.reads.delegation key
      | _ => db.reads.delegation key := by
  cases op with
  | putDelegation k n =>
    simp only [StakingDatabase.reads, StakingDatabase.write, getDelegation_putDelegation, Function.update_apply]
    split
    · rfl
    · rfl
  | putUnbondingEntry k n => rfl
  | deleteUnbondingEntry k => rfl

theorem getDelegation_through (db : StakingDatabase) (delta : StakingDelta) (key : DelegationKey) :
    delta.getDelegation db.faults db.columns key = (db.applyStakingDelta delta).reads.delegation key := by
  rw [delegation_applyStakingDelta, StakingDelta.getDelegation]
  rfl

theorem getUnbondingEntry_through (h : delta.Settled) (key : UnbondingKey) :
    delta.getUnbondingEntry db.faults db.columns key = (db.applyStakingDelta delta).reads.unbondingEntry key := by
  simp only [StakingDelta.getUnbondingEntry, StakingDatabase.reads, StakingDatabase.applyStakingDelta,
    StakingColumns.getUnbondingEntry, lookup_applyStakingDelta, StakingDelta.entryOver]
  split
  · rename_i hdeleted
    rw [h key hdeleted]
  · cases delta.unbondingPuts.lookup key with
    | none => rfl
    | some v => rfl

def keptOnDisk (delta : StakingDelta) (db : StakingColumns) (who : Address) (currentHeight : UInt64) :
    List (UInt64 × Address × ℕ) :=
  ((db.iterMaturedUnbondingsFor who currentHeight).filter
    (fun e => (e.1,who,e.2.1) ∉ delta.unbondingDeletes)).map
      (fun e => (e.1,e.2.1,(delta.unbondingPuts.lookup (e.1,who,e.2.1)).getD e.2.2))

def freshPuts (P : Platform) (delta : StakingDelta) (db : StakingColumns) (who : Address)
    (currentHeight : UInt64) : List (Σ _ : UnbondingKey, ℕ) :=
  (P.iterOrder delta.unbondingPuts.entries).filter (fun e => e.1.2.1 = who && e.1.1 ≤ currentHeight &&
    !(keptOnDisk delta db who currentHeight).any (fun d => d.1 = e.1.1 && d.2.1 = e.1.2.2))

theorem iterMaturedUnbondingsFor_eq (P : Platform) (db : StakingDatabase) (delta : StakingDelta)
    (who : Address) (currentHeight : UInt64) :
    delta.iterMaturedUnbondingsFor db.faults db.columns P who currentHeight =
      .ok (keptOnDisk delta db.columns who currentHeight ++
        (freshPuts P delta db.columns who currentHeight).map (fun e => (e.1.1,e.1.2.2,e.2))) := rfl

section Matured
variable {columns : StakingColumns} {who : Address} {currentHeight unlock : UInt64} {validator : Address} {n : ℕ}

theorem mem_keptOnDisk : (unlock,validator,n) ∈ keptOnDisk delta columns who currentHeight ↔
    (unlock,who,validator) ∉ delta.unbondingDeletes ∧ unlock ≤ currentHeight ∧
      ∃ m, columns.unbonding.lookup (unlock,who,validator) = some m ∧
        (delta.unbondingPuts.lookup (unlock,who,validator)).getD m = n := by
  simp only [keptOnDisk, List.mem_map, List.mem_filter, decide_eq_true_eq, Prod.exists, Prod.mk.injEq]
  constructor
  · rintro ⟨unlock,validator,m,⟨hmem,hkept⟩,rfl,rfl,hn⟩
    obtain ⟨hlookup,hle⟩ := mem_iterMaturedUnbondingsFor.mp hmem
    exact ⟨hkept,hle,m,hlookup,hn⟩
  · rintro ⟨hkept,hle,m,hlookup,hn⟩
    exact ⟨unlock,validator,m,⟨mem_iterMaturedUnbondingsFor.mpr ⟨hlookup,hle⟩,hkept⟩,rfl,rfl,hn⟩

theorem any_keptOnDisk : (keptOnDisk delta columns who currentHeight).any
      (fun d => d.1 = unlock && d.2.1 = validator) = true ↔
    (unlock,who,validator) ∉ delta.unbondingDeletes ∧ unlock ≤ currentHeight ∧
      ∃ m, columns.unbonding.lookup (unlock,who,validator) = some m := by
  rw [List.any_eq_true]
  constructor
  · rintro ⟨⟨unlock',validator',n⟩,hmem,htest⟩
    rw [Bool.and_eq_true, decide_eq_true_eq, decide_eq_true_eq] at htest
    obtain ⟨rfl,rfl⟩ := htest
    obtain ⟨hkept,hle,m,hlookup,-⟩ := mem_keptOnDisk.mp hmem
    exact ⟨hkept,hle,m,hlookup⟩
  · rintro ⟨hkept,hle,m,hlookup⟩
    exact ⟨(unlock,validator,_),mem_keptOnDisk.mpr ⟨hkept,hle,m,hlookup,rfl⟩,by simp⟩

theorem mem_freshPuts {key : UnbondingKey} : ⟨key,n⟩ ∈ freshPuts P delta columns who currentHeight ↔
    delta.unbondingPuts.lookup key = some n ∧ key.2.1 = who ∧ key.1 ≤ currentHeight ∧
      ¬ (keptOnDisk delta columns who currentHeight).any (fun d => d.1 = key.1 && d.2.1 = key.2.2) = true := by
  simp only [freshPuts, List.mem_filter, P.mem_iterOrder, Bool.and_eq_true, decide_eq_true_eq,
    Bool.not_eq_true', Bool.not_eq_true]
  rw [← AList.mem_lookup_iff, Option.mem_def]
  tauto

theorem mem_maturedThrough (h : delta.Settled) :
    (unlock,validator,n) ∈ keptOnDisk delta columns who currentHeight ++
        (freshPuts P delta columns who currentHeight).map (fun e => (e.1.1,e.1.2.2,e.2)) ↔
      delta.entryOver columns (unlock,who,validator) = some n ∧ unlock ≤ currentHeight := by
  have hfresh : (unlock,validator,n) ∈
      (freshPuts P delta columns who currentHeight).map (fun e => (e.1.1,e.1.2.2,e.2)) ↔
      ⟨(unlock,who,validator),n⟩ ∈ freshPuts P delta columns who currentHeight := by
    rw [List.mem_map]
    constructor
    · rintro ⟨⟨⟨unlock,who',validator⟩,n⟩,hmem,hsame⟩
      cases hsame
      obtain ⟨-,rfl,-,-⟩ := mem_freshPuts.mp hmem
      exact hmem
    · exact fun hmem => ⟨_,hmem,rfl⟩
  rw [List.mem_append, hfresh, mem_keptOnDisk, mem_freshPuts, any_keptOnDisk, StakingDelta.entryOver]
  by_cases hdeleted : (unlock,who,validator) ∈ delta.unbondingDeletes
  · have hnone := h _ hdeleted
    simp [hdeleted, hnone]
  · cases hput : delta.unbondingPuts.lookup (unlock,who,validator) with
    | none =>
      simp only [hdeleted, not_false_eq_true, true_and, Option.getD_none, if_false, Option.none_or,
        reduceCtorEq, false_and, or_false, exists_eq_right]
      exact and_comm
    | some v =>
      cases hdisk : columns.unbonding.lookup (unlock,who,validator) with
      | none => simp [hdeleted]
      | some m => simp [hdeleted, and_comm]

theorem nodup_maturedThrough (P : Platform) (delta : StakingDelta) (columns : StakingColumns) (who : Address)
    (currentHeight : UInt64) :
    ((keptOnDisk delta columns who currentHeight ++
      (freshPuts P delta columns who currentHeight).map (fun e => (e.1.1,e.1.2.2,e.2))).map
        (fun e => ((e.1,e.2.1) : UInt64 × Address))).Nodup := by
  rw [List.map_append, List.map_map, List.nodup_append]
  refine ⟨?_,?_,?_⟩
  · unfold keptOnDisk
    rw [List.map_map]
    exact (nodup_iterMaturedUnbondingsFor columns who currentHeight).sublist
      (List.Sublist.map _ List.filter_sublist)
  · apply nodup_placesOf
    · refine List.Nodup.sublist (List.Sublist.map _ List.filter_sublist) ?_
      exact ((P.iterOrder_perm _).map Sigma.fst).nodup_iff.mpr delta.unbondingPuts.keys_nodup
    · rintro ⟨key,n⟩ hmem
      exact (mem_freshPuts.mp hmem).2.1
  · rintro place hkept place' hfresh rfl
    obtain ⟨d,hd,rfl⟩ := List.mem_map.mp hkept
    obtain ⟨⟨key,n⟩,hmem,hsame⟩ := List.mem_map.mp hfresh
    refine (mem_freshPuts.mp hmem).2.2.2 (List.any_eq_true.mpr ⟨d,hd,?_⟩)
    obtain ⟨hunlock,hvalidator⟩ := Prod.mk.inj hsame
    dsimp only at hunlock hvalidator
    simp only [hunlock, hvalidator, decide_true, Bool.and_true]

end Matured

theorem reads_applyStakingDelta (P : Platform) (db : StakingDatabase) (h : delta.Settled) :
    delta.reads P db = (db.applyStakingDelta delta).reads := by
  apply StakingReads.ext
  · funext key
    exact getDelegation_through db delta key
  · funext key
    exact getUnbondingEntry_through h key
  · funext who currentHeight
    simp only [StakingDelta.reads, StakingDatabase.reads, iterMaturedUnbondingsFor_eq, Except.map]
    rw [maturedUnbondings_congr (nodup_maturedThrough P delta db.columns who currentHeight)]
    intro unlock validator n
    rw [mem_maturedThrough h, StakingDatabase.applyStakingDelta, lookup_applyStakingDelta]

end Reads

section Writes
variable {delta : StakingDelta}

theorem settled_write (h : delta.Settled) (op : StakingWrite) : (delta.write op).Settled := by
  intro key hkey
  cases op with
  | putDelegation k n => exact h key hkey
  | putUnbondingEntry k n =>
    obtain ⟨hne,hdeleted⟩ := Finset.mem_erase.mp hkey
    simp only [StakingDelta.write, StakingDelta.putUnbondingEntry]
    rw [AList.lookup_insert_ne hne]
    exact h key hdeleted
  | deleteUnbondingEntry k =>
    simp only [StakingDelta.write, StakingDelta.deleteUnbondingEntry]
    rcases Finset.mem_insert.mp hkey with rfl | hdeleted
    · exact AList.lookup_erase _ _
    · by_cases hk : key = k
      · rw [hk, AList.lookup_erase]
      · rw [AList.lookup_erase_ne hk]
        exact h key hdeleted

theorem unbonding_write (db : StakingDatabase) (op : StakingWrite) (key : UnbondingKey) :
    (db.write op).columns.unbonding.lookup key =
      match op with
      | .putDelegation _ _ => db.columns.unbonding.lookup key
      | .putUnbondingEntry k n => if key = k then some n else db.columns.unbonding.lookup key
      | .deleteUnbondingEntry k => if key = k then none else db.columns.unbonding.lookup key := by
  cases op with
  | putDelegation k n => rfl
  | putUnbondingEntry k n =>
    simp only [StakingDatabase.write, StakingColumns.putUnbondingEntry]
    by_cases hk : key = k
    · rw [hk, AList.lookup_insert, if_pos rfl]
    · rw [AList.lookup_insert_ne hk, if_neg hk]
  | deleteUnbondingEntry k =>
    simp only [StakingDatabase.write, StakingColumns.deleteUnbondingEntry]
    by_cases hk : key = k
    · rw [hk, AList.lookup_erase, if_pos rfl]
    · rw [AList.lookup_erase_ne hk, if_neg hk]

theorem sameRows_write {db db' : StakingDatabase} (h : db.SameRows db') (op : StakingWrite) :
    (db.write op).SameRows (db'.write op) where
  delegation := by
    intro key
    rw [delegation_write, delegation_write, h.delegation]
  entry := by
    intro key
    rw [unbonding_write, unbonding_write, h.entry]

/-- One more write in the write-set is one more write to the database that it is stored in. -/
theorem sameRows_applyStakingDelta (db : StakingDatabase) (delta : StakingDelta) (op : StakingWrite) :
    ((db.applyStakingDelta delta).write op).SameRows (db.applyStakingDelta (delta.write op)) where
  delegation := by
    intro key
    rw [delegation_write, delegation_applyStakingDelta, delegation_applyStakingDelta]
    cases op with
    | putDelegation k n =>
      simp only [StakingDelta.write, StakingDelta.putDelegation]
      by_cases hk : key = k
      · rw [hk, AList.lookup_insert, if_pos rfl]
      · rw [AList.lookup_insert_ne hk, if_neg hk]
    | putUnbondingEntry k n => rfl
    | deleteUnbondingEntry k => rfl
  entry := by
    intro key
    rw [unbonding_write]
    simp only [StakingDatabase.applyStakingDelta, lookup_applyStakingDelta]
    cases op with
    | putDelegation k n => rfl
    | putUnbondingEntry k n =>
      simp only [StakingDelta.write, StakingDelta.putUnbondingEntry, StakingDelta.entryOver]
      by_cases hk : key = k
      · subst hk
        simp only [AList.lookup_insert, Finset.notMem_erase, if_false, Option.some_or, if_true]
      · rw [AList.lookup_insert_ne hk, if_neg hk]
        simp only [Finset.mem_erase, hk, ne_eq, not_false_eq_true, true_and]
    | deleteUnbondingEntry k =>
      simp only [StakingDelta.write, StakingDelta.deleteUnbondingEntry, StakingDelta.entryOver]
      by_cases hk : key = k
      · simp only [hk, Finset.mem_insert_self, if_true]
      · rw [AList.lookup_erase_ne hk, if_neg hk]
        simp only [Finset.mem_insert, hk, false_or]

theorem settled_writes (h : delta.Settled) (ops : List StakingWrite) :
    (ops.foldl StakingDelta.write delta).Settled := by
  induction ops generalizing delta with
  | nil => exact h
  | cons op ops ih => exact ih (settled_write h op)

theorem sameRows_writes (db : StakingDatabase) (ops : List StakingWrite) {delta : StakingDelta}
    {db' : StakingDatabase} (h : db'.SameRows (db.applyStakingDelta delta)) :
    (ops.foldl StakingDatabase.write db').SameRows
      (db.applyStakingDelta (ops.foldl StakingDelta.write delta)) := by
  induction ops generalizing delta db' with
  | nil => exact h
  | cons op ops ih =>
    apply ih
    have hstep := sameRows_applyStakingDelta db delta op
    have hwritten := sameRows_write h op
    exact ⟨fun key => (hstep.delegation key).trans (hwritten.delegation key),
      fun key => (hstep.entry key).trans (hwritten.entry key)⟩

theorem sameRows_new (db : StakingDatabase) : db.SameRows (db.applyStakingDelta .new) where
  delegation := fun key => delegation_applyStakingDelta db .new key
  entry := fun key => (lookup_applyStakingDelta db.columns .new key).trans rfl

end Writes

/-- After any writes, what is read through the write-set is what is read from the database once
the write-set is stored in it, and what is read from a database that got the writes one by one. -/
theorem deferred_writes_transparent (P : Platform) (db : StakingDatabase) (ops : List StakingWrite) :
    (ops.foldl StakingDelta.write .new).reads P db =
        (db.applyStakingDelta (ops.foldl StakingDelta.write .new)).reads ∧
      (ops.foldl StakingDelta.write .new).reads P db = (ops.foldl StakingDatabase.write db).reads := by
  have hnew : StakingDelta.new.Settled := fun key hkey => absurd hkey (Finset.notMem_empty key)
  have hstored := reads_applyStakingDelta P db (settled_writes hnew ops)
  have hwritten := reads_of_sameRows (sameRows_writes db ops (sameRows_new db))
  exact ⟨hstored,hstored.trans hwritten⟩

end ZbxChain.Staking
