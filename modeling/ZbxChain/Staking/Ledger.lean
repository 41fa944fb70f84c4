import ZbxChain.Staking.Validator

/-! # The staking columns of the database, and the write-set that is put off

Delegations and unbonding entries are read through a write-set that a block builds up, and
the columns get it when the block is stored. Of the metadata the proposals are stored at once.
-/
namespace ZbxChain.Staking

abbrev DelegationKey := Address × Address

abbrev UnbondingKey := UInt64 × Address × Address

structure StakingColumns where
  delegations : Table DelegationKey ℕ
  unbonding : Table UnbondingKey ℕ

/-- The errors of the storage layer in what the dispatcher reads and writes. -/
structure LedgerFaults where
  getDelegation : DelegationKey → Option String
  getUnbonding : UnbondingKey → Option String
  iterUnbondings : Option String
  getProposalCounter : Option String
  putProposalCounter : Option String
  getProposals : Option String
  putProposals : Option String

def LedgerFaults.none : LedgerFaults :=
  ⟨fun _ => .none,fun _ => .none,.none,.none,.none,.none,.none⟩

/-- A storage error as the dispatcher reports it. -/
def stored {α : Type} (fault : Option String) (a : α) : Except StakingError α :=
  match fault with
  | some e => .error (.persistence e)
  | none => .ok a

namespace StakingColumns

/-- A row of zero is deleted. -/
def putDelegation (db : StakingColumns) (key : DelegationKey) (amount : ℕ) : StakingColumns :=
  { db with delegations :=
      if amount = 0 then db.delegations.erase key else db.delegations.insert key amount }

def getDelegation (db : StakingColumns) (key : DelegationKey) : ℕ := (db.delegations.lookup key).getD 0

/-- What is written replaces what was there. -/
def putUnbondingEntry (db : StakingColumns) (key : UnbondingKey) (amount : ℕ) : StakingColumns :=
  { db with unbonding := db.unbonding.insert key amount }

def deleteUnbondingEntry (db : StakingColumns) (key : UnbondingKey) : StakingColumns :=
  { db with unbonding := db.unbonding.erase key }

def getUnbondingEntry (db : StakingColumns) (key : UnbondingKey) : ℕ := (db.unbonding.lookup key).getD 0

def UnbondingKey.order (k : UnbondingKey) : ℕ ×ₗ ℕ ×ₗ ℕ :=
  toLex (k.1.toNat,toLex (k.2.1.toNat,k.2.2.toNat))

def iterMaturedUnbondingsFor (db : StakingColumns) (who : Address) (currentHeight : UInt64) :
    List (UInt64 × Address × ℕ) :=
  (((StableSort.sortDesc (fun e : (Σ _ : UnbondingKey, ℕ) => OrderDual.toDual (UnbondingKey.order e.1))
    db.unbonding.entries).filter (fun e => e.1.1 ≤ currentHeight && e.1.2.1 = who)).map
      (fun e => (e.1.1,e.1.2.2,e.2)))

end StakingColumns

structure StakingDelta where
  delegations : Table DelegationKey ℕ
  unbondingPuts : Table UnbondingKey ℕ
  unbondingDeletes : Finset UnbondingKey

namespace StakingDelta

def new : StakingDelta := ⟨∅,∅,∅⟩

def isEmpty (delta : StakingDelta) : Bool :=
  delta.delegations.entries.isEmpty && delta.unbondingPuts.entries.isEmpty &&
    decide (delta.unbondingDeletes = ∅)

variable (faults : LedgerFaults) (db : StakingColumns)

def getDelegation (delta : StakingDelta) (key : DelegationKey) : Except StakingError ℕ :=
  match delta.delegations.lookup key with
  | some v => .ok v
  | none => stored (faults.getDelegation key) (db.getDelegation key)

def putDelegation (delta : StakingDelta) (key : DelegationKey) (amount : ℕ) : StakingDelta :=
  { delta with delegations := delta.delegations.insert key amount }

def getUnbondingEntry (delta : StakingDelta) (key : UnbondingKey) : Except StakingError ℕ :=
  if key ∈ delta.unbondingDeletes then .ok ((delta.unbondingPuts.lookup key).getD 0)
  else match delta.unbondingPuts.lookup key with
    | some v => .ok v
    | none => stored (faults.getUnbonding key) (db.getUnbondingEntry key)

def putUnbondingEntry (delta : StakingDelta) (key : UnbondingKey) (amount : ℕ) : StakingDelta :=
  { delta with
    unbondingDeletes := delta.unbondingDeletes.erase key
    unbondingPuts := delta.unbondingPuts.insert key amount }

/-- The entries on disk that are not deleted, as far as they are overwritten with what they
were overwritten by, and then the new ones. -/
def iterMaturedUnbondingsFor (P : Platform) (delta : StakingDelta) (who : Address)
    (currentHeight : UInt64) : Except StakingError (List (UInt64 × Address × ℕ)) := do
  let onDisk ← stored faults.iterUnbondings (db.iterMaturedUnbondingsFor who currentHeight)
  let onDisk := (onDisk.filter (fun e => (e.1,who,e.2.1) ∉ delta.unbondingDeletes)).map
    (fun e => (e.1,e.2.1,(delta.unbondingPuts.lookup (e.1,who,e.2.1)).getD e.2.2))
  let fresh := (P.iterOrder delta.unbondingPuts.entries).filter (fun e =>
    e.1.2.1 = who && e.1.1 ≤ currentHeight && !onDisk.any (fun d => d.1 = e.1.1 && d.2.1 = e.1.2.2))
  return onDisk ++ fresh.map (fun e => (e.1.1,e.1.2.2,e.2))

def deleteUnbondingEntry (delta : StakingDelta) (key : UnbondingKey) : StakingDelta :=
  { delta with
    unbondingPuts := delta.unbondingPuts.erase key
    unbondingDeletes := insert key delta.unbondingDeletes }

def deleteUnbondingEntries (delta : StakingDelta) (delegator : Address)
    (entries : List (UInt64 × Address)) : StakingDelta :=
  entries.foldl (fun delta e => delta.deleteUnbondingEntry (e.1,delegator,e.2)) delta

end StakingDelta

/-- `apply_staking_delta`, one batch of writes. -/
def StakingColumns.applyStakingDelta (db : StakingColumns) (delta : StakingDelta) : StakingColumns :=
  let db := delta.delegations.entries.foldl (fun db e => db.putDelegation e.1 e.2) db
  let unbonding := db.unbonding.insertAll delta.unbondingPuts.entries
  { db with unbonding := unbonding.retain (fun key _ => key ∉ delta.unbondingDeletes) }

end ZbxChain.Staking
