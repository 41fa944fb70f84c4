import ZbxChain.Execution.ExecView

/-! # `zbx_state::state_db`: snapshots and reverts

A snapshot is a value that `revert_to` takes back. Between the two come calls that write, and
further snapshots and reverts.
-/
namespace ZbxChain

/-- `StateDB` with the collections that the state root does not read. -/
structure FullStateDb extends StateDb where
  codeCache : Table H256 (List UInt8)
  logs : List Log
  refund : UInt64

structure StateSnapshot where
  dirtyAccounts : Accounts
  dirtyStorage : Table Address (List H256)
  storageCache : Storage
  toDelete : AddressSet
  logsLen : ℕ
  refund : UInt64

def StateDb.setAccountUnchecked (db : StateDb) (addr : Address) (state : AccountState) : StateDb :=
  { db with dirtyAccounts := db.dirtyAccounts.insert addr state }

/-- True if any state was modified. -/
def StateDb.isDirty (db : StateDb) : Bool :=
  !db.dirtyAccounts.entries.isEmpty || !db.dirtyStorage.entries.isEmpty

def StateDb.dirtyAddresses (P : Platform) (db : StateDb) : List Address :=
  (P.iterOrder db.dirtyAccounts.entries).map Sigma.fst

namespace FullStateDb

def new : FullStateDb := { StateDb.new with codeCache := ∅, logs := [], refund := 0 }

def seedAccount (db : FullStateDb) (addr : Address) (state : AccountState) : FullStateDb :=
  { db with toStateDb := db.toStateDb.seedAccount addr state }

def seedCode (db : FullStateDb) (codeHash : H256) (code : List UInt8) : FullStateDb :=
  { db with codeCache := db.codeCache.insert codeHash code }

def deployCode (P : Platform) (db : FullStateDb) (code : List UInt8) : FullStateDb × H256 :=
  let codeHash := P.keccak256 code
  ({ db with codeCache := db.codeCache.insert codeHash code },codeHash)

def addRefund (db : FullStateDb) (amount : UInt64) : FullStateDb :=
  { db with refund := saturatingAdd64 db.refund amount }

def emitLog (db : FullStateDb) (log : Log) : FullStateDb := { db with logs := db.logs ++ [log] }

def snapshot (db : FullStateDb) : StateSnapshot :=
  ⟨db.dirtyAccounts,db.dirtyStorage,db.storageCache,db.toDelete,db.logs.length,db.refund⟩

def revertTo (db : FullStateDb) (snap : StateSnapshot) : FullStateDb :=
  { db with
    dirtyAccounts := snap.dirtyAccounts
    dirtyStorage := snap.dirtyStorage
    storageCache := snap.storageCache
    toDelete := snap.toDelete
    logs := db.logs.take snap.logsLen
    refund := snap.refund }

end FullStateDb

inductive Mutation where
  | setAccount (addr : Address) (state : AccountState)
  | setAccountUnchecked (addr : Address) (state : AccountState)
  | setStorage (addr : Address) (slot value : H256)
  | selfdestruct (addr : Address)
  | emitLog (log : Log)
  | addRefund (amount : UInt64)
  | deployCode (code : List UInt8)
  deriving DecidableEq

inductive FrameCall where
  | mutate (m : Mutation)
  | snapshot
  | revertTo (i : ℕ)
  deriving DecidableEq

def FullStateDb.mutate (P : Platform) (db : FullStateDb) : Mutation → FullStateDb
  | .setAccount addr state => { db with toStateDb := db.toStateDb.setAccount addr state }
  | .setAccountUnchecked addr state => { db with toStateDb := db.toStateDb.setAccountUnchecked addr state }
  | .setStorage addr slot value => { db with toStateDb := db.toStateDb.setStorage addr slot value }
  | .selfdestruct addr => { db with toStateDb := db.toStateDb.selfdestruct addr }
  | .emitLog log => db.emitLog log
  | .addRefund amount => db.addRefund amount
  | .deployCode code => (db.deployCode P code).1

structure DbFrame where
  db : FullStateDb
  taken : List StateSnapshot

namespace DbFrame

def step (P : Platform) (s : DbFrame) : FrameCall → DbFrame × Unit
  | .mutate m => ({ s with db := s.db.mutate P m }, ())
  | .snapshot => ({ s with taken := s.taken ++ [s.db.snapshot] }, ())
  | .revertTo i =>
    match s.taken[i]? with
    | some snap => ({ s with db := s.db.revertTo snap }, ())
    | none => (s, ())

/-- What no call of a frame takes back: the base accounts, and the logs there were at its start. -/
structure Above (db : FullStateDb) (s : DbFrame) : Prop where
  base : s.db.baseAccounts = db.baseAccounts
  logs : db.logs <+: s.db.logs
  taken : ∀ snap ∈ s.taken, db.logs.length ≤ snap.logsLen

variable {P : Platform} {db : FullStateDb} {s : DbFrame}

theorem Above.mutate (h : Above db s) (m : Mutation) : Above db ⟨s.db.mutate P m,s.taken⟩ := by
  cases m with
  | emitLog log => exact ⟨h.base,h.logs.trans (List.prefix_append _ _),h.taken⟩
  | _ => exact ⟨h.base,h.logs,h.taken⟩

theorem Above.step (h : Above db s) (c : FrameCall) : Above db (s.step P c).1 := by
  cases c with
  | mutate m => exact h.mutate m
  | snapshot =>
    refine ⟨h.base,h.logs,fun snap hsnap => ?_⟩
    rcases List.mem_append.mp hsnap with hold | hnew
    · exact h.taken snap hold
    · rw [List.mem_singleton.mp hnew]
      exact h.logs.length_le
  | revertTo i =>
    cases hsnap : s.taken[i]? with
    | none =>
      simp only [DbFrame.step, hsnap]
      exact h
    | some snap =>
      simp only [DbFrame.step, hsnap]
      -- the logs are cut no shorter than they were when the frame began
      have hlen := h.taken snap (List.mem_of_getElem? hsnap)
      exact ⟨h.base,List.prefix_take_iff.mpr ⟨h.logs,hlen⟩,h.taken⟩

theorem above_final (P : Platform) (db : FullStateDb) (calls : List FrameCall) :
    Above db (Machine.final (step P) ⟨db,[]⟩ calls) := by
  refine (Machine.state_invariant (step P) (G := fun _ _ => True) (I := Above db) ?_ ?_ calls ?_).2
  · exact ⟨rfl,List.prefix_refl _,nofun⟩
  · exact fun s c h _ => h.step c
  · exact fun _ _ => trivial

theorem revertTo_eq (h : Above db s) :
    s.db.revertTo db.snapshot = { db with codeCache := s.db.codeCache } := by
  obtain ⟨rest,hrest⟩ := h.logs
  have hlogs : s.db.logs.take db.logs.length = db.logs := by
    rw [← hrest, List.take_left]
  unfold FullStateDb.revertTo FullStateDb.snapshot
  simp only [hlogs, h.base]

end DbFrame

def FullStateDb.afterRevert (P : Platform) (db : FullStateDb) (calls : List FrameCall) : FullStateDb :=
  (Machine.final (DbFrame.step P) ⟨db,[]⟩ calls).db.revertTo db.snapshot

/-- A revert to a snapshot undoes whatever was called since, with further snapshots and reverts
to them in between, nested or not. -/
theorem FullStateDb.revert_undoes (P : Platform) (db : FullStateDb) (calls : List FrameCall) :
    (∀ addr, (db.afterRevert P calls).getAccount addr = db.getAccount addr) ∧
    (∀ addr slot, (db.afterRevert P calls).getStorage addr slot = db.getStorage addr slot) ∧
    (db.afterRevert P calls).logs = db.logs ∧ (db.afterRevert P calls).refund = db.refund ∧
    (db.afterRevert P calls).isDirty = db.isDirty ∧
    (db.afterRevert P calls).dirtyAddresses P = db.dirtyAddresses P ∧
    (db.afterRevert P calls).stateRoot P = db.stateRoot P := by
  unfold afterRevert
  rw [DbFrame.revertTo_eq (DbFrame.above_final P db calls)]
  exact ⟨fun _ => rfl,fun _ _ => rfl,rfl,rfl,rfl,rfl,rfl⟩

end ZbxChain
