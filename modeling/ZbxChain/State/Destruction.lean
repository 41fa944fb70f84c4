import ZbxChain.State.Snapshots

/-! # What is read after a self-destruction

Beside the state runs a record of what was destroyed and not written since. A self-destruction
sets a tombstone and drops the dirty account; the base account and the cached words stay where
they are, and reads do not ask for the tombstone.
-/
namespace ZbxChain

/-- The accounts that were destroyed and not set since, and the slots of destroyed accounts
that were not written since. -/
structure Destroyed where
  accounts : Set Address
  slots : Set (Address × H256)

def Destroyed.mutate (d : Destroyed) : Mutation → Destroyed
  | .setAccount addr _ => { d with accounts := d.accounts \ {addr} }
  | .setAccountUnchecked addr _ => { d with accounts := d.accounts \ {addr} }
  | .setStorage addr slot _ => { d with slots := d.slots \ {(addr,slot)} }
  | .selfdestruct addr => ⟨insert addr d.accounts,d.slots ∪ {p | p.1 = addr}⟩
  | _ => d

inductive DbCall where
  | seedAccount (addr : Address) (state : AccountState)
  | seedCode (codeHash : H256) (code : List UInt8)
  | frame (c : FrameCall)
  deriving DecidableEq

/-- A state and its record, with the snapshots that were taken and the records at the time. -/
structure Watched where
  db : FullStateDb
  destroyed : Destroyed
  taken : List (StateSnapshot × Destroyed)

namespace Watched

def new : Watched := ⟨.new,⟨∅,∅⟩,[]⟩

def step (P : Platform) (w : Watched) : DbCall → Watched × Unit
  | .seedAccount addr state => ({ w with db := w.db.seedAccount addr state }, ())
  | .seedCode codeHash code => ({ w with db := w.db.seedCode codeHash code }, ())
  | .frame (.mutate m) => ({ w with db := w.db.mutate P m, destroyed := w.destroyed.mutate m }, ())
  | .frame .snapshot => ({ w with taken := w.taken ++ [(w.db.snapshot,w.destroyed)] }, ())
  | .frame (.revertTo i) =>
    match w.taken[i]? with
    | some (snap,d) => ({ w with db := w.db.revertTo snap, destroyed := d }, ())
    | none => (w, ())

def toFrame (w : Watched) : DbFrame := ⟨w.db,w.taken.map Prod.fst⟩

/-- What is destroyed reads as never written, and the accounts that are read are those of the
state root. -/
structure Complete (P : Platform) (w : Watched) : Prop where
  account : ∀ addr ∈ w.destroyed.accounts, w.db.getAccount addr = .fresh
  word : ∀ addr slot, (addr,slot) ∈ w.destroyed.slots → w.db.getStorage addr slot = 0
  committed : ∀ addr, w.db.getAccount addr = ((w.db.overlay.visible P).lookup addr).getD .fresh

/-- A call that leaves nothing behind a tombstone: no base account and no word of what is
destroyed, no account written or seeded past a tombstone, and no tombstone brought back over a
base account. -/
def Clean (w : Watched) : DbCall → Prop
  | .seedAccount addr state =>
    addr ∈ w.db.toDelete → w.db.dirtyAccounts.lookup addr = none → state = .fresh
  | .frame (.mutate (.selfdestruct addr)) =>
    (w.db.baseAccounts.lookup addr).getD .fresh = .fresh ∧
      ∀ slot, readSlot w.db.storageCache addr slot = 0
  | .frame (.mutate (.setAccountUnchecked addr state)) => addr ∈ w.db.toDelete → state = .fresh
  | .frame (.revertTo i) => ∀ e, w.taken[i]? = some e → ∀ addr ∈ e.1.toDelete,
    e.1.dirtyAccounts.lookup addr = none → (w.db.baseAccounts.lookup addr).getD .fresh = .fresh
  | _ => True

end Watched

def SelfdestructComplete (P : Platform) (calls : List DbCall) : Prop :=
  (∀ e ∈ Machine.history (Watched.step P) .new calls, e.before.Complete P) ∧
    (Machine.final (Watched.step P) .new calls).Complete P

namespace StateDb

/-- Behind a tombstone there is the default account. -/
def Buried (db : StateDb) : Prop := ∀ addr ∈ db.toDelete, db.getAccount addr = .fresh

variable {P : Platform} {db : StateDb} {addr a : Address} {state : AccountState}

theorem buried_iff (P : Platform) : db.Buried ↔
    ∀ addr, db.getAccount addr = ((db.overlay.visible P).lookup addr).getD .fresh := by
  have hvisible : ∀ addr, (db.overlay.visible P).lookup addr =
      if addr ∈ db.toDelete then none else (db.dirtyAccounts.lookup addr).or (db.baseAccounts.lookup addr) :=
    fun addr => Overlay.lookup_visible P db.overlay addr
  constructor
  · intro h addr
    rw [hvisible]
    by_cases hdeleted : addr ∈ db.toDelete
    · rw [if_pos hdeleted, h addr hdeleted]
      rfl
    · rw [if_neg hdeleted, getAccount]
      cases db.dirtyAccounts.lookup addr with
      | none => rfl
      | some state => rfl
  · intro h addr hdeleted
    rw [h addr, hvisible, if_pos hdeleted]
    rfl

theorem getAccount_of_dirty (h : db.dirtyAccounts.lookup addr = some state) : db.getAccount addr = state := by
  rw [getAccount, h]
  rfl

theorem getAccount_of_clean (h : db.dirtyAccounts.lookup addr = none) :
    db.getAccount addr = (db.baseAccounts.lookup addr).getD .fresh := by
  rw [getAccount, h]
  rfl

theorem buried_seedAccount (h : db.Buried) : (db.seedAccount addr state).Buried ↔
    (addr ∈ db.toDelete → db.dirtyAccounts.lookup addr = none → state = .fresh) := by
  have hseeded : db.dirtyAccounts.lookup addr = none → (db.seedAccount addr state).getAccount addr = state := by
    intro hnone
    have hclean : (db.seedAccount addr state).dirtyAccounts.lookup addr = none := hnone
    rw [getAccount_of_clean hclean, seedAccount, AList.lookup_insert, Option.getD_some]
  constructor
  · intro hburied hdeleted hnone
    rw [← hseeded hnone]
    exact hburied addr hdeleted
  · intro hfresh a ha
    by_cases heq : a = addr
    · subst heq
      cases hdirty : db.dirtyAccounts.lookup a with
      | none => rw [hseeded hdirty, hfresh ha hdirty]
      | some st =>
        have hold := h a ha
        rw [getAccount_of_dirty hdirty] at hold
        rw [← hold]
        exact getAccount_of_dirty hdirty
    · rw [← h a ha]
      unfold getAccount seedAccount
      rw [AList.lookup_insert_ne heq]

theorem getAccount_insert_ne (hne : a ≠ addr) :
    (db.setAccountUnchecked addr state).getAccount a = db.getAccount a := by
  unfold getAccount setAccountUnchecked
  rw [AList.lookup_insert_ne hne]

theorem buried_setAccountUnchecked (h : db.Buried) : (db.setAccountUnchecked addr state).Buried ↔
    (addr ∈ db.toDelete → state = .fresh) := by
  have hwritten : (db.setAccountUnchecked addr state).getAccount addr = state :=
    getAccount_of_dirty (AList.lookup_insert _)
  constructor
  · intro hburied hdeleted
    rw [← hwritten]
    exact hburied addr hdeleted
  · intro hfresh a ha
    by_cases heq : a = addr
    · subst heq
      rw [hwritten, hfresh ha]
    · rw [getAccount_insert_ne heq]
      exact h a ha

theorem buried_setAccount (h : db.Buried) : (db.setAccount addr state).Buried := by
  intro a ha
  obtain ⟨hold,hne⟩ := List.mem_filter.mp ha
  have hread : (db.setAccount addr state).getAccount a = db.getAccount a :=
    getAccount_insert_ne (of_decide_eq_true hne)
  rw [hread]
  exact h a hold

theorem buried_selfdestruct (h : db.Buried) : (db.selfdestruct addr).Buried ↔
    (db.baseAccounts.lookup addr).getD .fresh = .fresh := by
  have hbase : (db.selfdestruct addr).getAccount addr = (db.baseAccounts.lookup addr).getD .fresh :=
    getAccount_of_clean (AList.lookup_erase addr db.dirtyAccounts)
  constructor
  · intro hburied
    rw [← hbase]
    exact hburied addr List.mem_insert_self
  · intro hfresh a ha
    by_cases heq : a = addr
    · subst heq
      rw [hbase, hfresh]
    · have hold : a ∈ db.toDelete := (List.mem_insert_iff.mp ha).resolve_left heq
      rw [← h a hold]
      unfold getAccount selfdestruct
      rw [AList.lookup_erase_ne heq]

end StateDb

namespace Watched

/-- The words of destroyed accounts are zero. -/
def Blank (cache : Storage) (d : Destroyed) : Prop :=
  ∀ addr slot, (addr,slot) ∈ d.slots → readSlot cache addr slot = 0

theorem blank_setStorage {cache : Storage} {d : Destroyed} (h : Blank cache d) (addr : Address)
    (slot value : H256) : Blank (writeSlot cache addr slot value) (d.mutate (.setStorage addr slot value)) := by
  rintro a r ⟨hmem,hne⟩
  rw [readSlot_writeSlot, if_neg (fun heq => hne (Prod.ext heq.1 heq.2))]
  exact h a r hmem

theorem blank_selfdestruct {cache : Storage} {d : Destroyed} (h : Blank cache d) {addr : Address} :
    Blank cache (d.mutate (.selfdestruct addr)) ↔ ∀ slot, readSlot cache addr slot = 0 := by
  constructor
  · exact fun hblank slot => hblank addr slot (Or.inr rfl)
  · rintro hzero a r (hmem | heq)
    · exact h a r hmem
    · have hsame : a = addr := heq
      rw [hsame]
      exact hzero r

/-- What a record says of a snapshot: its destroyed accounts are tombstoned, their words zero,
and nothing but default accounts was written past a tombstone. -/
structure Recorded (snap : StateSnapshot) (d : Destroyed) : Prop where
  tombstones : ∀ addr ∈ d.accounts, addr ∈ snap.toDelete
  blank : Blank snap.storageCache d
  written : ∀ addr ∈ snap.toDelete, ∀ state, snap.dirtyAccounts.lookup addr = some state → state = .fresh

structure Tracked (w : Watched) : Prop where
  tombstones : ∀ addr ∈ w.destroyed.accounts, addr ∈ w.db.toDelete
  taken : ∀ e ∈ w.taken, Recorded e.1 e.2

variable {P : Platform} {w : Watched}

theorem complete_iff (h : w.Tracked) :
    w.Complete P ↔ w.db.Buried ∧ Blank w.db.storageCache w.destroyed := by
  rw [StateDb.buried_iff P]
  constructor
  · exact fun hc => ⟨hc.committed,hc.word⟩
  · rintro ⟨hcommitted,hblank⟩
    have hburied := (StateDb.buried_iff P).mpr hcommitted
    exact ⟨fun addr haddr => hburied addr (h.tombstones addr haddr),hblank,hcommitted⟩

theorem Tracked.mutate (h : w.Tracked) (m : Mutation) :
    (w.step P (.frame (.mutate m))).1.Tracked := by
  refine ⟨?_,h.taken⟩
  cases m with
  | setAccount addr state =>
    rintro a ⟨hmem,hne⟩
    exact List.mem_filter.mpr ⟨h.tombstones a hmem,decide_eq_true hne⟩
  | setAccountUnchecked addr state => exact fun a ha => h.tombstones a ha.1
  | selfdestruct addr =>
    rintro a (rfl | hmem)
    · exact List.mem_insert_self
    · exact List.mem_insert_of_mem (h.tombstones a hmem)
  | _ => exact h.tombstones

theorem Tracked.snapshot (h : w.Tracked) (hc : w.Complete P) : Recorded w.db.snapshot w.destroyed where
  tombstones := h.tombstones
  blank := hc.word
  written := by
    intro addr hdeleted state hdirty
    rw [← ((StateDb.buried_iff P).mpr hc.committed) addr hdeleted]
    exact (StateDb.getAccount_of_dirty hdirty).symm

theorem Tracked.step (h : w.Tracked) (hc : w.Complete P) (c : DbCall) : (w.step P c).1.Tracked := by
  cases c with
  | seedAccount addr state => exact ⟨h.tombstones,h.taken⟩
  | seedCode codeHash code => exact ⟨h.tombstones,h.taken⟩
  | frame c =>
    cases c with
    | mutate m => exact h.mutate m
    | snapshot =>
      refine ⟨h.tombstones,fun e he => ?_⟩
      rcases List.mem_append.mp he with hold | hnew
      · exact h.taken e hold
      · rw [List.mem_singleton.mp hnew]
        exact h.snapshot hc
    | revertTo i =>
      cases htaken : w.taken[i]? with
      | none =>
        simp only [Watched.step, htaken]
        exact h
      | some e =>
        simp only [Watched.step, htaken]
        exact ⟨(h.taken e (List.mem_of_getElem? htaken)).tombstones,h.taken⟩

theorem revert_complete_iff (h : w.Tracked) {snap : StateSnapshot} {d : Destroyed} (he : (snap,d) ∈ w.taken) :
    (w.db.revertTo snap).Buried ∧ Blank snap.storageCache d ↔
      ∀ addr ∈ snap.toDelete, snap.dirtyAccounts.lookup addr = none →
        (w.db.baseAccounts.lookup addr).getD .fresh = .fresh := by
  have hrecorded := h.taken _ he
  constructor
  · rintro ⟨hburied,-⟩ addr hdeleted hnone
    have hclean : (w.db.revertTo snap).dirtyAccounts.lookup addr = none := hnone
    exact (StateDb.getAccount_of_clean hclean).symm.trans (hburied addr hdeleted)
  · refine fun hbase => ⟨fun addr hdeleted => ?_,hrecorded.blank⟩
    cases hdirty : (w.db.revertTo snap).dirtyAccounts.lookup addr with
    | none => exact (StateDb.getAccount_of_clean hdirty).trans (hbase addr hdeleted hdirty)
    | some state =>
      have hread := StateDb.getAccount_of_dirty hdirty
      exact hread.trans (hrecorded.written addr hdeleted state hdirty)

/-- A step from a complete state leads to a complete state just when it is clean. -/
theorem clean_iff (h : w.Tracked) (hc : w.Complete P) (c : DbCall) :
    w.Clean c ↔ (w.step P c).1.Complete P := by
  rw [complete_iff (h.step hc c)]
  obtain ⟨hburied,hblank⟩ := (complete_iff h).mp hc
  cases c with
  | seedAccount addr state =>
    exact (StateDb.buried_seedAccount hburied).symm.trans (and_iff_left hblank).symm
  | seedCode codeHash code => exact iff_of_true trivial ⟨hburied,hblank⟩
  | frame c =>
    cases c with
    | snapshot => exact iff_of_true trivial ⟨hburied,hblank⟩
    | revertTo i =>
      cases htaken : w.taken[i]? with
      | none =>
        simp only [Watched.step, htaken]
        exact iff_of_true (fun e he => by cases htaken.symm.trans he) ⟨hburied,hblank⟩
      | some e =>
        simp only [Watched.step, htaken]
        refine Iff.trans ?_ (revert_complete_iff h (List.mem_of_getElem? htaken)).symm
        refine ⟨fun hclean => hclean e htaken,fun hclean e' he' => ?_⟩
        cases htaken.symm.trans he'
        exact hclean
    | mutate m =>
      cases m with
      | setAccount addr state => exact iff_of_true trivial ⟨StateDb.buried_setAccount hburied,hblank⟩
      | setAccountUnchecked addr state =>
        exact (StateDb.buried_setAccountUnchecked hburied).symm.trans (and_iff_left hblank).symm
      | setStorage addr slot value =>
        exact iff_of_true trivial ⟨hburied,blank_setStorage hblank addr slot value⟩
      | selfdestruct addr =>
        exact (and_congr (StateDb.buried_selfdestruct hburied) (blank_selfdestruct hblank)).symm
      | emitLog log => exact iff_of_true trivial ⟨hburied,hblank⟩
      | addRefund amount => exact iff_of_true trivial ⟨hburied,hblank⟩
      | deployCode code => exact iff_of_true trivial ⟨hburied,hblank⟩

end Watched

/-- Self-destructions are complete in all the states of a run just when all its calls are clean. -/
theorem selfdestruct_complete_iff (P : Platform) (calls : List DbCall) :
    SelfdestructComplete P calls ↔
      ∀ e ∈ Machine.history (Watched.step P) .new calls, e.before.Clean e.call := by
  have hstart : Watched.new.Tracked ∧ Watched.new.Complete P := by
    have htracked : Watched.new.Tracked := ⟨fun addr h => h.elim,nofun⟩
    exact ⟨htracked,(Watched.complete_iff htracked).mpr ⟨nofun,fun addr slot h => h.elim⟩⟩
  have hstep : ∀ (w : Watched) c, w.Tracked ∧ w.Complete P →
      (w.Clean c ↔ (w.step P c).1.Tracked ∧ (w.step P c).1.Complete P) := by
    rintro w c ⟨h,hc⟩
    rw [Watched.clean_iff h hc c]
    exact (and_iff_right (h.step hc c)).symm
  rw [Machine.invariant_iff (Watched.step P) hstart hstep calls]
  constructor
  · rintro ⟨hbefore,hfinal⟩
    obtain ⟨htracked,hlast⟩ := Machine.state_invariant (Watched.step P) (G := fun w _ => w.Complete P)
      (I := Watched.Tracked) hstart.1 (fun w c h hc => h.step hc c) calls hbefore
    exact ⟨fun e he => ⟨htracked e he,hbefore e he⟩,hlast,hfinal⟩
  · rintro ⟨hbefore,-,hfinal⟩
    exact ⟨fun e he => (hbefore e he).2,hfinal⟩

def loadedContract : List DbCall :=
  [.seedAccount 1 { AccountState.fresh with nonce := 1 },.frame (.mutate (.selfdestruct 1))]

def contractWithWord : List DbCall :=
  [.frame (.mutate (.setAccount 1 { AccountState.fresh with nonce := 1 })),
    .frame (.mutate (.setStorage 1 5 7)),.frame (.mutate (.selfdestruct 1)),
    .frame (.mutate (.setAccount 1 AccountState.fresh))]

/-- The account is read after its destruction, and the word is read again. -/
theorem selfdestruct_leaves : ¬ SelfdestructComplete .integersEmptyRoot loadedContract ∧
    ¬ SelfdestructComplete .integersEmptyRoot contractWithWord := by
  constructor
  · rintro ⟨-,hcomplete⟩
    have hread := hcomplete.account 1 (Or.inl rfl)
    exact absurd hread (by decide)
  · rintro ⟨-,hcomplete⟩
    have hread := hcomplete.word 1 5 (Or.inr rfl)
    exact absurd hread (by decide)

end ZbxChain
