import ZbxChain.Node.Committed

/-! # What the database returns after a commit

The reference is an execution over a view that reads every account, code and word from the
database. A commit stores the accounts of the view alone: no word, no code, no deletion.
-/
namespace ZbxChain

def ChainDb.fullView (db : ChainDb) : ExecView :=
  { state := { StateView.new with
      base := db.accounts
      storage := db.words }
    codes := db.codes
    logs := []
    proposalsStored := false }

/-- The database has the accounts, codes and words of a view. -/
structure Returns (db : ChainDb) (s : ExecView) : Prop where
  accounts : ∀ addr, (db.getAccount addr).nonce = (s.getAccount addr).nonce ∧
    (db.getAccount addr).balance = (s.getAccount addr).balance ∧
    (db.getAccount addr).codeHash = (s.getAccount addr).codeHash
  codes : ∀ addr, db.codeAt addr = s.getCode addr
  words : ∀ addr slot, db.getStorage addr slot = s.state.getStorage addr slot

/-- What a commit needs not store: the deleted accounts are absent, the codes of the
contracts are there, and the words are those it has. -/
structure NothingLost (db : ChainDb) (s : ExecView) : Prop where
  deleted : ∀ addr ∈ s.state.toDelete, (db.getAccount addr).isEmpty = true
  codes : ∀ addr, (s.getAccount addr).isContract = true →
    db.getCode (s.getAccount addr).codeHash = s.getCode addr
  words : ∀ addr slot, db.getStorage addr slot = s.state.getStorage addr slot

/-- What is read, or read by the guards of a write, is the same in both views. -/
def AnsweredAlike : StateAccess → ExecView × ExecView → Prop
  | .getAccount addr, views => views.1.getAccount addr = views.2.getAccount addr
  | .setAccount addr _, views => views.1.getAccount addr = views.2.getAccount addr
  | .getStorage addr slot, views =>
    views.1.state.getStorage addr slot = views.2.state.getStorage addr slot
  | .getCode addr, views => views.1.getCode addr = views.2.getCode addr
  | _, _ => True

instance decidableAnsweredAlike : (access : StateAccess) → (views : ExecView × ExecView) →
    Decidable (AnsweredAlike access views)
  | .getAccount addr, views => inferInstanceAs (Decidable (views.1.getAccount addr = views.2.getAccount addr))
  | .setAccount addr _, views =>
    inferInstanceAs (Decidable (views.1.getAccount addr = views.2.getAccount addr))
  | .getStorage addr slot, views => inferInstanceAs
      (Decidable (views.1.state.getStorage addr slot = views.2.state.getStorage addr slot))
  | .getCode addr, views => inferInstanceAs (Decidable (views.1.getCode addr = views.2.getCode addr))
  | .setStorage _ _ _, _ | .seedCode _ _, _ | .emitLog _, _ | .selfdestruct _, _ | .isDeleted _, _
  | .logCount, _ | .drainLogs _, _ | .persistProposalRegistry, _ => .isTrue trivial

section Simulation

structure SameChanges (view full : ExecView) : Prop where
  accounts : view.state.accounts = full.state.accounts
  toDelete : view.state.toDelete = full.state.toDelete
  logs : view.logs = full.logs

variable {view full : ExecView}

theorem getAccount_of_not_mem {addr : Address} (h : addr ∉ view.state.toDelete) :
    view.getAccount addr = (view.state.accounts.lookup addr).getD
      ((view.state.base.lookup addr).getD .fresh) := if_neg h

theorem SameChanges.setAccount (h : SameChanges view full) {addr : Address} (state : AccountState)
    (halike : view.getAccount addr = full.getAccount addr) :
    SameChanges { view with state := view.state.setAccount addr state }
      { full with state := full.state.setAccount addr state } := by
  obtain ⟨-,-,hdelete,haccounts⟩ := view.state.setAccount_eq addr state
  obtain ⟨-,-,hdelete',haccounts'⟩ := full.state.setAccount_eq addr state
  have hprior : view.state.getAccount addr = full.state.getAccount addr := halike
  refine ⟨?_,?_,h.logs⟩
  · dsimp only
    rw [haccounts, haccounts', hprior, h.accounts, h.toDelete]
  · dsimp only
    rw [hdelete, hdelete', h.toDelete]

theorem SameChanges.selfdestruct (h : SameChanges view full) (addr : Address) :
    SameChanges { view with state := view.state.selfdestruct addr }
      { full with state := full.state.selfdestruct addr } := by
  refine ⟨?_,?_,h.logs⟩
  · dsimp only [StateView.selfdestruct]
    rw [h.accounts]
  · dsimp only [StateView.selfdestruct]
    rw [h.toDelete]

theorem SameChanges.step (h : SameChanges view full) (access : StateAccess)
    (halike : AnsweredAlike access (view,full)) :
    (ExecView.answer access view).1 = (ExecView.answer access full).1 ∧
      SameChanges (ExecView.answer access view).2 (ExecView.answer access full).2 := by
  cases access with
  | getAccount addr => exact ⟨halike,h⟩
  | setAccount addr state => exact ⟨rfl,h.setAccount state halike⟩
  | getStorage addr slot => exact ⟨halike,h⟩
  | setStorage addr slot value => exact ⟨rfl,h.accounts,h.toDelete,h.logs⟩
  | getCode addr => exact ⟨halike,h⟩
  | seedCode codeHash code => exact ⟨rfl,h.accounts,h.toDelete,h.logs⟩
  | emitLog log =>
    exact ⟨rfl,h.accounts,h.toDelete,congrArg (· ++ [log]) h.logs⟩
  | selfdestruct addr => exact ⟨rfl,h.selfdestruct addr⟩
  | isDeleted addr =>
    refine ⟨?_,h⟩
    simp only [ExecView.answer, ExecView.isDeleted, h.toDelete]
  | logCount => exact ⟨congrArg List.length h.logs,h⟩
  | drainLogs start =>
    exact ⟨congrArg (List.drop start) h.logs,h.accounts,h.toDelete,congrArg (List.take start) h.logs⟩
  | persistProposalRegistry => exact ⟨rfl,h.accounts,h.toDelete,h.logs⟩

theorem sameChanges_seeded {db : ChainDb} {addrs : List Address} (h : Seeded db addrs view) :
    SameChanges view db.fullView :=
  ⟨h.accounts,h.toDelete,h.logs⟩

end Simulation

section Persisted
variable {V K : Type} (P : Platform) (M : Machines) (S : StakingNode V K) (C : Commitments)
  (db : ChainDb) (faults : Faults) (block : Block)

def fullRun : Except ExecutionError (Progress V) × ExecView :=
  (runBlock P M S.toStakingPrecompile C block none).run.run ExecView.answer db.fullView

/-- Whatever the execution reads on the seeded view, the database has it so. -/
def ReadsAlike : Prop :=
  ∀ view, seedAll db faults block.referenced [] .new = .ok view →
    Program.Along (Program.both ExecView.answer ExecView.answer) AnsweredAlike
      (runBlock P M S.toStakingPrecompile C block none).run (view,db.fullView)

variable {P M S C db faults block} {b : Block}

theorem isEmpty_iff {state : AccountState} : state.isEmpty = true ↔
    state.nonce = 0 ∧ state.balance = 0 ∧ state.codeHash = emptyCodeHash := by
  simp [AccountState.isEmpty, AccountState.isEoa, and_assoc]

theorem stored_of_readsAlike (hok : (db.executeAndCommit P M S C faults block).result = .ok b)
    (halike : ReadsAlike P M S C db faults block) :
    (∃ progress, (fullRun P M S C db block).1 = .ok progress) ∧
      ∀ addr, (db.applyAll (db.executeAndCommit P M S C faults block).writes).getAccount addr =
        if addr ∈ (fullRun P M S C db block).2.state.toDelete then db.getAccount addr
        else (fullRun P M S C db block).2.getAccount addr := by
  obtain ⟨ready,view,progress,-,hprepared,-,hwrites⟩ := executeAndCommit_ok hok
  obtain ⟨hreply,hsame⟩ := Program.run_simulates (R := SameChanges)
    (fun access _ _ hsame hcall => hsame.step access hcall) _ view db.fullView
    (sameChanges_seeded hprepared.seeded) (halike view hprepared.seeds)
  rw [hprepared.ran] at hreply hsame
  change SameChanges ready.view (fullRun P M S C db block).2 at hsame
  obtain ⟨hbase,hdropped⟩ : (fullRun P M S C db block).2.state.base = db.accounts ∧
      (fullRun P M S C db block).2.Dropped := run_answer _ db.fullView nofun
  refine ⟨⟨progress,hreply.symm⟩,fun addr => ?_⟩
  have hlookup := hprepared.accounts_beforeRewards addr
  rw [hsame.accounts] at hlookup
  rw [hwrites, ChainDb.getAccount, hlookup]
  by_cases hdeleted : addr ∈ (fullRun P M S C db block).2.state.toDelete
  · rw [if_pos hdeleted, hdropped addr hdeleted, Option.none_or, ChainDb.getAccount]
  · rw [if_neg hdeleted, getAccount_of_not_mem hdeleted, hbase]
    cases (fullRun P M S C db block).2.state.accounts.lookup addr with
    | none => rfl
    | some state => rfl

end Persisted

section Stored
variable {db stored : ChainDb} {s : ExecView}

structure AccountsStored (db stored : ChainDb) (s : ExecView) : Prop where
  accounts : ∀ addr, stored.getAccount addr =
    if addr ∈ s.state.toDelete then db.getAccount addr else s.getAccount addr
  words : stored.words = db.words
  codes : stored.codes = db.codes

theorem AccountsStored.getStorage (h : AccountsStored db stored s) (addr : Address) (slot : U256) :
    stored.getStorage addr slot = db.getStorage addr slot := by
  rw [ChainDb.getStorage, h.words, ChainDb.getStorage]

theorem AccountsStored.getCode (h : AccountsStored db stored s) (codeHash : H256) :
    stored.getCode codeHash = db.getCode codeHash := by
  rw [ChainDb.getCode, h.codes, ChainDb.getCode]

theorem getAccount_of_mem {addr : Address} (h : addr ∈ s.state.toDelete) : s.getAccount addr = .fresh :=
  if_pos h

theorem isContract_congr {state state' : AccountState} (h : state.codeHash = state'.codeHash) :
    state.isContract = state'.isContract := by
  rw [AccountState.isContract, AccountState.isEoa, h]
  rfl

theorem AccountsStored.nothingLost (h : AccountsStored db stored s) (hreturns : Returns stored s) :
    NothingLost db s := by
  refine ⟨?_,?_,?_⟩
  · intro addr hdeleted
    obtain ⟨hnonce,hbalance,hcode⟩ := hreturns.accounts addr
    rw [h.accounts, if_pos hdeleted, getAccount_of_mem hdeleted] at hnonce hbalance hcode
    exact isEmpty_iff.mpr ⟨hnonce,hbalance,hcode⟩
  · intro addr hcontract
    have hcodeat := hreturns.codes addr
    have hhash := (hreturns.accounts addr).2.2
    rw [ChainDb.codeAt, isContract_congr hhash, if_pos hcontract, h.getCode, hhash] at hcodeat
    exact hcodeat
  · intro addr slot
    rw [← h.getStorage, hreturns.words]

theorem AccountsStored.returns (h : AccountsStored db stored s) (hkept : NothingLost db s) :
    Returns stored s := by
  have haccounts : ∀ addr, (stored.getAccount addr).nonce = (s.getAccount addr).nonce ∧
      (stored.getAccount addr).balance = (s.getAccount addr).balance ∧
      (stored.getAccount addr).codeHash = (s.getAccount addr).codeHash := by
    intro addr
    rw [h.accounts]
    by_cases hdeleted : addr ∈ s.state.toDelete
    · rw [if_pos hdeleted, getAccount_of_mem hdeleted]
      exact isEmpty_iff.mp (hkept.deleted addr hdeleted)
    · rw [if_neg hdeleted]
      exact ⟨rfl,rfl,rfl⟩
  refine ⟨haccounts,?_,?_⟩
  · intro addr
    have hhash := (haccounts addr).2.2
    rw [ChainDb.codeAt, isContract_congr hhash, h.getCode, hhash]
    by_cases hcontract : (s.getAccount addr).isContract = true
    · rw [if_pos hcontract, hkept.codes addr hcontract]
    · rw [if_neg hcontract, ExecView.getCode, if_pos (by simpa using hcontract)]
  · intro addr slot
    rw [h.getStorage, hkept.words]

end Stored

/-- Where the execution reads what the database has, a commit loses nothing just when there
was no word, no code and no deletion to store. -/
theorem commit_returns_iff {V K : Type} (P : Platform) (M : Machines) (S : StakingNode V K)
    (C : Commitments) (db : ChainDb) (faults : Faults) (block b : Block)
    (hok : (db.executeAndCommit P M S C faults block).result = .ok b)
    (halike : ReadsAlike P M S C db faults block) :
    (∃ progress s, fullRun P M S C db block = (.ok progress,s) ∧
        Returns (db.applyAll (db.executeAndCommit P M S C faults block).writes) s) ↔
      NothingLost db (fullRun P M S C db block).2 := by
  obtain ⟨⟨progress,hprogress⟩,haccounts⟩ := stored_of_readsAlike hok halike
  obtain ⟨hwords,hcodes,-⟩ := db.unwritten_applyAll (db.executeAndCommit P M S C faults block).writes
  have hstored : AccountsStored db
      (db.applyAll (db.executeAndCommit P M S C faults block).writes) (fullRun P M S C db block).2 :=
    ⟨haccounts,hwords,hcodes⟩
  constructor
  · rintro ⟨progress',s,hrun,hreturns⟩
    rw [hrun] at hstored ⊢
    exact hstored.nothingLost hreturns
  · intro hkept
    exact ⟨progress,_,Prod.ext hprogress rfl,hstored.returns hkept⟩

theorem isContract_of_values {s : ExecView} {addr : Address} (hdeleted : s.state.toDelete = [])
    (haccounts : s.state.accounts.values.all (fun state => !state.isContract) = true)
    (hbase : s.state.base.values.all (fun state => !state.isContract) = true) :
    (s.getAccount addr).isContract = false := by
  rw [ExecView.getAccount, StateView.getAccount, hdeleted, if_neg List.not_mem_nil]
  cases hlook : s.state.accounts.lookup addr with
  | some state =>
    have hnot := List.all_eq_true.mp haccounts state (AList.mem_values.mpr ⟨addr,hlook⟩)
    rwa [Bool.not_eq_true'] at hnot
  | none =>
    cases hseeded : s.state.base.lookup addr with
    | some state =>
      have hnot := List.all_eq_true.mp hbase state (AList.mem_values.mpr ⟨addr,hseeded⟩)
      rwa [Bool.not_eq_true'] at hnot
    | none => rfl

/-- A payment of one account to another. -/
theorem commit_returns_payment :
    ∃ progress s, fullRun .integersEmptyRoot idleMachines idleStaking zeroCommitments payerDb paymentBlock =
        (.ok progress,s) ∧
      Returns (payerDb.applyAll (payerDb.executeAndCommit .integersEmptyRoot idleMachines idleStaking
        zeroCommitments .none paymentBlock).writes) s := by
  have hok : (payerDb.executeAndCommit .integersEmptyRoot idleMachines idleStaking zeroCommitments .none
      paymentBlock).result.toOption.isSome = true := by decide +kernel
  have halike : ReadsAlike .integersEmptyRoot idleMachines idleStaking zeroCommitments payerDb .none paymentBlock := by
    intro view hseeds
    cases hseeds
    decide +kernel
  have hplain : (fullRun .integersEmptyRoot idleMachines idleStaking zeroCommitments payerDb
      paymentBlock).2.state.accounts.values.all (fun state => !state.isContract) = true := by decide +kernel
  have hbase : (fullRun .integersEmptyRoot idleMachines idleStaking zeroCommitments payerDb
      paymentBlock).2.state.base.values.all (fun state => !state.isContract) = true := by decide +kernel
  have hdeleted : (fullRun .integersEmptyRoot idleMachines idleStaking zeroCommitments payerDb
      paymentBlock).2.state.toDelete = [] := by decide +kernel
  rcases hresult : (payerDb.executeAndCommit .integersEmptyRoot idleMachines idleStaking zeroCommitments .none
    paymentBlock).result with e | b
  · rw [hresult] at hok
    cases hok
  · refine (commit_returns_iff .integersEmptyRoot idleMachines idleStaking zeroCommitments payerDb .none
      paymentBlock b hresult halike).mpr ⟨?_,fun addr hcontract => ?_,fun _ _ => rfl⟩
    · rw [hdeleted]
      exact nofun
    · rw [isContract_of_values hdeleted hplain hbase] at hcontract
      cases hcontract

def creationBlock : Block :=
  { plainBlock 1 0 with
    body := ⟨[{ tx :=
                  { txType := .legacy
                    nonce := 0
                    maxPriorityFeePerGas := 0
                    maxFeePerGas := 0
                    gasLimit := 60000
                    recipient := none
                    value := 0
                    data := [1]
                    accessList := []
                    chainId := 1 }
                sig := ⟨0,0,0⟩
                sender := 9
                hash := 0 }],[]⟩ }

def createdAddr : Address := 311756399700768573349586859518131546315108762149

/-- The code of a new contract is gone after the commit. -/
theorem code_lost :
    ((plainDb 0 ∅).executeAndCommit .integersEmptyRoot idleMachines idleStaking zeroCommitments .none
        creationBlock).result.toOption.isSome = true ∧
      ¬ ∃ progress s, fullRun .integersEmptyRoot idleMachines idleStaking zeroCommitments (plainDb 0 ∅)
          creationBlock = (.ok progress,s) ∧
        Returns ((plainDb 0 ∅).applyAll ((plainDb 0 ∅).executeAndCommit .integersEmptyRoot idleMachines
          idleStaking zeroCommitments .none creationBlock).writes) s := by
  have hok : ((plainDb 0 ∅).executeAndCommit .integersEmptyRoot idleMachines idleStaking
      zeroCommitments .none creationBlock).result.toOption.isSome = true := by decide +kernel
  have hview : (fullRun .integersEmptyRoot idleMachines idleStaking zeroCommitments (plainDb 0 ∅)
      creationBlock).2.getCode createdAddr = [1] := by decide +kernel
  have hstored : ((plainDb 0 ∅).applyAll ((plainDb 0 ∅).executeAndCommit .integersEmptyRoot
      idleMachines idleStaking zeroCommitments .none creationBlock).writes).codeAt createdAddr = [] := by
    decide +kernel
  refine ⟨hok,?_⟩
  rintro ⟨progress,s,hrun,hreturns⟩
  have hcode := hreturns.codes createdAddr
  rw [hrun] at hview
  rw [hstored, hview] at hcode
  cases hcode

end ZbxChain
