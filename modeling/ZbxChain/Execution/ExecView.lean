import ZbxChain.Execution.StateView
import ZbxChain.Foundation.Program

/-! # The view of a block under execution

`StateView` with the codes it has resolved and the logs emitted so far, and the calls that
the executor, the hosts of the interpreters and the staking dispatcher make on it.
-/
namespace ZbxChain

structure Log where
  address : Address
  topics : List H256
  data : List UInt8
  blockNumber : UInt64
  logIndex : UInt32
  transactionHash : H256
  transactionIndex : UInt32
  deriving DecidableEq

/-- Besides the view, whether the staking dispatcher has stored a proposal registry in the
database while the block was running. -/
structure ExecView where
  state : StateView
  codes : Table H256 (List UInt8)
  logs : List Log
  proposalsStored : Bool

namespace ExecView

def new : ExecView := ⟨.new,∅,[],false⟩

def seedAccount (view : ExecView) (addr : Address) (state : AccountState) : ExecView :=
  { view with state := view.state.seedAccount addr state }

def seedCode (view : ExecView) (codeHash : H256) (code : List UInt8) : ExecView :=
  { view with codes := view.codes.insert codeHash code }

def getAccount (view : ExecView) (addr : Address) : AccountState := view.state.getAccount addr

/-- `get_code`: no bytes for an account without code, nor for a hash that is not seeded. -/
def getCode (view : ExecView) (addr : Address) : List UInt8 :=
  let acct := view.getAccount addr
  if !acct.isContract then [] else (view.codes.lookup acct.codeHash).getD []

def isDeleted (view : ExecView) (addr : Address) : Bool := decide (addr ∈ view.state.toDelete)

end ExecView

inductive StateAccess where
  | getAccount (addr : Address)
  | setAccount (addr : Address) (state : AccountState)
  | getStorage (addr : Address) (slot : H256)
  | setStorage (addr : Address) (slot value : H256)
  | getCode (addr : Address)
  | seedCode (codeHash : H256) (code : List UInt8)
  | emitLog (log : Log)
  | selfdestruct (addr : Address)
  | isDeleted (addr : Address)
  /-- `diffs.logs.len()` -/
  | logCount
  /-- `diffs.logs.drain(start..)` -/
  | drainLogs (start : ℕ)
  /-- `persist_proposal_registry`, which writes to the database at once -/
  | persistProposalRegistry

namespace StateAccess

@[reducible] def Reply : StateAccess → Type
  | getAccount _ => AccountState
  | setAccount _ _ => Unit
  | getStorage _ _ => H256
  | setStorage _ _ _ => Unit
  | getCode _ => List UInt8
  | seedCode _ _ => Unit
  | emitLog _ => Unit
  | selfdestruct _ => Unit
  | isDeleted _ => Bool
  | logCount => ℕ
  | drainLogs _ => List Log
  | persistProposalRegistry => Unit

end StateAccess

abbrev StateProgram (α : Type) := Program StateAccess.Reply α

def ExecView.answer : Program.Handler StateAccess.Reply ExecView
  | .getAccount addr, view => (view.getAccount addr,view)
  | .setAccount addr state, view => ((),{ view with state := view.state.setAccount addr state })
  | .getStorage addr slot, view => (view.state.getStorage addr slot,view)
  | .setStorage addr slot value, view =>
    ((),{ view with state := view.state.setStorage addr slot value })
  | .getCode addr, view => (view.getCode addr,view)
  | .seedCode codeHash code, view => ((),view.seedCode codeHash code)
  | .emitLog log, view => ((),{ view with logs := view.logs ++ [log] })
  | .selfdestruct addr, view => ((),{ view with state := view.state.selfdestruct addr })
  | .isDeleted addr, view => (view.isDeleted addr,view)
  | .logCount, view => (view.logs.length,view)
  | .drainLogs start, view => (view.logs.drop start,{ view with logs := view.logs.take start })
  | .persistProposalRegistry, view => ((),{ view with proposalsStored := true })

namespace StateProgram

def access (a : StateAccess) : StateProgram a.Reply := .request a

def getAccount (addr : Address) : StateProgram AccountState := access (.getAccount addr)
def setAccount (addr : Address) (state : AccountState) : StateProgram Unit :=
  access (.setAccount addr state)
def getStorage (addr : Address) (slot : H256) : StateProgram H256 := access (.getStorage addr slot)
def setStorage (addr : Address) (slot value : H256) : StateProgram Unit :=
  access (.setStorage addr slot value)
def getCode (addr : Address) : StateProgram (List UInt8) := access (.getCode addr)
def seedCode (codeHash : H256) (code : List UInt8) : StateProgram Unit :=
  access (.seedCode codeHash code)
def emitLog (log : Log) : StateProgram Unit := access (.emitLog log)
def selfdestruct (addr : Address) : StateProgram Unit := access (.selfdestruct addr)
def isDeleted (addr : Address) : StateProgram Bool := access (.isDeleted addr)
def logCount : StateProgram ℕ := access .logCount
def drainLogs (start : ℕ) : StateProgram (List Log) := access (.drainLogs start)
def persistProposalRegistry : StateProgram Unit := access .persistProposalRegistry

end StateProgram

/-- `MAX` of `u128`. -/
def maxU128 : ℕ := 2 ^ 128 - 1

/-- `u128::saturating_add`. -/
def saturatingAdd128 (x y : ℕ) : ℕ := min (x + y) maxU128

namespace AccountState

/-- `balance_u128`: a larger balance counts as the largest of 128 bits. -/
def balanceU128 (st : AccountState) : ℕ := min st.balance.toNat maxU128

def setBalanceU128 (st : AccountState) (wei : ℕ) : AccountState :=
  { st with balance := BitVec.ofNat 256 wei }

/-- `increment_nonce`; `none` is an overflow. -/
def incrementNonce (st : AccountState) : Option AccountState :=
  if st.nonce.toNat + 1 < 2 ^ 64 then some { st with nonce := st.nonce + 1 } else none

end AccountState

section Views
variable {view : ExecView}

theorem base_answer (access : StateAccess) (view : ExecView) :
    (ExecView.answer access view).2.state.base = view.state.base := by
  cases access with
  | setAccount addr state => exact (view.state.setAccount_eq addr state).1
  | _ => rfl

def ExecView.Dropped (view : ExecView) : Prop :=
  ∀ addr ∈ view.state.toDelete, view.state.accounts.lookup addr = none

theorem ExecView.Dropped.answer (h : view.Dropped) (access : StateAccess) :
    (ExecView.answer access view).2.Dropped := by
  intro a ha
  cases access with
  | setAccount addr state =>
    obtain ⟨-,-,hdelete,haccounts⟩ := view.state.setAccount_eq addr state
    dsimp only [ExecView.answer] at ha ⊢
    rw [hdelete, List.mem_filter, decide_eq_true_eq] at ha
    rw [haccounts, AList.lookup_insert_ne ha.2]
    exact h a ha.1
  | selfdestruct addr =>
    dsimp only [ExecView.answer, StateView.selfdestruct] at ha ⊢
    by_cases heq : a = addr
    · rw [heq, AList.lookup_erase]
    · rw [AList.lookup_erase_ne heq]
      exact h a ((List.mem_insert_iff.mp ha).resolve_left heq)
  | _ => exact h a ha

/-- A program leaves the base of the view as it is. -/
theorem run_answer {α : Type} (p : StateProgram α) (view : ExecView) (hview : view.Dropped) :
    (p.run ExecView.answer view).2.state.base = view.state.base ∧ (p.run ExecView.answer view).2.Dropped := by
  refine Program.run_keeps (I := fun v => v.state.base = view.state.base ∧ v.Dropped) ?_ p view
    ⟨rfl,hview⟩
  rintro access v ⟨hbase,hdropped⟩
  exact ⟨(base_answer access v).trans hbase,hdropped.answer access⟩

end Views

end ZbxChain
