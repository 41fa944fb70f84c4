import Mathlib.Algebra.Order.BigOperators.Group.Finset
import Mathlib.Data.FinEnum
import ZbxChain.Execution.SameView

/-! # The money of a view

The total of all balances, and what each call on a view and each call of the production host
does to it: a transfer keeps it, `ZBXBURN` takes from it, and a deleted account takes its
balance with it.
-/
namespace ZbxChain
open StateProgram

section Totals
variable {ι : Type*} [Fintype ι] [DecidableEq ι]

theorem sum_change {f g : ι → ℕ} (a : ι) (h : ∀ b, b ≠ a → g b = f b) :
    ∑ b, g b + f a = ∑ b, f b + g a := by
  have hrest : ∑ b ∈ Finset.univ.erase a, g b = ∑ b ∈ Finset.univ.erase a, f b :=
    Finset.sum_congr rfl fun b hb => h b (Finset.ne_of_mem_erase hb)
  rw [← Finset.add_sum_erase _ g (Finset.mem_univ a), ← Finset.add_sum_erase _ f (Finset.mem_univ a), hrest]
  omega

theorem sum_ite_mem {l : List ι} (hnodup : l.Nodup) (f : ι → ℕ) :
    ∑ i, (if i ∈ l then f i else 0) = (l.map f).sum := by
  rw [← List.sum_toFinset f hnodup, ← Finset.sum_filter]
  congr 1
  ext i
  simp

end Totals

namespace ExecView

def setAccount (view : ExecView) (addr : Address) (state : AccountState) : ExecView :=
  { view with state := view.state.setAccount addr state }

def selfdestruct (view : ExecView) (addr : Address) : ExecView :=
  { view with state := view.state.selfdestruct addr }

def wei (view : ExecView) (addr : Address) : ℕ := (view.getAccount addr).balance.toNat

@[irreducible] def total (view : ExecView) : ℕ := ∑ addr : Address, view.wei addr

end ExecView

section Runs
variable (view : ExecView) (addr : Address)

@[simp] theorem run_getAccount :
    (StateProgram.getAccount addr).run ExecView.answer view = (view.getAccount addr,view) := rfl

@[simp] theorem run_setAccount (state : AccountState) :
    (StateProgram.setAccount addr state).run ExecView.answer view = ((),view.setAccount addr state) := rfl

@[simp] theorem run_selfdestruct :
    (StateProgram.selfdestruct addr).run ExecView.answer view = ((),view.selfdestruct addr) := rfl

@[simp] theorem run_getCode :
    (StateProgram.getCode addr).run ExecView.answer view = (view.getCode addr,view) := rfl

@[simp] theorem run_getStorage (slot : H256) :
    (StateProgram.getStorage addr slot).run ExecView.answer view = (view.state.getStorage addr slot,view) :=
  rfl

@[simp] theorem run_seedCode (codeHash : H256) (code : List UInt8) :
    (StateProgram.seedCode codeHash code).run ExecView.answer view = ((),view.seedCode codeHash code) := rfl

@[simp] theorem run_isDeleted :
    (StateProgram.isDeleted addr).run ExecView.answer view = (view.isDeleted addr,view) := rfl

end Runs

section Views
variable {view view' : ExecView} {addr : Address} {state : AccountState}

theorem wei_le_total (view : ExecView) (addr : Address) : view.wei addr ≤ view.total := by
  unfold ExecView.total
  exact Finset.single_le_sum (fun _ _ => Nat.zero_le _) (Finset.mem_univ addr)

theorem total_seedAccount_new (addr : Address) (state : AccountState) :
    (ExecView.new.seedAccount addr state).total = state.balance.toNat := by
  have hwei : ∀ a, (ExecView.new.seedAccount addr state).wei a = if a = addr then state.balance.toNat else 0 := by
    intro a
    simp only [ExecView.wei, ExecView.getAccount, ExecView.seedAccount, ExecView.new, StateView.seedAccount,
      StateView.new, StateView.getAccount, List.not_mem_nil, if_false, AList.lookup_empty,
      Option.getD_none]
    split
    · rename_i heq
      rw [heq, AList.lookup_insert, Option.getD_some]
    · rename_i hne
      rw [AList.lookup_insert_ne hne, AList.lookup_empty]
      rfl
  unfold ExecView.total
  rw [Finset.sum_eq_single addr (fun a _ ha => (hwei a).trans (if_neg ha))
    (fun h => absurd (Finset.mem_univ addr) h), hwei, if_pos rfl]

theorem balance_guarded (prior state : AccountState) : (guarded prior state).balance = state.balance := by
  unfold guarded
  split_ifs
  all_goals rfl

theorem getAccount_setAccount (view : ExecView) (addr a : Address) (state : AccountState) :
    (view.setAccount addr state).getAccount a =
      if a = addr then (if addr ∈ view.state.toDelete then state
        else guarded (view.getAccount addr) state) else view.getAccount a := by
  simp only [ExecView.setAccount, ExecView.getAccount, getAccount_eq_account?, account?_setAccount]
  split
  · rfl
  · rfl

theorem wei_setAccount (view : ExecView) (addr : Address) (state : AccountState) (a : Address) :
    (view.setAccount addr state).wei a =
      if a = addr then state.balance.toNat else view.wei a := by
  unfold ExecView.wei
  rw [getAccount_setAccount]
  split
  · split
    · rfl
    · rw [balance_guarded]
  · rfl

theorem wei_selfdestruct (view : ExecView) (addr a : Address) :
    (view.selfdestruct addr).wei a = if a = addr then 0 else view.wei a := by
  simp only [ExecView.selfdestruct, ExecView.wei, ExecView.getAccount, getAccount_eq_account?,
    account?_selfdestruct]
  split
  · rfl
  · rfl

theorem total_setAccount (view : ExecView) (addr : Address) (state : AccountState) :
    (view.setAccount addr state).total + view.wei addr =
      view.total + state.balance.toNat := by
  have h := sum_change (f := view.wei) (g := (view.setAccount addr state).wei) addr
    fun a ha => by simp only [wei_setAccount, if_neg ha]
  rw [wei_setAccount view addr state addr, if_pos rfl] at h
  unfold ExecView.total
  exact h

theorem total_selfdestruct (view : ExecView) (addr : Address) :
    (view.selfdestruct addr).total + view.wei addr = view.total := by
  have h := sum_change (f := view.wei) (g := (view.selfdestruct addr).wei) addr
    fun a ha => by simp only [wei_selfdestruct, if_neg ha]
  rw [wei_selfdestruct view addr addr, if_pos rfl, Nat.add_zero] at h
  unfold ExecView.total
  exact h

def StateAccess.touches : StateAccess → Bool
  | .setAccount _ _ | .selfdestruct _ => true
  | _ => false

theorem wei_of_untouched {access : StateAccess} (h : access.touches = false) (view : ExecView) :
    (ExecView.answer access view).2.wei = view.wei := by
  cases access with
  | setAccount | selfdestruct => cases h
  | _ => rfl

theorem balanceU128_of_small (h : state.balance.toNat ≤ maxU128) :
    state.balanceU128 = state.balance.toNat := min_eq_left h

theorem toNat_setBalanceU128 {wei : ℕ} (h : wei ≤ maxU128) :
    (state.setBalanceU128 wei).balance.toNat = wei := by
  simp only [AccountState.setBalanceU128, BitVec.toNat_ofNat]
  exact Nat.mod_eq_of_lt (lt_of_le_of_lt h (by decide))

theorem toNat_debit (acct : AccountState) (amount : ℕ) :
    (acct.setBalanceU128 (acct.balanceU128 - amount)).balance.toNat = acct.balanceU128 - amount :=
  toNat_setBalanceU128 ((Nat.sub_le _ _).trans (min_le_right _ _))

theorem total_of_untouched (access : StateAccess) (view : ExecView) (h : access.touches = false) :
    (ExecView.answer access view).2.total = view.total := by
  unfold ExecView.total
  rw [wei_of_untouched h]

/-- A written balance moves the total by the difference. -/
theorem total_setBalance (view : ExecView) (addr : Address) (acct : AccountState) {wei : ℕ}
    (hfits : wei ≤ maxU128) :
    (view.setAccount addr (acct.setBalanceU128 wei)).total + view.wei addr =
      view.total + wei := by
  rw [total_setAccount, toNat_setBalanceU128 hfits]

theorem wei_keepBalance (hsame : state.balance = (view.getAccount addr).balance) :
    (view.setAccount addr state).wei = view.wei := by
  funext a
  rw [wei_setAccount]
  split
  · rename_i heq
    rw [heq, hsame]
    rfl
  · rfl

theorem total_of_wei (h : view'.wei = view.wei) : view'.total = view.total := by
  unfold ExecView.total
  rw [h]

theorem total_keepBalance (hsame : state.balance = (view.getAccount addr).balance) :
    (view.setAccount addr state).total = view.total := total_of_wei (wei_keepBalance hsame)

/-- Where the total fits 128 bits, so does every balance. -/
theorem balanceU128_getAccount (hfits : view.total ≤ maxU128) :
    (view.getAccount addr).balanceU128 = view.wei addr :=
  balanceU128_of_small ((wei_le_total view addr).trans hfits)

end Views

section Credits

theorem total_credit (view : ExecView) (addr : Address) (wei : ℕ) (hfits : view.wei addr ≤ maxU128) :
    ((credit addr wei).run ExecView.answer view).2.total + (view.wei addr + wei - maxU128) =
      view.total + wei := by
  have hbalance : (view.getAccount addr).balanceU128 = view.wei addr := balanceU128_of_small hfits
  have h : _ = view.total + saturatingAdd128 (view.wei addr) wei :=
    total_setBalance view addr (view.getAccount addr) (min_le_right _ _)
  simp only [credit, Program.run_bind, run_getAccount, run_setAccount, hbalance]
  unfold saturatingAdd128 at h ⊢
  omega

theorem total_credit_of_small (view : ExecView) (addr : Address) (wei : ℕ)
    (h : view.total + wei ≤ maxU128) :
    ((credit addr wei).run ExecView.answer view).2.total = view.total + wei := by
  have hle := wei_le_total view addr
  have hcredit := total_credit view addr wei (by omega)
  omega

end Credits

section Host
variable {P : Platform} {view : ExecView} {addr source dest : Address} {amount : ℕ}
open ProductionZvmHost

/-- A transfer between two accounts, or of one to itself, keeps the total. -/
theorem total_transfer (h : view.total ≤ maxU128) :
    ((transfer source dest amount).run ExecView.answer view).2.total = view.total := by
  have hsource := wei_le_total view source
  simp only [transfer, Program.run_bind, Program.run_ite, run_getAccount, run_setAccount,
    Program.run_pure, balanceU128_getAccount h]
  split
  · rfl
  · rename_i henough
    have hdebit : _ = view.total + (view.wei source - amount) :=
      total_setBalance view source (view.getAccount source) (by omega)
    generalize view.setAccount source ((view.getAccount source).setBalanceU128 (view.wei source - amount)) =
      after at hdebit ⊢
    have hdest := wei_le_total after dest
    have hcredit : _ = after.total + min (after.wei dest + amount) maxU128 :=
      total_setBalance after dest (after.getAccount dest) (min_le_right _ _)
    rw [balanceU128_getAccount (by omega), saturatingAdd128]
    dsimp only
    omega

/-- What `ZBXBURN` takes. -/
def burntBy : ZvmCall → ExecView → ℕ
  | .burnZbx addr amount, view => if (view.getAccount addr).balanceU128 < amount then 0 else amount
  | _, _ => 0

theorem total_burnZbx (h : view.total ≤ maxU128) :
    ((burnZbx addr amount).run ExecView.answer view).2.total + burntBy (.burnZbx addr amount) view =
      view.total := by
  have hle := wei_le_total view addr
  simp only [burnZbx, burntBy, Program.run_bind, Program.run_ite, run_getAccount, run_setAccount,
    Program.run_pure, balanceU128_getAccount h]
  split
  · exact Nat.add_zero _
  · rename_i henough
    dsimp only
    have hburn : _ = view.total + (view.wei addr - amount) :=
      total_setBalance view addr (view.getAccount addr) (by omega)
    omega

theorem total_sweep (h : view.total ≤ maxU128) :
    ((sweep source dest).run ExecView.answer view).2.total = view.total := by
  simp only [sweep, balance, Program.run_bind, Program.run_ite, run_getAccount, Program.run_pure]
  split
  · exact total_transfer h
  · rfl

theorem total_incNonce : ((incNonce addr).run ExecView.answer view).2.total = view.total := by
  simp only [incNonce, Program.run_bind, run_getAccount, run_setAccount, Program.run_pure]
  exact total_keepBalance rfl

theorem total_setCode {code : List UInt8} :
    ((setCode P addr code).run ExecView.answer view).2.total = view.total := by
  simp only [setCode, Program.run_bind, run_seedCode, run_getAccount, run_setAccount]
  have hkept : (view.seedCode (P.keccak256 code) code).total = view.total :=
    total_of_untouched (.seedCode (P.keccak256 code) code) view rfl
  rw [← hkept]
  exact total_keepBalance rfl

@[simp] theorem run_reading {α : Type} (host : ProductionZvmHost) (p : StateProgram α) :
    (host.reading p).run ExecView.answer view =
      (((p.run ExecView.answer view).1,host),(p.run ExecView.answer view).2) := by
  simp only [reading, Program.run_bind, Program.run_pure]

theorem total_isEmpty : ((isEmpty addr).run ExecView.answer view).2.total = view.total := by
  simp only [isEmpty, balance, Program.run_bind, Program.run_ite, Program.run_pure, run_getAccount]
  split
  · rfl
  · split
    · rfl
    · rfl

theorem total_resolvePayIdBytes (name : List UInt8) :
    ((resolvePayIdBytes P name).run ExecView.answer view).2.total = view.total := by
  simp only [resolvePayIdBytes, Program.run_ite]
  split
  · rfl
  · rfl

theorem total_kept {c : ZvmCall} {view' : ExecView} (hunburnt : burntBy c view = 0)
    (hkept : view'.total = view.total) : view'.total + burntBy c view = view.total := by
  rw [hunburnt, Nat.add_zero, hkept]

def ZvmCall.movesMoney : ZvmCall → Bool
  | .burnZbx _ _ | .transfer _ _ _ | .selfdestruct _ _ => true
  | _ => false

theorem total_unmoved (c : ZvmCall) (host : ProductionZvmHost) (h : c.movesMoney = false) :
    ((answer P c host).run ExecView.answer view).2.total = view.total := by
  cases c with
  | burnZbx | transfer | selfdestruct => cases h
  | incNonce addr =>
    simp only [answer, run_reading]
    exact total_incNonce
  | setCode addr code =>
    simp only [answer, run_reading]
    exact total_setCode
  | isEmpty addr =>
    simp only [answer, run_reading]
    exact total_isEmpty
  | resolvePayId name | resolvePayIdBytes name =>
    simp only [answer, run_reading]
    exact total_resolvePayIdBytes _
  | storageStore addr key value =>
    simp only [answer, run_reading]
    exact total_of_untouched (.setStorage addr key value) view rfl
  | emitLog addr topics data =>
    simp only [answer, run_reading]
    exact total_of_untouched (.emitLog (hostLog addr topics data)) view rfl
  | _ =>
    simp only [answer, run_reading, Program.run_pure, Program.run_bind, run_getAccount, run_getCode,
      run_getStorage, isCallAllowed, reversePayId, balance]

/-- A host call keeps the total, what it burns aside. -/
theorem total_answer (c : ZvmCall) (host : ProductionZvmHost) (h : view.total ≤ maxU128) :
    ((answer P c host).run ExecView.answer view).2.total + burntBy c view = view.total := by
  cases c with
  | burnZbx addr amount =>
    simp only [answer, run_reading]
    exact total_burnZbx h
  | transfer source dest amount =>
    apply total_kept rfl
    simp only [answer, run_reading]
    exact total_transfer h
  | selfdestruct contract beneficiary =>
    apply total_kept rfl
    simp only [answer, Program.run_bind, Program.run_pure]
    exact total_sweep h
  | _ => exact total_kept rfl (total_unmoved _ host rfl)

end Host

end ZbxChain
