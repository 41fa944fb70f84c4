import ZbxChain.Foundation.Checked
import ZbxChain.Node.Tombstones

/-! # Burns on the accounts of the disk

`apply_slash_burns` reads each account from the disk while its writes wait in a batch, so of
several entries of one offender the last one is burnt and all of them are reported.
-/
namespace ZbxChain

namespace Table
variable {κ α : Type*} [DecidableEq κ] {t : Table κ α} {batch : List (κ × α)} {k : κ}

/-- A `WriteBatch` of puts, in their order. -/
def write (t : Table κ α) (batch : List (κ × α)) : Table κ α :=
  batch.foldl (fun t entry => t.insert entry.1 entry.2) t

theorem lookup_write : (t.write batch).lookup k =
    (((batch.filter (fun entry => entry.1 = k)).getLast?).map Prod.snd).or (t.lookup k) := by
  induction batch using List.reverseRecOn with
  | nil => rfl
  | append_singleton batch entry ih =>
    rw [write, List.foldl_append, List.foldl_cons, List.foldl_nil, List.filter_append]
    by_cases hk : entry.1 = k
    · subst hk
      simp [AList.lookup_insert]
    · rw [AList.lookup_insert_ne (Ne.symm hk), ← write, ih]
      simp [hk]

end Table

namespace Staking

section Burns
variable (accounts : Accounts) (fault : Address → Option String)

/-- `get_account`: what is stored may not decode. -/
def readAccount (addr : Address) : Except String AccountState :=
  match fault addr with
  | some e => .error e
  | none => .ok ((accounts.lookup addr).getD .fresh)

/-- One burn: what is put into the batch, and what is reported. -/
def burnEntry (acct : AccountState) (offender : Address) (amountWei : ℕ) : (Address × AccountState) × ℕ :=
  let bal := acct.balanceU128
  let burn := min amountWei bal
  ((offender,acct.setBalanceU128 (bal - burn)),burn)

/-- `ZbxDb::apply_slash_burns`, with what the write of the batch may fail with. -/
def ZbxDb.applySlashBurns (writeFault : Option String) (burns : List (Address × ℕ)) :
    Except String (Accounts × List ℕ) := do
  let (batch,actual) ← burns.foldlM (fun (batch,actual) (offender,amountWei) => do
    let acct ← readAccount accounts fault offender
    let (entry,burn) := burnEntry acct offender amountWei
    pure (batch ++ [entry],actual ++ [burn])) (([] : List (Address × AccountState)),([] : List ℕ))
  match writeFault with
  | some e => .error e
  | none => pure (Table.write accounts batch,actual)

def storedAccount (addr : Address) : AccountState := (accounts.lookup addr).getD .fresh

def storedBurn (burn : Address × ℕ) : (Address × AccountState) × ℕ :=
  burnEntry (storedAccount accounts burn.1) burn.1 burn.2

variable {accounts fault} {burns : List (Address × ℕ)} {accounts' : Accounts} {actual : List ℕ}
  {writeFault : Option String} {addr : Address}

theorem burnLoop_ok {batch batch' : List (Address × AccountState)} {done actual : List ℕ}
    (h : burns.foldlM (fun (batch,actual) (offender,amountWei) => do
      let acct ← readAccount accounts fault offender
      let (entry,burn) := burnEntry acct offender amountWei
      pure (batch ++ [entry],actual ++ [burn])) (batch,done) = .ok (batch',actual)) :
    batch' = batch ++ burns.map (fun burn => (storedBurn accounts burn).1) ∧
      actual = done ++ burns.map (fun burn => (storedBurn accounts burn).2) := by
  induction burns generalizing batch done with
  | nil =>
    cases h
    simp
  | cons burn burns ih =>
    rw [List.foldlM_cons] at h
    obtain ⟨offender,amountWei⟩ := burn
    obtain ⟨⟨batch₁,done₁⟩,hone,hrest⟩ := Checked.bind_eq_ok.mp h
    obtain ⟨acct,hread,hput⟩ := Checked.bind_eq_ok.mp hone
    unfold readAccount at hread
    split at hread
    · cases hread
    · cases hread
      cases hput
      obtain ⟨hbatch,hactual⟩ := ih hrest
      rw [hbatch, hactual, List.append_assoc, List.append_assoc]
      exact ⟨rfl,rfl⟩

theorem burns_ok (h : ZbxDb.applySlashBurns accounts fault writeFault burns = .ok (accounts',actual)) :
    accounts' = Table.write accounts (burns.map (fun burn => (storedBurn accounts burn).1)) ∧
      actual = burns.map (fun burn => (storedBurn accounts burn).2) := by
  obtain ⟨⟨batch,done⟩,hloop,hrest⟩ := Checked.bind_eq_ok.mp h
  obtain ⟨hbatch,hdone⟩ := burnLoop_ok hloop
  cases writeFault with
  | some e => cases hrest
  | none =>
    cases hrest
    exact ⟨by rw [hbatch, List.nil_append],by rw [hdone, List.nil_append]⟩

end Burns

section Amounts
variable {bal : ℕ} {requested : List ℕ}

/-- Exactly one entry counts: the last one. -/
def BurnsFit (bal : ℕ) (requested : List ℕ) : Prop :=
  requested = [] ∨
    if bal ≤ maxU128 then bal = 0 ∨ ∀ amount ∈ requested.dropLast, amount = 0
    else requested.dropLast.sum = bal - maxU128

instance : Decidable (BurnsFit bal requested) := inferInstanceAs (Decidable (_ ∨ _))

theorem sum_capped_eq_zero (cap : ℕ) {amounts : List ℕ} :
    (amounts.map (min · cap)).sum = 0 ↔ cap = 0 ∨ ∀ amount ∈ amounts, amount = 0 := by
  rw [List.sum_eq_zero_iff, List.forall_mem_map]
  constructor
  · intro hall
    by_cases hcap : cap = 0
    · exact Or.inl hcap
    · exact Or.inr fun amount hamount => by
        have hzero := hall amount hamount
        omega
  · rintro (rfl | hall) amount hamount
    · exact Nat.min_zero _
    · rw [hall amount hamount, Nat.zero_min]

theorem map_min_of_le {cap : ℕ} {amounts : List ℕ} (h : ∀ amount ∈ amounts, amount ≤ cap) :
    amounts.map (min · cap) = amounts := by
  conv_rhs => rw [← List.map_id amounts]
  exact List.map_congr_left fun amount hamount => Nat.min_eq_left (h amount hamount)

theorem burnsFit_iff (hrequested : ∀ amount ∈ requested, amount ≤ maxU128) :
    BurnsFit bal requested ↔
      ((requested.getLast?.map (fun amount => min bal maxU128 - min amount (min bal maxU128))).getD bal =
          bal - (requested.map (min · (min bal maxU128))).sum ∧
        (requested.map (min · (min bal maxU128))).sum = min bal requested.sum) := by
  rcases List.eq_nil_or_concat requested with rfl | ⟨amounts,last,rfl⟩
  · simp [BurnsFit]
  · have hlast : last ≤ maxU128 := hrequested last (by simp)
    have hamounts : ∀ amount ∈ amounts, amount ≤ maxU128 := fun amount hmem => hrequested amount (by simp [hmem])
    rw [List.concat_eq_append] at *
    have hfit : BurnsFit bal (amounts ++ [last]) ↔ if bal ≤ maxU128 then bal = 0 ∨ ∀ amount ∈ amounts, amount = 0
        else amounts.sum = bal - maxU128 := by
      simp [BurnsFit]
    rw [hfit, List.getLast?_concat, Option.map_some, Option.getD_some, List.map_append, List.sum_append,
      List.map_singleton, List.sum_singleton, List.sum_append, List.sum_singleton]
    by_cases hsmall : bal ≤ maxU128
    · rw [if_pos hsmall, min_eq_left hsmall, ← sum_capped_eq_zero bal]
      constructor
      · intro hzero
        rcases (sum_capped_eq_zero bal).mp hzero with rfl | hall
        · simp
        · have htotal : amounts.sum = 0 := List.sum_eq_zero_iff.mpr hall
          omega
      · rintro ⟨hleft,hburnt⟩
        omega
    · rw [if_neg hsmall, min_eq_right (by omega), map_min_of_le hamounts]
      omega

end Amounts

section Exact
variable {accounts accounts' : Accounts} {fault : Address → Option String} {writeFault : Option String}
  {burns : List (Address × ℕ)} {actual : List ℕ} {addr : Address}

def requestedOf (burns : List (Address × ℕ)) (addr : Address) : List ℕ :=
  (burns.filter (fun burn => burn.1 = addr)).map Prod.snd

def burntOf (burns : List (Address × ℕ)) (actual : List ℕ) (addr : Address) : List ℕ :=
  ((burns.zip actual).filter (fun entry => entry.1.1 = addr)).map Prod.snd

/-- An account is debited by what is reported, which is what is asked for as far as the balance
goes, and is as it was otherwise. -/
structure BurntExactly (accounts accounts' : Accounts) (burns : List (Address × ℕ)) (actual : List ℕ)
    (addr : Address) : Prop where
  balance : (storedAccount accounts' addr).balance.toNat =
    (storedAccount accounts addr).balance.toNat - (burntOf burns actual addr).sum
  burnt : (burntOf burns actual addr).sum =
    min (storedAccount accounts addr).balance.toNat (requestedOf burns addr).sum
  rest : { storedAccount accounts' addr with balance := (storedAccount accounts addr).balance } =
    storedAccount accounts addr

theorem burntOf_map (accounts : Accounts) (burns : List (Address × ℕ)) (addr : Address) :
    burntOf burns (burns.map (fun burn => (storedBurn accounts burn).2)) addr =
      (requestedOf burns addr).map (min · (storedAccount accounts addr).balanceU128) := by
  unfold burntOf requestedOf
  induction burns with
  | nil => rfl
  | cons burn burns ih =>
    obtain ⟨offender,amountWei⟩ := burn
    rw [List.map_cons, List.zip_cons_cons]
    by_cases hoffender : offender = addr
    · subst hoffender
      simp only [List.filter_cons, decide_true, if_true, List.map_cons, ih]
      rfl
    · simp only [List.filter_cons, hoffender, decide_false, Bool.false_eq_true, if_false, ih]

theorem storedAccount_write (accounts : Accounts) (burns : List (Address × ℕ)) (addr : Address) :
    storedAccount (Table.write accounts (burns.map (fun burn => (storedBurn accounts burn).1))) addr =
      ((requestedOf burns addr).getLast?.map (fun amountWei =>
        (burnEntry (storedAccount accounts addr) addr amountWei).1.2)).getD (storedAccount accounts addr) := by
  have hentries : (burns.map (fun burn => (storedBurn accounts burn).1)).filter (fun entry => entry.1 = addr) =
      (requestedOf burns addr).map (fun amountWei => (burnEntry (storedAccount accounts addr) addr amountWei).1) := by
    unfold requestedOf
    rw [List.filter_map, List.map_map]
    apply List.map_congr_left
    rintro ⟨offender,amountWei⟩ hmem
    obtain rfl : offender = addr := of_decide_eq_true (List.mem_filter.mp hmem).2
    rfl
  unfold storedAccount
  rw [Table.lookup_write, hentries, List.getLast?_map, Option.map_map]
  cases (requestedOf burns addr).getLast? with
  | none => rfl
  | some amountWei => rfl

theorem toNat_burnEntry (acct : AccountState) (amountWei : ℕ) :
    (burnEntry acct addr amountWei).1.2.balance.toNat = acct.balanceU128 - min amountWei acct.balanceU128 :=
  toNat_debit acct _

theorem burntExactly_iff (h : ZbxDb.applySlashBurns accounts fault writeFault burns = .ok (accounts',actual))
    (hburns : ∀ burn ∈ burns, burn.2 ≤ maxU128) : BurntExactly accounts accounts' burns actual addr ↔
      BurnsFit (storedAccount accounts addr).balance.toNat (requestedOf burns addr) := by
  have hrequested : ∀ amount ∈ requestedOf burns addr, amount ≤ maxU128 := by
    intro amount hamount
    obtain ⟨burn,hburn,rfl⟩ := List.mem_map.mp hamount
    exact hburns burn (List.mem_filter.mp hburn).1
  obtain ⟨rfl,rfl⟩ := burns_ok h
  have hbalance : (storedAccount (Table.write accounts (burns.map (fun burn => (storedBurn accounts burn).1))) addr).balance.toNat =
      ((requestedOf burns addr).getLast?.map (fun amount =>
        min (storedAccount accounts addr).balance.toNat maxU128 -
          min amount (min (storedAccount accounts addr).balance.toNat maxU128))).getD
        (storedAccount accounts addr).balance.toNat := by
    rw [storedAccount_write]
    cases (requestedOf burns addr).getLast? with
    | none => rfl
    | some amountWei => exact toNat_burnEntry _ amountWei
  have hrest : { storedAccount (Table.write accounts (burns.map (fun burn => (storedBurn accounts burn).1))) addr with
      balance := (storedAccount accounts addr).balance } = storedAccount accounts addr := by
    rw [storedAccount_write]
    cases (requestedOf burns addr).getLast? with
    | none => rfl
    | some amountWei => rfl
  rw [burnsFit_iff hrequested, ← hbalance]
  constructor
  · rintro ⟨hleft,hburnt,-⟩
    rw [burntOf_map] at hleft hburnt
    exact ⟨hleft,hburnt⟩
  · rintro ⟨hleft,hburnt⟩
    exact ⟨by rw [burntOf_map]; exact hleft,by rw [burntOf_map]; exact hburnt,hrest⟩

/-- Burns are exact for every account if, and only if, one entry of each offender counts. -/
theorem burns_exact_iff (accounts : Accounts) (fault : Address → Option String) (writeFault : Option String)
    (burns : List (Address × ℕ)) (accounts' : Accounts) (actual : List ℕ)
    (h : ZbxDb.applySlashBurns accounts fault writeFault burns = .ok (accounts',actual))
    (hburns : ∀ burn ∈ burns, burn.2 ≤ maxU128) :
    (∀ addr, BurntExactly accounts accounts' burns actual addr) ↔
      ∀ addr, BurnsFit (storedAccount accounts addr).balance.toNat (requestedOf burns addr) :=
  forall_congr' fun _ => burntExactly_iff h hburns

/-- Account 7 with ten wei. -/
def tenWei : Accounts := (∅ : Accounts).insert 7 { AccountState.fresh with balance := 10 }

theorem burns_exact_single : ∃ accounts',
    ZbxDb.applySlashBurns tenWei (fun _ => none) none [(7,3),(8,1)] = .ok (accounts',[3,0]) ∧
      ∀ addr, BurntExactly tenWei accounts' [(7,3),(8,1)] [3,0] addr := by
  refine ⟨_,rfl,(burns_exact_iff tenWei (fun _ => none) none [(7,3),(8,1)] _ _ rfl (by decide)).mpr ?_⟩
  intro addr
  by_cases hseven : addr = 7
  · subst hseven
    decide +kernel
  · by_cases height : addr = 8
    · subst height
      decide +kernel
    · have hnone : requestedOf [(7,3),(8,1)] addr = [] := by
        simp [requestedOf]
        exact ⟨fun h => hseven h.symm,fun h => height h.symm⟩
      exact Or.inl hnone

/-- Two records of one offender: seven wei are reported, and four are burnt. -/
theorem second_burn_replaces_first : ∃ accounts',
    ZbxDb.applySlashBurns tenWei (fun _ => none) none [(7,3),(7,4)] = .ok (accounts',[3,4]) ∧
      (storedAccount accounts' 7).balance = 6 ∧ ¬ BurntExactly tenWei accounts' [(7,3),(7,4)] [3,4] 7 := by
  refine ⟨_,rfl,by decide +kernel,?_⟩
  rintro ⟨hbalance,-,-⟩
  revert hbalance
  decide +kernel

end Exact

end Staking

end ZbxChain
