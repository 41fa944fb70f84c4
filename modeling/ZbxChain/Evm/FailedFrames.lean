import ZbxChain.Evm.Rounds

/-! # A sub-call that fails leaves no trace

A host keeps its snapshots on a stack as documented, over the accounts that it tells of and the
contracts created in the transaction. `MockHost` does.

Whatever the frame of a call or a creation did, and however deep it nested, a 0 on the stack of
its parent means that the host is as it was before the opcode, but for the nonce that a creation
gives its creator.
-/
namespace ZbxChain.Evm

structure Accounts where
  balance : Address → Word
  nonce : Address → UInt64
  code : Address → List UInt8
  storage : Address → Word → Word
  created : Set Address

namespace Accounts

/-- The same, but for the nonce of `addr`. -/
structure SameBut (addr : Address) (w w' : Accounts) : Prop where
  balance : w'.balance = w.balance
  nonce : ∀ other, other ≠ addr → w'.nonce other = w.nonce other
  code : w'.code = w.code
  storage : w'.storage = w.storage
  created : w'.created = w.created

variable {addr : Address} {w w' : Accounts}

theorem SameBut.refl (addr : Address) (w : Accounts) : SameBut addr w w := ⟨rfl,fun _ _ => rfl,rfl,rfl,rfl⟩

instance (addr : Address) : IsPreorder Accounts (SameBut addr) where
  refl := .refl addr
  trans _ _ _ h h' := ⟨h'.balance.trans h.balance,fun other hne => (h'.nonce other hne).trans (h.nonce other hne),
    h'.code.trans h.code,h'.storage.trans h.storage,h'.created.trans h.created⟩

end Accounts

section Discipline
variable {σ : Type}

/-- The accounts as the host tells of them; which contracts are new is asked for by the host
itself only. -/
def Host.accounts (h : Host σ) (created : σ → Set Address) (s : σ) : Accounts where
  balance addr := (h (.balance addr) s).1
  nonce addr := (h (.nonce addr) s).1
  code addr := (h (.code addr) s).1
  storage addr key := (h (.storageLoad addr key) s).1
  created := created s

/-- The documented discipline: snapshots are on a stack, only the calls for that change it,
the calls that only read change nothing, and `inc_nonce` changes no more than its nonce. -/
structure Host.Disciplined (h : Host σ) (created : σ → Set Address) (stack : σ → List (SnapshotId × Accounts)) : Prop where
  snapshots : ZbxChain.Disciplined h.snapshots (h.accounts created) stack
  changes : ∀ c, EvmCall.journalled c = true → ∀ s, stack (h c s).2 = stack s
  reads : ∀ c, EvmCall.reads c = true → ∀ s, h.accounts created (h c s).2 = h.accounts created s
  incNonce : ∀ addr s, Accounts.SameBut addr (h.accounts created s) (h.accounts created (h (.incNonce addr) s).2)

variable {h : Host σ} {created : σ → Set Address} {stack : σ → List (SnapshotId × Accounts)}

theorem EvmCall.journalled_of_reads {c : EvmCall} (hc : c.reads = true) : c.journalled = true := by
  cases c with
  | snapshot | revertTo id | commit id => cases hc
  | _ => rfl

theorem Host.Disciplined.journalled (hh : h.Disciplined created stack) (E : Accounts → Accounts → Prop) [IsPreorder Accounts E] :
    Journalled h (hh.snapshots.journal E) where
  reads c hc s := ⟨by rw [hh.reads c hc s]; exact Std.Refl.refl _,hh.changes c (EvmCall.journalled_of_reads hc) s⟩
  changes := hh.changes

end Discipline

section MockHost

structure MockAccount where
  balance : Word
  nonce : UInt64
  code : List UInt8
  storage : Table Word Word

/-- `MockAccount::default`. -/
def MockAccount.empty : MockAccount := ⟨0,0,[],∅⟩

structure MockSnapshot where
  id : SnapshotId
  accounts : Table Address MockAccount
  createdThisTx : List Address

/-- The host of the tests, with the last snapshot first. Snapshots are counted, so that one
that is open has a number of its own; that the counter wraps after `2 ^ 64` snapshots is left
out. -/
structure MockHost where
  accounts : Table Address MockAccount
  createdThisTx : List Address
  snapshots : List MockSnapshot
  nextSnapshotId : SnapshotId
  blockHashes : Table UInt64 Word
  counted : ∀ snap ∈ snapshots, snap.id < nextSnapshotId

namespace MockHost

def new : MockHost := ⟨∅,[],[],1,∅,by simp⟩

def account (m : MockHost) (addr : Address) : MockAccount := (m.accounts.lookup addr).getD .empty

/-- `accounts.entry(..).or_default()`, with what is done to it. -/
def update (m : MockHost) (addr : Address) (g : MockAccount → MockAccount) : MockHost :=
  { m with accounts := m.accounts.insert addr (g (m.account addr)) }

def balance (m : MockHost) (addr : Address) : Word := (m.account addr).balance

def nonce (m : MockHost) (addr : Address) : UInt64 := (m.account addr).nonce

def code (m : MockHost) (addr : Address) : List UInt8 := (m.account addr).code

def storageLoad (m : MockHost) (addr : Address) (key : Word) : Word := ((m.account addr).storage.lookup key).getD 0

def codeHash (P : Platform) (m : MockHost) (addr : Address) : Word :=
  if m.code addr = [] then 0 else P.keccak256 (m.code addr)

def storageStore (m : MockHost) (addr : Address) (key value : Word) : MockHost :=
  m.update addr (fun a => { a with storage := a.storage.insert key value })

def setCode (m : MockHost) (addr : Address) (code : List UInt8) : MockHost := m.update addr ({ · with code := code })

def incNonce (m : MockHost) (addr : Address) : Except EvmError UInt64 × MockHost :=
  let nonce := m.nonce addr
  if nonce.toNat + 1 < 2 ^ 64 then (.ok (nonce + 1),m.update addr ({ · with nonce := nonce + 1 }))
  else (.error .nonceOverflow,m.update addr id)

def transfer (m : MockHost) (source dest : Address) (value : Word) : Except EvmError Unit × MockHost :=
  if value = 0 then (.ok (),m)
  else if m.balance source < value then (.error .insufficientBalance,m)
  else
    let newFrom := u256Sub (m.balance source) value
    let newTo := u256Add (m.balance dest) value
    (.ok (),(m.update source ({ · with balance := newFrom })).update dest ({ · with balance := newTo }))

def isEmpty (m : MockHost) (addr : Address) : Bool :=
  match m.accounts.lookup addr with
  | none => true
  | some a => decide (a.nonce = 0 ∧ a.balance = 0 ∧ a.code = [])

def wasCreatedThisTx (m : MockHost) (addr : Address) : Bool := decide (addr ∈ m.createdThisTx)

def destruct (m : MockHost) (addr beneficiary : Address) : MockHost :=
  let bal := m.balance addr
  let paid := if bal ≠ 0 ∧ addr ≠ beneficiary then (m.transfer addr beneficiary bal).2 else m
  if paid.wasCreatedThisTx addr then
    { paid with accounts := paid.accounts.modify addr (fun _ => .empty) }
  else paid

def markCreatedThisTx (m : MockHost) (addr : Address) : MockHost :=
  { m with createdThisTx := m.createdThisTx.insert addr }

def snapshot (m : MockHost) : SnapshotId × MockHost :=
  (m.nextSnapshotId,
    { m with
      snapshots := ⟨m.nextSnapshotId,m.accounts,m.createdThisTx⟩ :: m.snapshots
      nextSnapshotId := m.nextSnapshotId + 1
      counted := by
        intro snap hsnap
        rcases List.mem_cons.mp hsnap with rfl | hsnap
        · exact Nat.lt_succ_self _
        · exact (m.counted snap hsnap).trans (Nat.lt_succ_self _) })

def fromId (snapshots : List MockSnapshot) (id : SnapshotId) : List MockSnapshot := snapshots.dropWhile (·.id ≠ id)

theorem mem_of_mem_fromId {snapshots : List MockSnapshot} {id : SnapshotId} {snap : MockSnapshot}
    (hsnap : snap ∈ fromId snapshots id) : snap ∈ snapshots := List.dropWhile_subset _ hsnap

/-- A number without a snapshot is ignored. -/
def revertTo (m : MockHost) (id : SnapshotId) : MockHost :=
  match hsnaps : fromId m.snapshots id with
  | [] => m
  | snap :: below =>
    { m with
      accounts := snap.accounts
      createdThisTx := snap.createdThisTx
      snapshots := below
      counted := fun snap' hsnap' => m.counted snap' (mem_of_mem_fromId (hsnaps ▸ List.mem_cons_of_mem _ hsnap')) }

def commit (m : MockHost) (id : SnapshotId) : MockHost :=
  { m with
    snapshots := m.snapshots.eraseP (·.id = id)
    counted := fun snap hsnap => m.counted snap (List.mem_of_mem_eraseP hsnap) }

def resolvePayIdBytes (P : Platform) (m : MockHost) (name : List UInt8) : Option Address :=
  if !validatePayidName name then none
  else
    let word := m.storageLoad payidRegistrarAddr (payidForwardSlot P name)
    if word = 0 then none else some (word.setWidth 160)

def reversePayId (P : Platform) (m : MockHost) (addr : Address) : Option (List UInt8) :=
  let word := m.storageLoad payidRegistrarAddr (payidReverseSlot P addr)
  if word = 0 then none else some (word.toBigEndian.takeWhile (· ≠ 0))

/-- `impl Host for MockHost`. -/
def host (P : Platform) : Host MockHost
  | .balance addr, m => (m.balance addr,m)
  | .nonce addr, m => (m.nonce addr,m)
  | .code addr, m => (m.code addr,m)
  | .codeHash addr, m => (m.codeHash P addr,m)
  | .storageLoad addr key, m => (m.storageLoad addr key,m)
  | .storageStore addr key value, m => ((),m.storageStore addr key value)
  | .setCode addr code, m => ((),m.setCode addr code)
  | .incNonce addr, m => m.incNonce addr
  | .transfer source dest value, m => m.transfer source dest value
  | .isEmpty addr, m => (m.isEmpty addr,m)
  | .destruct addr beneficiary, m => ((),m.destruct addr beneficiary)
  | .markCreatedThisTx addr, m => ((),m.markCreatedThisTx addr)
  | .snapshot, m => m.snapshot
  | .revertTo id, m => ((),m.revertTo id)
  | .commit id, m => ((),m.commit id)
  | .blockHash blockNumber, m => ((m.blockHashes.lookup blockNumber).getD 0,m)
  | .resolvePayIdBytes name, m => (m.resolvePayIdBytes P name,m)
  | .reversePayId addr, m => (m.reversePayId P addr,m)

section Obeys
variable {m : MockHost} {addr : Address} {id : SnapshotId}

def accountsOf (accounts : Table Address MockAccount) (createdThisTx : List Address) : Accounts where
  balance addr := ((accounts.lookup addr).getD .empty).balance
  nonce addr := ((accounts.lookup addr).getD .empty).nonce
  code addr := ((accounts.lookup addr).getD .empty).code
  storage addr key := (((accounts.lookup addr).getD .empty).storage.lookup key).getD 0
  created := {addr | addr ∈ createdThisTx}

def created (m : MockHost) : Set Address := {addr | addr ∈ m.createdThisTx}

def stack (m : MockHost) : List (SnapshotId × Accounts) :=
  m.snapshots.map (fun snap => (snap.id,accountsOf snap.accounts snap.createdThisTx))

theorem fst_stack (m : MockHost) : m.stack.map Prod.fst = m.snapshots.map MockSnapshot.id := by
  rw [stack, List.map_map]
  rfl

/-- The snapshot of an entry of the stack, with what stands above it. -/
theorem snapshots_of_stack {above below : List (SnapshotId × Accounts)} {w : Accounts}
    (hstack : m.stack = above ++ (id,w) :: below) (hfresh : id ∉ above.map Prod.fst) :
    ∃ upper snap lower, m.snapshots = upper ++ snap :: lower ∧ (∀ other ∈ upper, other.id ≠ id) ∧ snap.id = id ∧
      accountsOf snap.accounts snap.createdThisTx = w ∧
      upper.map (fun snap => (snap.id,accountsOf snap.accounts snap.createdThisTx)) = above ∧
      lower.map (fun snap => (snap.id,accountsOf snap.accounts snap.createdThisTx)) = below := by
  obtain ⟨upper,rest,hsnaps,rfl,hrest⟩ := List.map_eq_append_iff.mp hstack
  obtain ⟨snap,lower,rfl,hsnap,rfl⟩ := List.map_eq_cons_iff.mp hrest
  obtain ⟨rfl,rfl⟩ := Prod.mk.inj hsnap
  refine ⟨upper,snap,lower,hsnaps,fun other hother heq => hfresh ?_,rfl,rfl,rfl,rfl⟩
  rw [List.map_map, List.mem_map]
  exact ⟨other,hother,heq⟩

theorem revertTo_snap {upper lower : List MockSnapshot} {snap : MockSnapshot} (hsnaps : m.snapshots = upper ++ snap :: lower)
    (hupper : ∀ other ∈ upper, other.id ≠ snap.id) : (m.revertTo snap.id).accounts = snap.accounts ∧
      (m.revertTo snap.id).createdThisTx = snap.createdThisTx ∧ (m.revertTo snap.id).snapshots = lower := by
  have hfrom : fromId m.snapshots snap.id = snap :: lower := by
    rw [hsnaps, fromId, List.dropWhile_append_of_pos (by simpa using hupper), List.dropWhile_cons_of_neg (by simp)]
  unfold revertTo
  split
  · rename_i hnone
    rw [hfrom] at hnone
    cases hnone
  · rename_i snap' below hsome
    rw [hfrom] at hsome
    cases hsome
    exact ⟨rfl,rfl,rfl⟩

theorem snapshots_commit {upper lower : List MockSnapshot} {snap : MockSnapshot} (hsnaps : m.snapshots = upper ++ snap :: lower)
    (hupper : ∀ other ∈ upper, other.id ≠ snap.id) : (m.commit snap.id).snapshots = upper ++ lower := by
  change m.snapshots.eraseP _ = _
  rw [hsnaps, List.eraseP_append_right _ (by simpa using hupper), List.eraseP_cons_of_pos (by simp)]

theorem account_update (g : MockAccount → MockAccount) (other : Address) :
    (m.update addr g).account other = if other = addr then g (m.account addr) else m.account other := by
  unfold update account
  by_cases hother : other = addr
  · subst hother
    rw [if_pos rfl, AList.lookup_insert]
    rfl
  · rw [if_neg hother, AList.lookup_insert_ne hother]

theorem stack_transfer (m : MockHost) (source dest : Address) (value : Word) :
    (m.transfer source dest value).2.stack = m.stack := by
  unfold transfer
  split
  · rfl
  · split
    · rfl
    · rfl

theorem stack_destruct (m : MockHost) (addr beneficiary : Address) : (m.destruct addr beneficiary).stack = m.stack := by
  have hpaid : (if m.balance addr ≠ 0 ∧ addr ≠ beneficiary then
      (m.transfer addr beneficiary (m.balance addr)).2 else m).stack = m.stack := by
    split
    · exact stack_transfer m _ _ _
    · rfl
  unfold destruct
  dsimp only
  generalize (if m.balance addr ≠ 0 ∧ addr ≠ beneficiary then
    (m.transfer addr beneficiary (m.balance addr)).2 else m) = paid at hpaid ⊢
  split
  · exact hpaid
  · exact hpaid

theorem stack_incNonce (m : MockHost) (addr : Address) : (m.incNonce addr).2.stack = m.stack := by
  unfold incNonce
  dsimp only
  split
  · rfl
  · rfl

theorem sameBut_update {g : MockAccount → MockAccount} (hbalance : (g (m.account addr)).balance = (m.account addr).balance)
    (hcode : (g (m.account addr)).code = (m.account addr).code)
    (hstorage : (g (m.account addr)).storage = (m.account addr).storage) (P : Platform) :
    Accounts.SameBut addr ((host P).accounts created m) ((host P).accounts created (m.update addr g)) := by
  refine ⟨funext fun other => ?_,fun other hne => ?_,funext fun other => ?_,funext fun other => funext fun key => ?_,rfl⟩
  · change ((m.update addr g).account other).balance = (m.account other).balance
    rw [account_update]
    split
    · rename_i hother
      rw [hother, hbalance]
    · rfl
  · change ((m.update addr g).account other).nonce = (m.account other).nonce
    rw [account_update, if_neg hne]
  · change ((m.update addr g).account other).code = (m.account other).code
    rw [account_update]
    split
    · rename_i hother
      rw [hother, hcode]
    · rfl
  · change (((m.update addr g).account other).storage.lookup key).getD 0 = ((m.account other).storage.lookup key).getD 0
    rw [account_update]
    split
    · rename_i hother
      rw [hother, hstorage]
    · rfl

theorem disciplined (P : Platform) : (host P).Disciplined created stack where
  snapshots := {
    fresh := by
      intro m hmem
      rw [fst_stack, List.mem_map] at hmem
      obtain ⟨snap,hsnap,hid⟩ := hmem
      exact absurd (m.counted snap hsnap) (by rw [hid]; exact lt_irrefl _)
    stack_snapshot := fun _ => rfl
    world_revertTo := by
      intro m above below i w hstack hfresh
      obtain ⟨upper,snap,lower,hsnaps,hupper,rfl,rfl,-,-⟩ := snapshots_of_stack hstack hfresh
      obtain ⟨haccounts,hcreated,-⟩ := revertTo_snap hsnaps hupper
      exact congrArg₂ accountsOf haccounts hcreated
    stack_revertTo := by
      intro m above below i w hstack hfresh
      obtain ⟨upper,snap,lower,hsnaps,hupper,rfl,-,-,rfl⟩ := snapshots_of_stack hstack hfresh
      exact congrArg (List.map _) (revertTo_snap hsnaps hupper).2.2
    stack_commit := by
      intro m above below i w hstack hfresh
      obtain ⟨upper,snap,lower,hsnaps,hupper,rfl,-,rfl,rfl⟩ := snapshots_of_stack hstack hfresh
      rw [← List.map_append]
      exact congrArg (List.map _) (snapshots_commit hsnaps hupper) }
  changes := by
    intro c hc m
    cases c with
    | snapshot | revertTo id | commit id => cases hc
    | transfer source dest value => exact stack_transfer m source dest value
    | destruct addr beneficiary => exact stack_destruct m addr beneficiary
    | incNonce addr => exact stack_incNonce m addr
    | _ => rfl
  reads := by
    intro c hc m
    cases c with
    | balance | nonce | code | codeHash | storageLoad | isEmpty | blockHash | resolvePayIdBytes | reversePayId => rfl
    | _ => cases hc
  incNonce := by
    intro addr m
    change Accounts.SameBut addr _ ((host P).accounts created (m.incNonce addr).2)
    unfold incNonce
    dsimp only
    split
    · exact sameBut_update rfl rfl rfl P
    · exact sameBut_update rfl rfl rfl P

end Obeys

end MockHost

end MockHost

def FrameKind.Untouched (kind : FrameKind) (creator : Address) : Accounts → Accounts → Prop :=
  match kind with
  | .call _ => Eq
  | .create _ => Accounts.SameBut creator

instance (kind : FrameKind) (creator : Address) : IsPreorder Accounts (kind.Untouched creator) := by
  cases kind with
  | call kind => exact inferInstanceAs (IsPreorder Accounts Eq)
  | create withSalt => exact inferInstanceAs (IsPreorder Accounts (Accounts.SameBut creator))

section Failed
variable {σ : Type} {h : Host σ} {created : σ → Set Address} {stack : σ → List (SnapshotId × Accounts)}

theorem forgives_journal (hh : h.Disciplined created stack) (kind : FrameKind) (creator : Address) :
    Forgives (hh.snapshots.journal (kind.Untouched creator)) kind creator := by
  rintro withSalt rfl s
  exact ⟨hh.incNonce creator s,hh.changes _ rfl s⟩

/-- Under a disciplined host, a round of any run that puts a 0 on the stack for a call or a
creation leaves the accounts, the logs and the open snapshots as they were. -/
theorem failed_frame_leaves_no_trace (hh : h.Disciplined created stack) (P : Platform) (Z : Precompiles)
    (ctx : EVMContext) (code : List UInt8) (fuel : ℕ) {f f' : EVMInterpreter} {s₀ s s' : σ} {kind : FrameKind}
    (hreaches : Reaches P Z h (.new ctx code) s₀ f s) (hkind : f.frameKind = some kind)
    (hround : (round P Z (run P Z fuel) f).run h s = (some (.next f'),s'))
    (hzero : f'.stack.data.head? = some 0)
    (hnew : ∀ f₁ sub s₁, (step P Z f).run h s = (.enter f₁ sub,s₁) → sub.Nonzero) :
    kind.Untouched f.ctx.callee (h.accounts created s) (h.accounts created s') ∧ f'.logs = f.logs ∧
      stack s' = stack s := by
  have hspec := round_run_spec (P := P) (Z := Z) (c := True) (hh.journalled (kind.Untouched f.ctx.callee)) fuel
    (hreaches.valid Memory.valid_new)
    (fun _ kind' hkind' => (Option.some.inj (hkind.symm.trans hkind')) ▸ forgives_journal hh kind f.ctx.callee)
    (fun _ => hnew) (s := s)
  unfold Program.Gives at hspec
  rw [hround] at hspec
  obtain ⟨hlogs,haccounts,hstack⟩ := (hspec.closes kind hkind).2 trivial hzero
  exact ⟨haccounts,hlogs,hstack⟩

end Failed

section FailingCallee

/-- The contract 0xAA stores and fails. -/
def failingCallee : MockHost :=
  { MockHost.new with
    accounts := AList.singleton 0xAA ⟨0,1,[0x60,1,0x5F,0x55,0xFE],∅⟩
    counted := MockHost.new.counted }

/-- `CALL` to 0xAA with 65,535 gas. -/
def callsFailing : List UInt8 := [0x5F,0x5F,0x5F,0x5F,0x5F,0x60,0xAA,0x61,0xFF,0xFF,0xF1]

def failedCall : Option ((EVMInterpreter × MockHost) × (EVMInterpreter × MockHost)) := do
  let before ← nexts .integers noPrecompiles (MockHost.host .integers) 0 7 (.new (plainContext 100000) callsFailing)
    failingCallee
  match (round .integers noPrecompiles (run .integers noPrecompiles 5) before.1).run (MockHost.host .integers) before.2 with
  | (some (.next f'),s') => some (before,(f',s'))
  | _ => none

set_option maxRecDepth 4000 in
theorem failedCall_eq : failedCall.map (fun r => (r.1.1.frameKind,r.2.1.stack.data)) =
    some (some (.call .call),[0]) := by decide +kernel

/-- The callee stores a word and fails; its parent finds a 0 and the accounts as they were. -/
theorem failed_call_takes_its_store_back : ∃ f f' s s',
    Reaches .integers noPrecompiles (MockHost.host .integers) (.new (plainContext 100000) callsFailing) failingCallee f s ∧
    (round .integers noPrecompiles (run .integers noPrecompiles 5) f).run (MockHost.host .integers) s = (some (.next f'),s') ∧
    f'.stack.data = [0] ∧ (MockHost.host .integers).accounts MockHost.created s = (MockHost.host .integers).accounts MockHost.created s' := by
  have hcall := failedCall_eq
  rcases hsome : failedCall with _ | ⟨⟨f,s⟩,⟨f',s'⟩⟩
  · rw [hsome] at hcall
    cases hcall
  · rw [hsome] at hcall
    obtain ⟨hkind,hstack⟩ := Prod.mk.inj (Option.some.inj hcall)
    unfold failedCall at hsome
    obtain ⟨⟨f₁,s₁⟩,hbefore,hafter⟩ := Option.bind_eq_some_iff.mp hsome
    dsimp only at hafter
    split at hafter
    · rename_i f₂ s₂ hround
      cases hafter
      have hreaches := reaches_of_nexts hbefore
      refine ⟨f,f',s,s',hreaches,hround,hstack,?_⟩
      exact (failed_frame_leaves_no_trace (MockHost.disciplined .integers) .integers noPrecompiles _ _ 5 hreaches hkind
        hround (by rw [hstack]; rfl) fun _ _ _ hstep => nonzero_of_call (hreaches.valid Memory.valid_new) hkind hstep).1
    · cases hafter

end FailingCallee

end ZbxChain.Evm
