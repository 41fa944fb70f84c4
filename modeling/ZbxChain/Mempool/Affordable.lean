import ZbxChain.Mempool.Lanes

/-! # What the pooled transactions of a sender cost together

The reserves of a sender are counted without the transaction that is replaced, before it is
decided in which table the new one goes. Where that is the other table, the old transaction
stays and nobody has counted it. A block takes of the pending transactions what fits.
-/
namespace ZbxChain

namespace SignedTransaction

/-- `value + gas_limit * max_fee_per_gas`, whatever its size. -/
def exactCost (tx : SignedTransaction) : ℕ := tx.tx.maxFeePerGas.toNat * tx.tx.gasLimit.toNat + tx.tx.value.toNat

def costFor (addr : Address) (tx : SignedTransaction) : ℕ := if tx.sender = addr then tx.exactCost else 0

theorem fee_le (tx : SignedTransaction) : tx.tx.maxFeePerGas.toNat * tx.tx.gasLimit.toNat ≤ maxU128 := by
  have hfee := tx.tx.maxFeePerGas.toNat_lt
  have hgas := tx.tx.gasLimit.toNat_lt
  have hproduct := Nat.mul_le_mul (Nat.le_pred_of_lt hfee) (Nat.le_pred_of_lt hgas)
  exact hproduct.trans (by decide)

theorem costOf_eq (tx : SignedTransaction) : tx.costOf = min tx.exactCost maxU128 := by
  unfold costOf cappedValue exactCost saturatingAdd128
  have hmax : maxU128 + 1 = 2 ^ 128 := by decide
  split
  · omega
  · rfl

theorem slotCost_eq (tx : SignedTransaction) : tx.slotCost = min tx.exactCost maxU128 := by
  rw [← costOf_eq, slotCost, costOf, saturatingMul128, Nat.min_eq_left tx.fee_le]

end SignedTransaction

namespace TransactionPool

def pendingCost (addr : Address) (_ : TxKey) (slot : PendingSlot) : ℕ := slot.tx.costFor addr

def queuedCost (addr : Address) (_ : TxKey) (tx : SignedTransaction) : ℕ := tx.costFor addr

section Costs
variable (pool : TransactionPool) (tx : SignedTransaction) (addr : Address)

def pooledCost : ℕ := pool.pending.sumOf (pendingCost addr) + pool.queued.sumOf (queuedCost addr)

def othersCost : ℕ :=
  (pool.pending.erase tx.key).sumOf (pendingCost tx.sender) + (pool.queued.erase tx.key).sumOf (queuedCost tx.sender)

/-- The transaction at the same nonce in the table where the new one does not go. -/
def twinCost : ℕ :=
  if tx.tx.nonce = pool.nonceTracker.nextNonce tx.sender then pool.queued.countOf (queuedCost tx.sender) tx.key
  else pool.pending.countOf (pendingCost tx.sender) tx.key

/-- The pending transactions in whose place promotions put others. -/
def overwrittenUpTo : ℕ → TransactionPool → ℕ
  | 0, _ => 0
  | limit + 1, pool =>
    let expected := pool.nonceTracker.nextNonce addr
    match pool.queued.lookup (addr,expected) with
    | none => 0
    | some tx => pool.pending.countOf (pendingCost addr) (addr,expected) +
        overwrittenUpTo limit (pool.promote addr expected tx)

def overwrittenCost : ℕ :=
  if tx.tx.nonce = pool.nonceTracker.nextNonce tx.sender then
    overwrittenUpTo tx.sender maxPromotePerCall (pool.joined tx (tx.tipAt pool.baseFee))
  else 0

/-- What the reserves are counted without is what the new transaction takes the place of. -/
def SubtractsReplaced : Prop :=
  if tx.tx.nonce = pool.nonceTracker.nextNonce tx.sender then
    (pool.pending.lookup tx.key).isSome ∨ pool.queued.lookup tx.key = none
  else pool.pending.lookup tx.key = none

structure Keyed : Prop where
  pending : ∀ key slot, pool.pending.lookup key = some slot → slot.tx.key = key
  queued : ∀ key tx, pool.queued.lookup key = some tx → tx.key = key

end Costs

section Sums
variable {pool : TransactionPool} {tx : SignedTransaction} {addr : Address}

theorem pooledCost_promote {n : UInt64} (h : pool.queued.lookup (addr,n) = some tx) :
    (pool.promote addr n tx).pooledCost addr + pool.pending.countOf (pendingCost addr) (addr,n) =
      pool.pooledCost addr := by
  have hpending := AList.sumOf_insert pool.pending (pendingCost addr) (addr,n) ⟨tx,tx.tipAt pool.baseFee⟩
  have hqueued := AList.sumOf_erase pool.queued (queuedCost addr) (addr,n)
  rw [AList.countOf_of_some h] at hqueued
  unfold pooledCost promote
  dsimp only
  unfold pendingCost queuedCost at *
  dsimp only at hpending
  omega

theorem pooledCost_promoteUpTo (addr : Address) (limit : ℕ) (pool : TransactionPool) :
    (promoteUpTo addr limit pool).pooledCost addr + overwrittenUpTo addr limit pool = pool.pooledCost addr := by
  induction limit generalizing pool with
  | zero => rfl
  | succ limit ih =>
    rw [promoteUpTo, overwrittenUpTo]
    cases htx : pool.queued.lookup (addr,pool.nonceTracker.nextNonce addr) with
    | none => rfl
    | some tx =>
      have hrest := ih (pool.promote addr (pool.nonceTracker.nextNonce addr) tx)
      have hone := pooledCost_promote htx
      dsimp only
      omega

theorem costFor_self (tx : SignedTransaction) : tx.costFor tx.sender = tx.exactCost := if_pos rfl

theorem pooledCost_place {hash : H256} (h : (pool.place tx (tx.tipAt pool.baseFee)).2 = .ok hash) :
    (pool.place tx (tx.tipAt pool.baseFee)).1.pooledCost tx.sender + pool.overwrittenCost tx =
      pool.othersCost tx + pool.twinCost tx + tx.exactCost := by
  have hpending := AList.sumOf_erase pool.pending (pendingCost tx.sender) tx.key
  have hqueued := AList.sumOf_erase pool.queued (queuedCost tx.sender) tx.key
  unfold othersCost twinCost overwrittenCost
  rcases place_cases pool tx (tx.tipAt pool.baseFee) with
    ⟨known,e,hplace⟩ | ⟨hnext,-,hplace⟩ | ⟨hnext,hplace⟩
  · rw [hplace] at h
    cases h
  · rw [hplace, if_pos hnext, if_pos hnext, promoteQueued, pooledCost_promoteUpTo]
    have hinsert := AList.sumOf_insert pool.pending (pendingCost tx.sender) tx.key ⟨tx,tx.tipAt pool.baseFee⟩
    have hself : pendingCost tx.sender tx.key ⟨tx,tx.tipAt pool.baseFee⟩ = tx.exactCost := costFor_self tx
    unfold pooledCost joined
    dsimp only
    omega
  · rw [hplace, if_neg hnext, if_neg hnext]
    have hinsert := AList.sumOf_insert pool.queued (queuedCost tx.sender) tx.key tx
    have hself : queuedCost tx.sender tx.key tx = tx.exactCost := costFor_self tx
    unfold pooledCost waiting
    dsimp only
    omega

end Sums

section Keys
variable {pool pool' : TransactionPool} {tx : SignedTransaction}

theorem Keyed.congr (h : pool.Keyed) (hpending : pool'.pending = pool.pending) (hqueued : pool'.queued = pool.queued) :
    pool'.Keyed := ⟨fun key slot hslot => h.pending key slot (hpending ▸ hslot),fun key t ht => h.queued key t (hqueued ▸ ht)⟩

/-- A fact about all pooled transactions and their keys. -/
structure AllPooled (Q : TxKey → SignedTransaction → Prop) (pool : TransactionPool) : Prop where
  pending : ∀ key slot, pool.pending.lookup key = some slot → Q key slot.tx
  queued : ∀ key tx, pool.queued.lookup key = some tx → Q key tx

variable {Q : TxKey → SignedTransaction → Prop}

theorem AllPooled.moves (h : pool.AllPooled Q) (hmoves : Moves pool pool') : pool'.AllPooled Q := by
  constructor
  · intro key slot hslot
    rcases hmoves.entry key with ⟨-,hpending⟩ | ⟨slot',hqueued,-,hpending⟩
    · exact h.pending key slot (hpending ▸ hslot)
    · obtain rfl := Option.some.inj (hpending.symm.trans hslot)
      exact h.queued key _ hqueued
  · intro key t ht
    rcases hmoves.entry key with ⟨hqueued,-⟩ | ⟨slot,-,hgone,-⟩
    · exact h.queued key t (hqueued ▸ ht)
    · rw [hgone] at ht
      cases ht

theorem AllPooled.place (h : pool.AllPooled Q) (hQ : Q tx.key tx) (tip : UInt64) : (pool.place tx tip).1.AllPooled Q := by
  rcases place_cases pool tx tip with ⟨known,e,hplace⟩ | ⟨-,-,hplace⟩ | ⟨-,hplace⟩
  · rw [hplace]
    exact ⟨h.pending,h.queued⟩
  · rw [hplace]
    have hjoined : (pool.joined tx tip).AllPooled Q := by
      refine ⟨fun key slot hslot => ?_,h.queued⟩
      rcases AList.lookup_insert_some hslot with ⟨rfl,rfl⟩ | ⟨-,hold⟩
      · exact hQ
      · exact h.pending key slot hold
    exact hjoined.moves (moves_promoteUpTo _ _ _)
  · rw [hplace]
    refine ⟨h.pending,fun key t ht => ?_⟩
    rcases AList.lookup_insert_some ht with ⟨rfl,rfl⟩ | ⟨-,hold⟩
    · exact hQ
    · exact h.queued key t hold

theorem lookup_erase_some {κ α : Type*} [DecidableEq κ] {t : Table κ α} {k k' : κ} {v : α}
    (h : (t.erase k).lookup k' = some v) : t.lookup k' = some v := by
  by_cases hk : k' = k
  · subst hk
    rw [AList.lookup_erase] at h
    cases h
  · rwa [AList.lookup_erase_ne hk] at h

variable (P : Platform) (K : K256) (crateRlp : RlpItem → List UInt8)
  (hQ : ∀ (pool : TransactionPool) tx balance tip, pool.screen P K crateRlp tx balance = .ok tip → Q tx.key tx)

include hQ in
theorem AllPooled.poolStep (h : pool.AllPooled Q) (call : PoolCall) : (poolStep P K crateRlp pool call).1.AllPooled Q := by
  cases call with
  | addTransaction tx balance nonce =>
    change (pool.addTransaction P K crateRlp tx balance nonce).1.AllPooled Q
    unfold addTransaction
    split
    · exact h
    · rename_i tip hscreen
      dsimp only
      have htold : (pool.setOnChain tx.sender nonce).AllPooled Q := ⟨h.pending,h.queued⟩
      split
      · exact htold
      · exact htold.place (hQ pool tx balance tip hscreen) _
  | removeConfirmed txs =>
    have hconfirmed : ∀ (txs : List SignedTransaction) {pool : TransactionPool}, pool.AllPooled Q →
        (txs.foldl TransactionPool.confirm pool).AllPooled Q := by
      intro txs
      induction txs with
      | nil => exact id
      | cons tx txs ih =>
        exact fun h => ih ⟨fun key slot hslot => h.pending key slot (lookup_erase_some hslot),
          fun key t ht => h.queued key t (lookup_erase_some ht)⟩
    exact (hconfirmed txs h).moves (moves_promotions _ _)
  | updateBaseFee header => exact ⟨h.pending,h.queued⟩

include hQ in
theorem allPooled_run (config : MempoolConfig) (calls : List PoolCall) :
    (Machine.final (poolStep P K crateRlp) (new config) calls).AllPooled Q :=
  (Machine.state_invariant (poolStep P K crateRlp) (G := fun _ _ => True) (I := AllPooled Q) ⟨fun _ _ h => (by cases h),fun _ _ h => (by cases h)⟩
    (fun _ call h _ => AllPooled.poolStep P K crateRlp hQ h call) calls fun _ _ => trivial).2

theorem keyed_run (config : MempoolConfig) (calls : List PoolCall) :
    (Machine.final (poolStep P K crateRlp) (new config) calls).Keyed := by
  have h := @allPooled_run (fun key tx => tx.key = key) P K crateRlp (fun _ _ _ _ _ => rfl) config calls
  exact ⟨h.pending,h.queued⟩

end Keys

section Reserves
variable {pool : TransactionPool} {tx : SignedTransaction} {addr : Address}

theorem foldl_saturating (l : List ℕ) {n : ℕ} (hn : n ≤ maxU128) :
    (l.map (fun c => min c maxU128)).foldl saturatingAdd128 n = min (n + l.sum) maxU128 := by
  induction l generalizing n with
  | nil => simp [hn]
  | cons c l ih =>
    have hstep : saturatingAdd128 n (min c maxU128) = min (n + c) maxU128 := by
      unfold saturatingAdd128
      omega
    rw [List.map_cons, List.foldl_cons, hstep, ih (Nat.min_le_right _ _), List.sum_cons]
    omega

theorem sum_filter_sender {α : Type} (t : Table TxKey α) (g : α → SignedTransaction)
    (h : ∀ key v, t.lookup key = some v → (g v).key = key) (addr : Address) :
    ((t.entries.filter (fun e => e.1.1 = addr)).map (fun e => (g e.2).exactCost)).sum =
      t.sumOf (fun _ v => (g v).costFor addr) := by
  have hentries : ∀ e ∈ t.entries, e.1.1 = (g e.2).sender := fun e he =>
    (congrArg Prod.fst (h e.1 e.2 (AList.mem_lookup_iff.mpr he))).symm
  unfold AList.sumOf
  generalize t.entries = entries at hentries
  induction entries with
  | nil => rfl
  | cons e entries ih =>
    obtain ⟨hfirst,hrest⟩ := List.forall_mem_cons.mp hentries
    have hcost : (g e.2).costFor addr = if e.1.1 = addr then (g e.2).exactCost else 0 := by
      rw [hfirst]
      rfl
    rw [List.filter_cons, List.map_cons, List.sum_cons]
    dsimp only
    rw [hcost, ← ih hrest]
    by_cases haddr : e.1.1 = addr
    · simp [haddr]
    · simp [haddr]

theorem senderCumulativeCost_eq (h : pool.Keyed) (addr : Address) :
    pool.senderCumulativeCost addr = min (pool.pooledCost addr) maxU128 := by
  have hpending := sum_filter_sender pool.pending PendingSlot.tx h.pending addr
  have hqueued := sum_filter_sender pool.queued id h.queued addr
  have hslots : ∀ l : List (Σ _ : TxKey, PendingSlot), l.map (fun e => e.2.tx.costOf) =
      (l.map (fun e => e.2.tx.exactCost)).map (fun c => min c maxU128) := by
    intro l
    rw [List.map_map]
    exact List.map_congr_left fun e _ => e.2.tx.costOf_eq
  have htxs : ∀ l : List (Σ _ : TxKey, SignedTransaction), l.map (fun e => e.2.costOf) =
      (l.map (fun e => e.2.exactCost)).map (fun c => min c maxU128) := by
    intro l
    rw [List.map_map]
    exact List.map_congr_left fun e _ => e.2.costOf_eq
  simp only [id] at hqueued
  unfold senderCumulativeCost pooledCost pendingCost queuedCost
  dsimp only
  rw [hslots, htxs, foldl_saturating _ (Nat.zero_le _), foldl_saturating _ (Nat.min_le_right _ _), hpending, hqueued]
  omega

theorem pooledCost_eq (pool : TransactionPool) (tx : SignedTransaction) :
    pool.pooledCost tx.sender = pool.othersCost tx + pool.pending.countOf (pendingCost tx.sender) tx.key +
      pool.queued.countOf (queuedCost tx.sender) tx.key := by
  have hpending := AList.sumOf_erase pool.pending (pendingCost tx.sender) tx.key
  have hqueued := AList.sumOf_erase pool.queued (queuedCost tx.sender) tx.key
  unfold pooledCost othersCost
  omega

theorem otherReserved_eq (h : pool.Keyed) (hsum : pool.pooledCost tx.sender ≤ maxU128) :
    pool.otherReserved tx + (if (pool.pending.lookup tx.key).isSome then
      pool.pending.countOf (pendingCost tx.sender) tx.key else pool.queued.countOf (queuedCost tx.sender) tx.key) =
        pool.pooledCost tx.sender := by
  have htotal := pooledCost_eq pool tx
  have hown : ∀ t : SignedTransaction, t.key = tx.key → t.costFor tx.sender = t.exactCost :=
    fun t ht => if_pos (congrArg Prod.fst ht)
  unfold otherReserved
  rw [senderCumulativeCost_eq h, Nat.min_eq_left hsum]
  cases hpending : pool.pending.lookup tx.key with
  | some slot =>
    have hcount : pool.pending.countOf (pendingCost tx.sender) tx.key = slot.tx.exactCost :=
      (AList.countOf_of_some hpending).trans (hown _ (h.pending _ _ hpending))
    rw [hcount] at htotal ⊢
    simp only [SignedTransaction.slotCost_eq, Option.isSome_some, if_true]
    omega
  | none =>
    cases hqueued : pool.queued.lookup tx.key with
    | some old =>
      have hcount : pool.queued.countOf (queuedCost tx.sender) tx.key = old.exactCost :=
        (AList.countOf_of_some hqueued).trans (hown _ (h.queued _ _ hqueued))
      rw [hcount] at htotal ⊢
      simp only [SignedTransaction.slotCost_eq, Option.isSome_none, Bool.false_eq_true, if_false]
      omega
    | none =>
      rw [AList.countOf_of_none hqueued]
      rfl

/-- Where the transaction takes the place of what the reserves are counted without, and no sum
is cut, the check is the right one. -/
theorem covered_of_reserve {balance : ℕ} {nonce tip : UInt64} (h : pool.Keyed)
    (hok : pool.reserve tx balance nonce tip = .ok ()) (hsubtracts : pool.SubtractsReplaced tx)
    (hsum : pool.pooledCost tx.sender ≤ maxU128) (hbalance : balance < maxU128) :
    pool.othersCost tx + pool.twinCost tx + tx.exactCost ≤ balance := by
  have hprojected : saturatingAdd128 (pool.otherReserved tx) tx.costOf ≤ balance := by
    unfold reserve at hok
    dsimp only at hok
    split_ifs at hok with _ _ _ hless
    exact not_lt.mp hless
  have hreserved := otherReserved_eq h hsum
  have htotal := pooledCost_eq pool tx
  have hcounted : pool.otherReserved tx = pool.othersCost tx + pool.twinCost tx := by
    unfold SubtractsReplaced at hsubtracts
    unfold twinCost
    by_cases hnext : tx.tx.nonce = pool.nonceTracker.nextNonce tx.sender
    · rw [if_pos hnext] at hsubtracts ⊢
      rcases hsubtracts with hpending | hqueued
      · rw [if_pos hpending] at hreserved
        omega
      · rw [AList.countOf_of_none hqueued] at hreserved htotal ⊢
        cases hpending : pool.pending.lookup tx.key with
        | some slot =>
          rw [hpending, Option.isSome_some, if_pos rfl] at hreserved
          omega
        | none =>
          rw [AList.countOf_of_none hpending] at hreserved htotal
          simp only [hpending, Option.isSome_none, Bool.false_eq_true, if_false] at hreserved
          omega
    · rw [if_neg hnext] at hsubtracts ⊢
      rw [AList.countOf_of_none hsubtracts] at hreserved htotal ⊢
      simp only [hsubtracts, Option.isSome_none, Bool.false_eq_true, if_false] at hreserved
      omega
  rw [hcounted, SignedTransaction.costOf_eq, saturatingAdd128] at hprojected
  omega

end Reserves

theorem screen_tip {P : Platform} {K : K256} {crateRlp : RlpItem → List UInt8} {pool : TransactionPool}
    {tx : SignedTransaction} {balance : ℕ} {tip : UInt64}
    (h : pool.screen P K crateRlp tx balance = .ok tip) : tip = tx.tipAt pool.baseFee := by
  unfold screen at h
  split at h
  · cases h
  · split at h
    · cases h
    · dsimp only at h
      split_ifs at h
      exact (Except.ok.inj h).symm

section Runs
variable (P : Platform) (K : K256) (crateRlp : RlpItem → List UInt8)

/-- The new transaction takes the place of what the reserves were counted without, and no sum
is cut at 128 bits; or what the old one costs where it stays is affordable too. -/
def Covered (pool : TransactionPool) (tx : SignedTransaction) (balance : ℕ) : Prop :=
  pool.SubtractsReplaced tx ∧ pool.pooledCost tx.sender ≤ maxU128 ∧ balance < maxU128 ∨
    pool.othersCost tx + pool.twinCost tx + tx.exactCost ≤ balance + pool.overwrittenCost tx

/-- A transaction that a pool accepts is affordable together with the others of its sender exactly
where it is covered. -/
theorem affordable_iff (config : MempoolConfig) (calls : List PoolCall) (tx : SignedTransaction) (balance : ℕ)
    (nonce : UInt64) (hash : H256)
    (hok : ((Machine.final (poolStep P K crateRlp) (new config) calls).addTransaction P K crateRlp tx balance nonce).2 =
      .ok hash) :
    ((Machine.final (poolStep P K crateRlp) (new config) calls).addTransaction P K crateRlp tx balance
        nonce).1.pooledCost tx.sender ≤ balance ↔
      Covered ((Machine.final (poolStep P K crateRlp) (new config) calls).setOnChain tx.sender nonce) tx balance := by
  have hkeyed := keyed_run P K crateRlp config calls
  generalize Machine.final (poolStep P K crateRlp) (new config) calls = pool at hok hkeyed ⊢
  unfold addTransaction at hok ⊢
  cases hscreen : pool.screen P K crateRlp tx balance with
  | error e =>
    rw [hscreen] at hok
    cases hok
  | ok tip =>
    obtain rfl := screen_tip hscreen
    simp only [hscreen] at hok ⊢
    cases hreserve : (pool.setOnChain tx.sender nonce).reserve tx balance nonce (tx.tipAt pool.baseFee) with
    | error e =>
      rw [hreserve] at hok
      cases hok
    | ok _ =>
      simp only [hreserve] at hok ⊢
      have htold : (pool.setOnChain tx.sender nonce).Keyed := hkeyed.congr rfl rfl
      have hcost := pooledCost_place hok
      have hsame : (pool.setOnChain tx.sender nonce).baseFee = pool.baseFee := rfl
      rw [hsame] at hcost
      constructor
      · intro hfits
        exact Or.inr (by omega)
      · rintro (⟨hsubtracts,hsum,hbalance⟩ | hfits)
        · have hcovered := covered_of_reserve htold hreserve hsubtracts hsum hbalance
          omega
        · omega

/-- A transaction, and its replacement in the same table. -/
theorem affordable_replacement :
    ((Machine.final (poolStep .integers demoK256 RlpItem.rlp) (new .standard)
        [.addTransaction (demoTransfer 0 1000000000) 63000000000000 0]).addTransaction .integers demoK256 RlpItem.rlp
          (demoTransfer 0 2000000000) 63000000000000 0).1.pooledCost (demoTransfer 0 2000000000).sender ≤
        63000000000000 ↔
      Covered ((Machine.final (poolStep .integers demoK256 RlpItem.rlp) (new .standard)
        [.addTransaction (demoTransfer 0 1000000000) 63000000000000 0]).setOnChain
          (demoTransfer 0 2000000000).sender 0) (demoTransfer 0 2000000000) 63000000000000 :=
  affordable_iff .integers demoK256 RlpItem.rlp .standard [.addTransaction (demoTransfer 0 1000000000) 63000000000000 0]
    (demoTransfer 0 2000000000) 63000000000000 0 (demoTransfer 0 2000000000).hash (by decide +kernel)

/-- With two transactions pending, a replacement of the first is queued beside it: three are
pooled of a sender that can pay for two. -/
theorem replacement_not_affordable : ¬ ∀ (config : MempoolConfig) (calls : List PoolCall) (tx : SignedTransaction)
    (balance : ℕ) (nonce : UInt64) (hash : H256),
    ((Machine.final (poolStep .integers demoK256 RlpItem.rlp) (new config) calls).addTransaction .integers demoK256
      RlpItem.rlp tx balance nonce).2 = .ok hash →
    ((Machine.final (poolStep .integers demoK256 RlpItem.rlp) (new config) calls).addTransaction .integers demoK256
      RlpItem.rlp tx balance nonce).1.pooledCost tx.sender ≤ balance := by
  intro hall
  have hfits := hall .standard [.addTransaction (demoTransfer 1 1000000000) 126000000000000 0,
    .addTransaction (demoTransfer 0 1000000000) 126000000000000 0] (demoTransfer 0 2000000000) 126000000000000 0
    (demoTransfer 0 2000000000).hash (by decide +kernel)
  revert hfits
  decide +kernel

end Runs

section Selections
variable {gasLimit : UInt64}

def gasOf (txs : List SignedTransaction) : ℕ := (txs.map (fun tx => tx.tx.gasLimit.toNat)).sum

theorem screen_gas {P : Platform} {K : K256} {crateRlp : RlpItem → List UInt8} {pool : TransactionPool}
    {tx : SignedTransaction} {balance : ℕ} {tip : UInt64} (h : pool.screen P K crateRlp tx balance = .ok tip) :
    tx.tx.gasLimit ≤ BLOCK_GAS_LIMIT := by
  unfold screen at h
  split at h
  · cases h
  · split at h
    · cases h
    · dsimp only at h
      split_ifs at h
      exact UInt64.not_lt.mp ‹_›

/-- Some of the slots are taken, in their order, and there is no room left for any other. -/
structure Filled (gasLimit : UInt64) (slots : List PendingSlot) (txs : List SignedTransaction) : Prop where
  sublist : txs.Sublist (slots.map PendingSlot.tx)
  fits : gasOf txs ≤ gasLimit.toNat
  full : ∀ slot ∈ slots, slot.tx ∈ txs ∨ gasLimit.toNat < gasOf txs + slot.tx.tx.gasLimit.toNat

theorem filled_foldl (hlimit : gasLimit.toNat + BLOCK_GAS_LIMIT.toNat < 2 ^ 64) (slots : List PendingSlot)
    (hslots : ∀ slot ∈ slots, slot.tx.tx.gasLimit ≤ BLOCK_GAS_LIMIT) :
    ∃ acc : List SignedTransaction × UInt64, slots.foldl (fun (acc : List SignedTransaction × UInt64) slot =>
      if gasLimit < acc.2 + slot.tx.tx.gasLimit then acc
      else (acc.1 ++ [slot.tx],acc.2 + slot.tx.tx.gasLimit)) ([],0) = acc ∧
      acc.2.toNat = gasOf acc.1 ∧ Filled gasLimit slots acc.1 := by
  induction slots using List.reverseRecOn with
  | nil => exact ⟨_,rfl,rfl,.refl _,Nat.zero_le _,nofun⟩
  | append_singleton slots slot ih =>
    obtain ⟨⟨txs,total⟩,hacc,htotal,hfilled⟩ := ih fun slot hslot => hslots slot (List.mem_append_left _ hslot)
    dsimp only at htotal hfilled
    have hgas := UInt64.le_iff_toNat_le.mp (hslots slot (List.mem_append_right _ (List.mem_singleton_self _)))
    have hsum : (total + slot.tx.tx.gasLimit).toNat = gasOf txs + slot.tx.tx.gasLimit.toNat := by
      have hfits := hfilled.fits
      rw [UInt64.toNat_add, htotal]
      exact Nat.mod_eq_of_lt (by omega)
    rw [List.foldl_append, hacc]
    refine ⟨_,rfl,?_⟩
    dsimp only [List.foldl_cons, List.foldl_nil]
    split
    · rename_i hover
      rw [UInt64.lt_iff_toNat_lt, hsum] at hover
      refine ⟨htotal,by rw [List.map_append]; exact hfilled.sublist.trans (List.sublist_append_left _ _),hfilled.fits,?_⟩
      intro s hs
      rcases List.mem_append.mp hs with hs | hs
      · exact hfilled.full s hs
      · exact .inr (List.mem_singleton.mp hs ▸ hover)
    · rename_i hroom
      rw [UInt64.lt_iff_toNat_lt, hsum, Nat.not_lt] at hroom
      have hgasOf : gasOf (txs ++ [slot.tx]) = gasOf txs + slot.tx.tx.gasLimit.toNat := by simp [gasOf]
      refine ⟨hsum.trans hgasOf.symm,by rw [List.map_append]; exact hfilled.sublist.append (.refl _),hgasOf ▸ hroom,?_⟩
      intro s hs
      rw [List.mem_append, hgasOf]
      rcases List.mem_append.mp hs with hs | hs
      · exact (hfilled.full s hs).imp .inl (fun h => by omega)
      · exact .inl (.inr (List.mem_singleton.mpr (congrArg PendingSlot.tx (List.mem_singleton.mp hs))))

/-- In every reachable pool a block is filled by falling priority, and no pending transaction that is left out would fit. -/
theorem selection_fills (P : Platform) (K : K256) (crateRlp : RlpItem → List UInt8) (config : MempoolConfig)
    (calls : List PoolCall) (gasLimit : UInt64) (hlimit : gasLimit.toNat + BLOCK_GAS_LIMIT.toNat < 2 ^ 64) :
    ∃ slots : List PendingSlot,
      slots.Perm (Machine.final (poolStep P K crateRlp) (new config) calls).pending.values ∧
      slots.Pairwise (fun a b => b.priority ≤ a.priority) ∧
      Filled gasLimit slots ((Machine.final (poolStep P K crateRlp) (new config) calls).selectTransactions P gasLimit) := by
  have hrun := @allPooled_run (fun _ tx => tx.tx.gasLimit ≤ BLOCK_GAS_LIMIT) P K crateRlp
    (fun _ _ _ _ h => screen_gas h) config calls
  generalize Machine.final (poolStep P K crateRlp) (new config) calls = pool at hrun ⊢
  have hperm := (List.mergeSort_perm (P.iterOrder pool.pending.values) (fun a b => decide (b.priority ≤ a.priority))).trans
    (P.iterOrder_perm _)
  refine ⟨_,hperm,?_,?_⟩
  · refine (List.pairwise_mergeSort (fun a b c hab hbc => ?_) (fun a b => ?_) _).imp of_decide_eq_true
    · exact decide_eq_true (UInt64.le_trans (of_decide_eq_true hbc) (of_decide_eq_true hab))
    · rw [Bool.or_eq_true, decide_eq_true_iff, decide_eq_true_iff]
      exact UInt64.le_total _ _
  · obtain ⟨acc,hacc,-,hfilled⟩ := filled_foldl hlimit _ fun slot hslot => by
      obtain ⟨key,hkey⟩ := AList.mem_values.mp (hperm.mem_iff.mp hslot)
      exact hrun.pending key slot hkey
    rw [selectTransactions, hacc]
    exact hfilled

/-- A pool with two pending transactions. -/
def demoPool : TransactionPool := Machine.final (poolStep .integers demoK256 RlpItem.rlp) (new .standard)
  [.addTransaction (demoTransfer 1 2000000000) (10 ^ 18) 0,.addTransaction (demoTransfer 0 1000000000) (10 ^ 18) 0]

/-- A block of 30,000 gas has room for one of the two. -/
theorem selection_fills_one_of_two : demoPool.pending.values.length = 2 ∧
    ∃ slots : List PendingSlot, slots.Perm demoPool.pending.values ∧
      slots.Pairwise (fun a b => b.priority ≤ a.priority) ∧
      Filled 30000 slots (demoPool.selectTransactions .integers 30000) :=
  ⟨by decide +kernel,selection_fills .integers demoK256 RlpItem.rlp .standard _ 30000 (by decide)⟩

end Selections
end TransactionPool

end ZbxChain
