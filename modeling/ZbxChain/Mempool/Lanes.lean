import ZbxChain.Mempool.Indexes

/-! # Runs of the pool, and the nonces of one sender

The calls of the node on its pool, in any order: transactions offered, blocks confirmed and base
fees. A call that the checks of the pool refuse changes none of its tables.

The pending nonces of a sender are to be the run from its nonce on chain up to the one that it
is expected to use next. While `promote_queued` goes on, what is still missing from the run is
queued.
-/
namespace ZbxChain

inductive PoolCall where
  | addTransaction (tx : SignedTransaction) (senderBalance : ℕ) (senderOnChainNonce : UInt64)
  | removeConfirmed (txs : List SignedTransaction)
  | updateBaseFee (header : BlockHeader)

namespace TransactionPool
variable (P : Platform) (K : K256) (crateRlp : RlpItem → List UInt8)

/-- One call, with the result of an `add_transaction`. -/
def poolStep (pool : TransactionPool) : PoolCall → TransactionPool × Option (Except MempoolError H256)
  | .addTransaction tx balance nonce =>
    let (pool',result) := pool.addTransaction P K crateRlp tx balance nonce
    (pool',some result)
  | .removeConfirmed txs => (pool.removeConfirmed txs,none)
  | .updateBaseFee header => (pool.updateBaseFee header,none)

/-- Of a pooled transaction, the hash is confirmed exactly when its sender and nonce are. -/
def ConfirmsWhole (pool : TransactionPool) (txs : List SignedTransaction) : Prop :=
  ∀ key t, pool.pooled key = some t →
    (key ∈ txs.map SignedTransaction.key ↔ t.hash ∈ txs.map SignedTransaction.hash)

/-- What follows the confirmed nonces of each sender fits into what the confirmed transactions
leave pending. -/
def PromotionsFit (pool : TransactionPool) (txs : List SignedTransaction) : Prop :=
  let senders := txs.map SignedTransaction.sender
  let keys := txs.map SignedTransaction.key
  let tracker := txs.foldl (fun t tx => t.setOnChain tx.sender (tx.tx.nonce + 1)) pool.nonceTracker
  (pool.pending.eraseAll keys).len + ∑ a ∈ senders.toFinset,
    following tracker (pool.queued.eraseAll keys) a (maxPromotePerCall * senders.count a) ≤
      pool.config.maxPending

/-- What a call has to meet: an accepted transaction keeps its place and its followers fit, and
so it is with what is confirmed. -/
def CallFits (pool : TransactionPool) : PoolCall → Prop
  | .addTransaction tx balance nonce =>
    ∀ tip, pool.screen P K crateRlp tx balance = .ok tip →
      (pool.setOnChain tx.sender nonce).reserve tx balance nonce tip = .ok () →
        (pool.setOnChain tx.sender nonce).KeepsPlace tx ∧
          (pool.setOnChain tx.sender nonce).FollowersFit tx
  | .removeConfirmed txs => pool.ConfirmsWhole txs ∧ pool.PromotionsFit txs
  | .updateBaseFee _ => True

/-- The tables that an `add_transaction` with an error leaves. -/
def SameTables (pool pool' : TransactionPool) : Prop :=
  pool'.pending = pool.pending ∧ pool'.queued = pool.queued ∧
    ∀ hash, pool'.known.lookup hash = pool.known.lookup hash

variable {P K crateRlp} {pool : TransactionPool} {tx : SignedTransaction} {balance : ℕ}
  {nonce tip : UInt64}

section Adding

theorem screen_fresh (h : pool.screen P K crateRlp tx balance = .ok tip) :
    pool.known.lookup tx.hash = none := by
  cases hknown : pool.known.lookup tx.hash with
  | none => rfl
  | some key => simp [screen, hknown] at h

theorem reserve_room (h : pool.reserve tx balance nonce tip = .ok ()) :
    pool.holds tx.key ∨ pool.senderSlotCount tx.sender < pool.config.maxSlotsPerSender := by
  by_contra hfull
  rw [not_or, not_lt] at hfull
  simp only [reserve] at h
  rw [if_pos hfull] at h
  split at h
  · cases h
  · split at h
    · cases h
    · cases h

theorem agree_setOnChain (h : pool.IndexesAgree) (addr : Address) (nonce : UInt64) :
    (pool.setOnChain addr nonce).IndexesAgree := h.congr rfl rfl rfl (fun _ => rfl)

theorem addTransaction_iff (h : pool.IndexesAgree) (tx : SignedTransaction) (balance : ℕ) (nonce : UInt64) :
    CallFits P K crateRlp pool (.addTransaction tx balance nonce) ↔
      (pool.addTransaction P K crateRlp tx balance nonce).1.IndexesAgree := by
  unfold CallFits addTransaction
  cases hscreen : pool.screen P K crateRlp tx balance with
  | error e =>
    refine iff_of_true (fun tip htip => ?_) h
    rw [hscreen] at htip
    cases htip
  | ok tip =>
    have htold := agree_setOnChain h tx.sender nonce
    cases hreserve : (pool.setOnChain tx.sender nonce).reserve tx balance nonce tip with
    | error e =>
      refine iff_of_true (fun tip' htip hok => ?_) ?_
      · rw [hscreen] at htip
        cases htip
        rw [hreserve] at hok
        cases hok
      · simpa only [hreserve] using htold
    | ok _ =>
      have hfresh : (pool.setOnChain tx.sender nonce).known.lookup tx.hash = none := screen_fresh hscreen
      have hplace := place_iff htold hfresh tip (reserve_room hreserve)
      simp only [hreserve]
      rw [← hplace]
      constructor
      · intro hall
        exact hall tip hscreen hreserve
      · intro hfits tip' htip _
        exact hfits

theorem sameTables_place {e : MempoolError} (hfresh : pool.known.lookup tx.hash = none)
    (h : (pool.place tx tip).2 = .error e) : SameTables pool (pool.place tx tip).1 := by
  by_cases hnext : tx.tx.nonce = pool.nonceTracker.nextNonce tx.sender
  · by_cases hfull : ¬ pool.holds tx.key ∧ pool.config.maxPending ≤ pool.pending.len
    · rw [place_pendingFull tip hnext hfull]
      exact ⟨rfl,rfl,lookup_entered_erased hfresh hfull.1⟩
    · rw [place_joined tip hnext hfull] at h
      cases h
  · by_cases hfull : ¬ pool.holds tx.key ∧ pool.config.maxQueued ≤ pool.queued.len
    · rw [place_queuedFull tip hnext hfull]
      exact ⟨rfl,rfl,lookup_entered_erased hfresh hfull.1⟩
    · rw [place_waiting tip hnext hfull] at h
      cases h

theorem sameTables_of_error (tx : SignedTransaction) (balance : ℕ) (nonce : UInt64) (e : MempoolError)
    (h : (pool.addTransaction P K crateRlp tx balance nonce).2 = .error e) :
    SameTables pool (pool.addTransaction P K crateRlp tx balance nonce).1 := by
  unfold addTransaction at h ⊢
  cases hscreen : pool.screen P K crateRlp tx balance with
  | error e => exact ⟨rfl,rfl,fun _ => rfl⟩
  | ok tip =>
    cases hreserve : (pool.setOnChain tx.sender nonce).reserve tx balance nonce tip with
    | error e =>
      simp only [hreserve]
      exact ⟨rfl,rfl,fun _ => rfl⟩
    | ok _ =>
      simp only [hscreen, hreserve] at h ⊢
      have hfresh : (pool.setOnChain tx.sender nonce).known.lookup tx.hash = none := screen_fresh hscreen
      exact sameTables_place hfresh h

end Adding

section Removing

theorem foldl_confirm (txs : List SignedTransaction) (pool : TransactionPool) :
    txs.foldl confirm pool =
      { pool with
        pending := pool.pending.eraseAll (txs.map SignedTransaction.key)
        queued := pool.queued.eraseAll (txs.map SignedTransaction.key)
        known := pool.known.eraseAll (txs.map SignedTransaction.hash)
        nonceTracker := txs.foldl (fun t tx => t.setOnChain tx.sender (tx.tx.nonce + 1)) pool.nonceTracker } := by
  induction txs generalizing pool with
  | nil => rfl
  | cons tx txs ih =>
    rw [List.foldl_cons, ih]
    rfl

variable {txs : List SignedTransaction}

theorem pooled_confirmed (pool : TransactionPool) (key : TxKey) :
    (txs.foldl confirm pool).pooled key =
      if key ∈ txs.map SignedTransaction.key then none else pool.pooled key := by
  simp only [foldl_confirm, pooled, AList.lookup_eraseAll]
  by_cases hkey : key ∈ txs.map SignedTransaction.key
  · simp only [hkey, if_true]
  · simp only [hkey, if_false]

theorem apart_confirmed (h : pool.Apart) : (txs.foldl confirm pool).Apart := by
  intro key
  simp only [foldl_confirm, AList.lookup_eraseAll]
  split
  · exact Or.inl rfl
  · exact h key

theorem len_queued_confirmed (pool : TransactionPool) :
    (txs.foldl confirm pool).queued.len ≤ pool.queued.len := by
  rw [← AList.card_keySet, ← AList.card_keySet]
  refine Finset.card_le_card (fun key hkey => ?_)
  obtain ⟨t,ht⟩ := AList.mem_keySet.mp hkey
  simp only [foldl_confirm, AList.lookup_eraseAll] at ht
  split at ht
  · cases ht
  · exact AList.mem_keySet.mpr ⟨t,ht⟩

/-- The hashes stay right exactly when they go with the keys. -/
theorem known_iff_confirmed (h : pool.IndexesAgree) :
    (∀ hash key, (pool.known.eraseAll (txs.map SignedTransaction.hash)).lookup hash = some key ↔
      ∃ t, (txs.foldl confirm pool).pooled key = some t ∧ t.hash = hash) ↔
    pool.ConfirmsWhole txs := by
  constructor
  · intro hknown key t ht
    have hhere : pool.known.lookup t.hash = some key := (h.known_iff _ _).mpr ⟨t,ht,rfl⟩
    have hafter := hknown t.hash key
    rw [AList.lookup_eraseAll, pooled_confirmed, hhere] at hafter
    by_cases hkey : key ∈ txs.map SignedTransaction.key
    · by_cases hhash : t.hash ∈ txs.map SignedTransaction.hash
      · exact iff_of_true hkey hhash
      · rw [if_neg hhash, if_pos hkey] at hafter
        obtain ⟨t',ht',-⟩ := hafter.mp rfl
        cases ht'
    · by_cases hhash : t.hash ∈ txs.map SignedTransaction.hash
      · rw [if_pos hhash, if_neg hkey] at hafter
        cases hafter.mpr ⟨t,ht,rfl⟩
      · exact iff_of_false hkey hhash
  · intro hboth hash key
    rw [AList.lookup_eraseAll, pooled_confirmed]
    constructor
    · intro hsome
      split at hsome
      · cases hsome
      · rename_i hhash
        obtain ⟨t,ht,rfl⟩ := (h.known_iff _ _).mp hsome
        exact ⟨t,by rw [if_neg (mt (hboth key t ht).mp hhash), ht],rfl⟩
    · rintro ⟨t,ht,rfl⟩
      split at ht
      · cases ht
      · rename_i hkey
        rw [if_neg (mt (hboth key t ht).mpr hkey)]
        exact (h.known_iff _ _).mpr ⟨t,ht,rfl⟩

theorem removeConfirmed_iff (h : pool.IndexesAgree) (txs : List SignedTransaction) :
    CallFits P K crateRlp pool (.removeConfirmed txs) ↔ (pool.removeConfirmed txs).IndexesAgree := by
  have hapart : (txs.foldl confirm pool).Apart := apart_confirmed h.apart
  have hmoves : Moves (txs.foldl confirm pool) (pool.removeConfirmed txs) := moves_promotions _ _
  have hconfig : (pool.removeConfirmed txs).config = pool.config := by
    rw [hmoves.config, foldl_confirm]
  have hknown : (pool.removeConfirmed txs).known = pool.known.eraseAll (txs.map SignedTransaction.hash) := by
    rw [hmoves.known, foldl_confirm]
  have hpooled := hmoves.pooled hapart
  have hlen : (pool.removeConfirmed txs).pending.len = _ :=
    len_promotions (txs.map SignedTransaction.sender) hapart
  rw [foldl_confirm] at hlen
  change pool.ConfirmsWhole txs ∧ _ ≤ _ ↔ _
  rw [← known_iff_confirmed h, ← hlen]
  constructor
  · rintro ⟨hkeys,hfits⟩
    refine ⟨hmoves.apart hapart,?_,hconfig ▸ hfits,?_,?_⟩
    · intro hash key
      rw [hknown, hpooled]
      exact hkeys hash key
    · rw [hconfig]
      exact (hmoves.len_queued.trans (len_queued_confirmed pool)).trans h.queued_le
    · intro addr
      rw [hconfig]
      refine (senderSlotCount_le h.apart (hmoves.apart hapart) (fun key hkey => ?_) addr).trans
        (h.slots_le addr)
      rw [hpooled, pooled_confirmed] at hkey
      split at hkey
      · cases hkey
      · exact hkey
  · intro h'
    refine ⟨fun hash key => ?_,hconfig ▸ h'.pending_le⟩
    rw [← hknown, ← hpooled]
    exact h'.known_iff hash key

end Removing

section Runs

theorem poolStep_iff (pool : TransactionPool) (call : PoolCall) (h : pool.IndexesAgree) :
    CallFits P K crateRlp pool call ↔ (poolStep P K crateRlp pool call).1.IndexesAgree := by
  cases call with
  | addTransaction tx balance nonce => exact addTransaction_iff h tx balance nonce
  | removeConfirmed txs => exact removeConfirmed_iff h txs
  | updateBaseFee header => exact iff_of_true trivial (h.congr rfl rfl rfl (fun _ => rfl))

theorem agree_new (config : MempoolConfig) : (new config).IndexesAgree := by
  refine ⟨fun key => Or.inl rfl,?_,Nat.zero_le _,Nat.zero_le _,fun addr => Nat.zero_le _⟩
  intro hash key
  refine iff_of_false nofun ?_
  rintro ⟨tx,htx,-⟩
  cases htx

variable (P K crateRlp) in
/-- The indexes agree in every state of a run, and an error changes no table. -/
def OneSet (config : MempoolConfig) (calls : List PoolCall) : Prop :=
  (∀ e ∈ Machine.history (poolStep P K crateRlp) (new config) calls, e.before.IndexesAgree ∧
    ∀ err, e.output = some (.error err) →
      SameTables e.before (poolStep P K crateRlp e.before e.call).1) ∧
  (Machine.final (poolStep P K crateRlp) (new config) calls).IndexesAgree

theorem sameTables_step {call : PoolCall} {e : MempoolError}
    (h : (poolStep P K crateRlp pool call).2 = some (.error e)) :
    SameTables pool (poolStep P K crateRlp pool call).1 := by
  cases call with
  | addTransaction tx balance nonce => exact sameTables_of_error tx balance nonce e (Option.some.inj h)
  | removeConfirmed txs => cases h
  | updateBaseFee header => cases h

/-- The pool describes one set of transactions in every state of a run exactly when all calls
of the run fit the states that they meet. -/
theorem one_set_iff (P : Platform) (K : K256) (crateRlp : RlpItem → List UInt8) (config : MempoolConfig)
    (calls : List PoolCall) :
    (∀ e ∈ Machine.history (poolStep P K crateRlp) (new config) calls, CallFits P K crateRlp e.before e.call) ↔
      OneSet P K crateRlp config calls := by
  rw [Machine.invariant_iff (poolStep P K crateRlp) (agree_new config) poolStep_iff]
  constructor
  · rintro ⟨hbefore,hfinal⟩
    refine ⟨fun e he => ⟨hbefore e he,fun err herr => ?_⟩,hfinal⟩
    rw [Machine.output_eq _ he] at herr
    exact sameTables_step herr
  · rintro ⟨hall,hfinal⟩
    exact ⟨fun e he => (hall e he).1,hfinal⟩

end Runs

section Replacement

def demoK256 : K256 where
  KSig := List UInt8
  signatureFromSlice := .ok
  normalizeS := fun _ => none
  recoverFromPrehash := fun _ _ _ => .ok (List.replicate 65 4)

def demoTransfer (nonce tip : UInt64) : SignedTransaction :=
  let stx : SignedTransaction :=
    { tx := { txType := .dynamicFee, nonce := nonce, maxPriorityFeePerGas := tip,
              maxFeePerGas := 3000000000, gasLimit := 21000, recipient := some 9, value := 0, data := [],
              accessList := [], chainId := 8989 }
      sig := ⟨0,1,1⟩
      sender := pubkeyToAddress .integers (List.replicate 65 4)
      hash := 0 }
  { stx with hash := stx.computeHash .integers RlpItem.rlp }

/-- A queued transaction, the one before it, which makes both pending, and a replacement of
the latter at a higher tip. -/
def replacement : List PoolCall :=
  [.addTransaction (demoTransfer 1 1000000000) (10 ^ 18) 0,
    .addTransaction (demoTransfer 0 1000000000) (10 ^ 18) 0,
    .addTransaction (demoTransfer 0 2000000000) (10 ^ 18) 0]

/-- After the replacement its key is in both tables. -/
theorem replacement_in_both : ¬ OneSet .integers demoK256 RlpItem.rlp .standard replacement := by
  intro hall
  have hapart := hall.2.apart (demoTransfer 0 0).key
  revert hapart
  decide +kernel

end Replacement

end TransactionPool

namespace TransactionPool

def isPending (pool : TransactionPool) (addr : Address) (k : UInt64) : Bool := (pool.pending.lookup (addr,k)).isSome

def isQueued (pool : TransactionPool) (addr : Address) (k : UInt64) : Bool := (pool.queued.lookup (addr,k)).isSome

/-- Two pools have the same of one sender. -/
structure SameLane (addr : Address) (pool pool' : TransactionPool) : Prop where
  tracker : pool.nonceTracker.SameSender addr pool'.nonceTracker
  pending : ∀ k, pool.isPending addr k = pool'.isPending addr k
  queued : ∀ k, pool.isQueued addr k = pool'.isQueued addr k

/-- The run from `n` on has come to `m`; a pending nonce that it has not come to is followed up
to by queued ones, and some later nonce is free. -/
structure Growing (pool : TransactionPool) (addr : Address) (n m : UInt64) : Prop where
  onChain : pool.nonceTracker.onChainNonce addr = n
  le : n ≤ m
  highest : pool.nonceTracker.pendingMax.lookup addr = if n < m then some (m - 1) else none
  filled : ∀ k, n ≤ k → k < m → pool.isPending addr k
  covered : ∀ k, pool.isPending addr k → n ≤ k ∧ ∀ i, m ≤ i → i ≤ k → pool.isQueued addr i
  free : ∃ j, m ≤ j ∧ ¬ pool.isQueued addr j

def queuedKeys (pool : TransactionPool) (addr : Address) : Finset TxKey :=
  pool.queued.keySet.filter (fun key => key.1 = addr)

variable {pool pool' : TransactionPool} {addr : Address} {n m : UInt64}

theorem isQueued_iff {k : UInt64} : pool.isQueued addr k ↔ (addr,k) ∈ pool.queuedKeys addr := by
  simp [isQueued, queuedKeys, AList.mem_keySet, Option.isSome_iff_exists]

namespace SameLane

theorem refl (addr : Address) (pool : TransactionPool) : SameLane addr pool pool :=
  ⟨⟨rfl,rfl⟩,fun _ => rfl,fun _ => rfl⟩

theorem trans {pool'' : TransactionPool} (h : SameLane addr pool pool') (h' : SameLane addr pool' pool'') :
    SameLane addr pool pool'' where
  tracker := ⟨h.tracker.onChain.trans h'.tracker.onChain,h.tracker.pendingMax.trans h'.tracker.pendingMax⟩
  pending k := (h.pending k).trans (h'.pending k)
  queued k := (h.queued k).trans (h'.queued k)

theorem growing (h : SameLane addr pool pool') (hg : pool.Growing addr n m) : pool'.Growing addr n m where
  onChain := by
    rw [← hg.onChain, NonceTracker.onChainNonce, NonceTracker.onChainNonce, h.tracker.onChain]
  le := hg.le
  highest := h.tracker.pendingMax ▸ hg.highest
  filled k := h.pending k ▸ hg.filled k
  covered k hk := by
    obtain ⟨hle,hcover⟩ := hg.covered k (h.pending k ▸ hk)
    exact ⟨hle,fun i hi hik => h.queued i ▸ hcover i hi hik⟩
  free := by
    obtain ⟨j,hj,hfree⟩ := hg.free
    exact ⟨j,hj,h.queued j ▸ hfree⟩

end SameLane

section Promotion

theorem sameLane_promoteUpTo {b : Address} (hb : b ≠ addr) (limit : ℕ) (pool : TransactionPool) :
    SameLane b pool (promoteUpTo addr limit pool) := by
  obtain ⟨htracker,hqueued⟩ := promoteUpTo_other hb limit pool
  refine ⟨htracker,fun k => ?_,fun k => congrArg Option.isSome (hqueued k)⟩
  have hne : ∀ n : UInt64, (b,k) ≠ (addr,n) := fun n heq => hb (Prod.mk.inj heq).1
  have hpending : (promoteUpTo addr limit pool).pending.lookup (b,k) = pool.pending.lookup (b,k) := by
    clear htracker hqueued
    induction limit generalizing pool with
    | zero => rfl
    | succ limit ih =>
      rw [promoteUpTo]
      split
      · rfl
      · rw [ih]
        exact AList.lookup_insert_ne (hne _)
  simp only [isPending, hpending]

theorem Growing.nextNonce (h : pool.Growing addr n m) : pool.nonceTracker.nextNonce addr = m := by
  rw [NonceTracker.nextNonce, h.highest]
  by_cases hlt : n < m
  · simp [hlt]
  · have heq : n = m := UInt64.le_antisymm h.le (UInt64.not_lt.mp hlt)
    rw [if_neg hlt]
    exact h.onChain.trans heq

/-- A queued transaction at the end of the run lengthens it. -/
theorem Growing.promote (h : pool.Growing addr n m) (hqueued : pool.isQueued addr m) (tx : SignedTransaction) :
    (pool.promote addr m tx).Growing addr n (m + 1) := by
  obtain ⟨j,hj,hfree⟩ := h.free
  have hne : j ≠ m := by
    rintro rfl
    exact hfree hqueued
  have hle := h.le
  have hlast : ∀ k, (pool.promote addr m tx).isPending addr k = (decide (k = m) || pool.isPending addr k) := by
    intro k
    by_cases hk : k = m
    · subst hk
      simp [isPending, TransactionPool.promote, AList.lookup_insert]
    · simp [isPending, TransactionPool.promote, hk, AList.lookup_insert_ne]
  have hrest : ∀ k, k ≠ m → (pool.promote addr m tx).isQueued addr k = pool.isQueued addr k := by
    intro k hk
    simp [isQueued, TransactionPool.promote, hk, AList.lookup_erase_ne]
  refine ⟨h.onChain,by grind,?_,fun k hk hlt => ?_,fun k hk => ?_,j,by grind,?_⟩
  · have hmax : (if (((pool.nonceTracker.pendingMax.lookup addr).getD 0) < m) then m
        else (pool.nonceTracker.pendingMax.lookup addr).getD 0) = m := by
      rw [h.highest]
      by_cases hlt : n < m
      · have hbelow : m - 1 < m := by grind
        simp [hlt, hbelow]
      · simp [hlt]
        grind
    have hlt : n < m + 1 := by grind
    simp only [TransactionPool.promote, NonceTracker.recordPending, AList.lookup_insert, hmax, hlt, if_true, UInt64.add_sub_cancel]
  · rw [hlast]
    by_cases hkm : k = m
    · simp [hkm]
    · simp [h.filled k hk (by grind)]
  · rw [hlast] at hk
    by_cases hkm : k = m
    · exact ⟨by grind,fun i hi hik => by grind⟩
    · obtain ⟨hge,hcover⟩ := h.covered k (by simpa [hkm] using hk)
      refine ⟨hge,fun i hi hik => ?_⟩
      rw [hrest i (by grind)]
      exact hcover i (by grind) hik
  · rw [hrest j hne]
    exact hfree

theorem card_queuedKeys_promote (hqueued : pool.isQueued addr m) (tx : SignedTransaction) :
    ((pool.promote addr m tx).queuedKeys addr).card + 1 ≤ (pool.queuedKeys addr).card := by
  have hsub : (pool.promote addr m tx).queuedKeys addr ⊆ (pool.queuedKeys addr).erase (addr,m) := by
    intro key hkey
    simp only [queuedKeys, TransactionPool.promote, Finset.mem_filter, AList.mem_keySet] at hkey
    obtain ⟨⟨t,ht⟩,haddr⟩ := hkey
    by_cases hkm : key = (addr,m)
    · rw [hkm, AList.lookup_erase] at ht
      cases ht
    · rw [AList.lookup_erase_ne hkm] at ht
      exact Finset.mem_erase.mpr ⟨hkm,Finset.mem_filter.mpr ⟨AList.mem_keySet.mpr ⟨t,ht⟩,haddr⟩⟩
  have hcard := Finset.card_le_card hsub
  have herase := Finset.card_erase_add_one (isQueued_iff.mp hqueued)
  omega

theorem card_queuedKeys_promoteUpTo {b : Address} {limit : ℕ} :
    ((promoteUpTo b limit pool).queuedKeys addr).card ≤ (pool.queuedKeys addr).card := by
  refine Finset.card_le_card (fun key hkey => ?_)
  obtain ⟨hmem,haddr⟩ := Finset.mem_filter.mp hkey
  obtain ⟨tx,htx⟩ := AList.mem_keySet.mp hmem
  refine Finset.mem_filter.mpr ⟨AList.mem_keySet.mpr ?_,haddr⟩
  rcases (moves_promoteUpTo b limit pool).entry key with ⟨hqueued,-⟩ | ⟨slot,-,hgone,-⟩
  · exact ⟨tx,hqueued ▸ htx⟩
  · rw [hgone] at htx
    cases htx

theorem Growing.promoteUpTo {limit : ℕ} (h : pool.Growing addr n m) (hlimit : (pool.queuedKeys addr).card ≤ limit) :
    ∃ m', (promoteUpTo addr limit pool).Growing addr n m' ∧ ¬ (promoteUpTo addr limit pool).isQueued addr m' := by
  induction limit generalizing pool m with
  | zero =>
    refine ⟨m,h,fun hqueued => ?_⟩
    have hmem : (addr,m) ∈ pool.queuedKeys addr := isQueued_iff.mp hqueued
    rw [Finset.card_eq_zero.mp (Nat.le_zero.mp hlimit)] at hmem
    cases hmem
  | succ limit ih =>
    rw [TransactionPool.promoteUpTo, h.nextNonce]
    cases htx : pool.queued.lookup (addr,m) with
    | none => exact ⟨m,h,by simp [isQueued, htx]⟩
    | some tx =>
      have hqueued : pool.isQueued addr m := by simp [isQueued, htx]
      have hcard := card_queuedKeys_promote hqueued tx
      exact ih (h.promote hqueued tx) (by omega)

theorem onChain_promoteUpTo (addr : Address) (limit : ℕ) (pool : TransactionPool) :
    (promoteUpTo addr limit pool).nonceTracker.onChain = pool.nonceTracker.onChain := by
  induction limit generalizing pool with
  | zero => rfl
  | succ limit ih =>
    rw [promoteUpTo]
    split
    · rfl
    · rw [ih]
      rfl

theorem Growing.promotions {senders : List Address} (h : pool.Growing addr n m)
    (hnamed : addr ∈ senders ∨ ¬ pool.isQueued addr m) (hlimit : (pool.queuedKeys addr).card ≤ maxPromotePerCall) :
    ∃ m', (senders.foldl promoteQueued pool).Growing addr n m' ∧
      ¬ (senders.foldl promoteQueued pool).isQueued addr m' := by
  induction senders generalizing pool m with
  | nil => exact ⟨m,h,hnamed.resolve_left List.not_mem_nil⟩
  | cons b senders ih =>
    rw [List.foldl_cons]
    by_cases hb : addr = b
    · subst hb
      obtain ⟨m',hgrown,hend⟩ := h.promoteUpTo hlimit
      exact ih hgrown (.inr hend) (card_queuedKeys_promoteUpTo.trans hlimit)
    · have hlane := sameLane_promoteUpTo hb maxPromotePerCall pool
      refine ih (hlane.growing h) ?_ (card_queuedKeys_promoteUpTo.trans hlimit)
      rcases hnamed with hmem | hend
      · exact .inl ((List.mem_cons.mp hmem).resolve_left hb)
      · exact .inr (hlane.queued m ▸ hend)

theorem sameLane_promotions {senders : List Address} (haddr : addr ∉ senders) (pool : TransactionPool) :
    SameLane addr pool (senders.foldl promoteQueued pool) := by
  induction senders generalizing pool with
  | nil => exact SameLane.refl addr pool
  | cons b senders ih =>
    rw [List.mem_cons, not_or] at haddr
    obtain ⟨hb,hrest⟩ := haddr
    exact (sameLane_promoteUpTo hb maxPromotePerCall pool).trans (ih hrest _)

theorem onChain_promotions (senders : List Address) (pool : TransactionPool) :
    (senders.foldl promoteQueued pool).nonceTracker.onChain = pool.nonceTracker.onChain := by
  induction senders generalizing pool with
  | nil => rfl
  | cons b senders ih => exact (ih _).trans (onChain_promoteUpTo b _ pool)

end Promotion

end TransactionPool

end ZbxChain
