import ZbxChain.Mempool.Promotion

/-! # The indexes of the pool

Whether the tables of the pool describe one set of transactions, and which calls leave them
doing so. A replacement has to stay in the table of the transaction that it replaces, a
confirmed hash has to come with its sender and nonce, and what is promoted has to fit.
-/
namespace ZbxChain

namespace TransactionPool

/-- The tables describe one set of transactions, and it is not too large. -/
structure IndexesAgree (pool : TransactionPool) : Prop where
  apart : pool.Apart
  known_iff : ∀ hash key,
    pool.known.lookup hash = some key ↔ ∃ tx, pool.pooled key = some tx ∧ tx.hash = hash
  pending_le : pool.pending.len ≤ pool.config.maxPending
  queued_le : pool.queued.len ≤ pool.config.maxQueued
  slots_le : ∀ addr, pool.senderSlotCount addr ≤ pool.config.maxSlotsPerSender

variable {pool pool' : TransactionPool} {tx : SignedTransaction}

section Reading

theorem holds_eq (pool : TransactionPool) (key : TxKey) : pool.holds key = (pool.pooled key).isSome := by
  unfold holds pooled
  cases pool.pending.lookup key with
  | none => rfl
  | some slot => rfl

theorem card_keys_at (keys : List TxKey) (hkeys : keys.Nodup) (addr : Address) :
    (keys.filter (fun key => key.1 = addr)).length = (keys.toFinset.filter (fun key => key.1 = addr)).card := by
  rw [← List.toFinset_card_of_nodup (hkeys.filter _), List.toFinset_filter]
  simp only [decide_eq_true_eq]

def keys (pool : TransactionPool) : Finset TxKey := pool.pending.keySet ∪ pool.queued.keySet

theorem mem_keys {key : TxKey} : key ∈ pool.keys ↔ (pool.pooled key).isSome := by
  rw [← holds_eq, holds, keys, Finset.mem_union, AList.mem_keySet, AList.mem_keySet]
  simp [Option.isSome_iff_exists]

theorem senderSlotCount_eq (hapart : pool.Apart) (addr : Address) :
    pool.senderSlotCount addr = (pool.keys.filter (fun key => key.1 = addr)).card := by
  have hdisjoint : Disjoint (pool.pending.keySet.filter (fun key => key.1 = addr))
      (pool.queued.keySet.filter (fun key => key.1 = addr)) := by
    refine Finset.disjoint_left.mpr (fun key hpending hqueued => ?_)
    obtain ⟨slot,hslot⟩ := AList.mem_keySet.mp (Finset.mem_filter.mp hpending).1
    obtain ⟨tx,htx⟩ := AList.mem_keySet.mp (Finset.mem_filter.mp hqueued).1
    rcases hapart key with hfree | hfree
    · simp [hslot] at hfree
    · simp [htx] at hfree
  rw [senderSlotCount, card_keys_at _ pool.pending.keys_nodup, card_keys_at _ pool.queued.keys_nodup,
    keys, Finset.filter_union, Finset.card_union_of_disjoint hdisjoint]
  rfl

theorem senderSlotCount_le (hapart : pool.Apart) (hapart' : pool'.Apart)
    (h : ∀ key, (pool'.pooled key).isSome → (pool.pooled key).isSome) (addr : Address) :
    pool'.senderSlotCount addr ≤ pool.senderSlotCount addr := by
  rw [senderSlotCount_eq hapart, senderSlotCount_eq hapart']
  refine Finset.card_le_card (Finset.filter_subset_filter _ (fun key hkey => ?_))
  exact mem_keys.mpr (h key (mem_keys.mp hkey))

theorem senderSlotCount_one (hapart : pool.Apart) (hapart' : pool'.Apart) {new : TxKey}
    (h : ∀ key, key ≠ new → pool'.pooled key = pool.pooled key) (addr : Address) :
    pool'.senderSlotCount addr ≤ pool.senderSlotCount addr + if new.1 = addr then 1 else 0 := by
  rw [senderSlotCount_eq hapart, senderSlotCount_eq hapart']
  have hkeys : ∀ key ∈ pool'.keys, key = new ∨ key ∈ pool.keys := by
    intro key hkey
    by_cases hnew : key = new
    · exact Or.inl hnew
    · rw [mem_keys, h key hnew, ← mem_keys] at hkey
      exact Or.inr hkey
  split
  · refine (Finset.card_le_card (fun key hkey => ?_)).trans (Finset.card_insert_le new _)
    obtain ⟨hmem,haddr⟩ := Finset.mem_filter.mp hkey
    rcases hkeys key hmem with rfl | hold
    · exact Finset.mem_insert_self ..
    · exact Finset.mem_insert_of_mem (Finset.mem_filter.mpr ⟨hold,haddr⟩)
  · rename_i hother
    rw [Nat.add_zero]
    refine Finset.card_le_card (fun key hkey => ?_)
    obtain ⟨hmem,haddr⟩ := Finset.mem_filter.mp hkey
    rcases hkeys key hmem with rfl | hold
    · exact absurd haddr hother
    · exact Finset.mem_filter.mpr ⟨hold,haddr⟩

theorem IndexesAgree.congr (h : pool.IndexesAgree) (hconfig : pool'.config = pool.config)
    (hpending : pool'.pending = pool.pending) (hqueued : pool'.queued = pool.queued)
    (hknown : ∀ hash, pool'.known.lookup hash = pool.known.lookup hash) : pool'.IndexesAgree := by
  have hpooled : pool'.pooled = pool.pooled := by
    funext key
    simp only [pooled, hpending, hqueued]
  have hslots : pool'.senderSlotCount = pool.senderSlotCount := by
    funext addr
    simp only [senderSlotCount, hpending, hqueued]
  refine ⟨?_,?_,?_,?_,?_⟩
  · intro key
    rw [hpending, hqueued]
    exact h.apart key
  · intro hash key
    rw [hknown, hpooled]
    exact h.known_iff hash key
  · rw [hpending, hconfig]
    exact h.pending_le
  · rw [hqueued, hconfig]
    exact h.queued_le
  · rw [hslots, hconfig]
    exact h.slots_le

end Reading

section Replacing

/-- Under the agreement, to evict the hashes of a key is to forget what is known at it. -/
theorem lookup_evictHashes (h : pool.IndexesAgree) (key : TxKey) (hash : H256) :
    (pool.evictHashes key).lookup hash =
      if pool.known.lookup hash = some key then none else pool.known.lookup hash := by
  have herase : ∀ old, pool.pooled key = some old → (pool.known.erase old.hash).lookup hash =
      if pool.known.lookup hash = some key then none else pool.known.lookup hash := by
    intro old hold
    have hknown : pool.known.lookup old.hash = some key := (h.known_iff _ _).mpr ⟨old,hold,rfl⟩
    by_cases hhash : hash = old.hash
    · subst hhash
      simp [hknown]
    · rw [AList.lookup_erase_ne hhash, if_neg]
      intro hsame
      obtain ⟨tx,htx,rfl⟩ := (h.known_iff _ _).mp hsame
      rw [hold] at htx
      exact hhash (congrArg SignedTransaction.hash (Option.some.inj htx)).symm
  unfold evictHashes
  cases hpending : pool.pending.lookup key with
  | some slot =>
    have hqueued : pool.queued.lookup key = none := by
      have hfree := h.apart key
      simpa [hpending] using hfree
    rw [hqueued]
    exact herase slot.tx (by rw [pooled, hpending])
  | none =>
    cases hqueued : pool.queued.lookup key with
    | some old => exact herase old (by rw [pooled, hpending, hqueued])
    | none =>
      rw [if_neg]
      intro hsame
      obtain ⟨tx,htx,-⟩ := (h.known_iff _ _).mp hsame
      rw [pooled, hpending, hqueued] at htx
      cases htx

/-- A pool with one transaction put at its key and its hash in the place of the old one. -/
theorem known_iff_entered (h : pool.IndexesAgree) (hfresh : pool.known.lookup tx.hash = none)
    (hknown : pool'.known = (pool.evictHashes tx.key).insert tx.hash tx.key)
    (hself : pool'.pooled tx.key = some tx)
    (hothers : ∀ key, key ≠ tx.key → pool'.pooled key = pool.pooled key) (hash : H256) (key : TxKey) :
    pool'.known.lookup hash = some key ↔ ∃ t, pool'.pooled key = some t ∧ t.hash = hash := by
  rw [hknown]
  by_cases hkey : key = tx.key
  · subst hkey
    rw [hself]
    by_cases hhash : hash = tx.hash
    · subst hhash
      simp
    · rw [AList.lookup_insert_ne hhash, lookup_evictHashes h]
      constructor
      · intro hsome
        split at hsome
        · cases hsome
        · rename_i hne
          exact absurd hsome hne
      · rintro ⟨t,ht,rfl⟩
        exact absurd (congrArg SignedTransaction.hash (Option.some.inj ht)).symm hhash
  · rw [hothers key hkey, ← h.known_iff]
    by_cases hhash : hash = tx.hash
    · subst hhash
      rw [AList.lookup_insert, hfresh]
      constructor
      · intro hsome
        exact absurd (Option.some.inj hsome).symm hkey
      · intro hsome
        cases hsome
    · rw [AList.lookup_insert_ne hhash, lookup_evictHashes h]
      split
      · rename_i hsame
        rw [hsame]
        constructor
        · intro hsome
          cases hsome
        · intro hsome
          exact absurd (Option.some.inj hsome).symm hkey
      · rfl

end Replacing

section Placing
variable (pool tx)

/-- A replacement stays in the table of the transaction that it replaces: a pending one is at
the nonce that is expected next, a queued one is not. -/
def KeepsPlace : Prop :=
  ((pool.pending.lookup tx.key).isSome → tx.tx.nonce = pool.nonceTracker.nextNonce tx.sender) ∧
    ((pool.queued.lookup tx.key).isSome → tx.tx.nonce ≠ pool.nonceTracker.nextNonce tx.sender)

/-- Behind a transaction that becomes pending there is room for those that follow it. -/
def FollowersFit : Prop :=
  tx.tx.nonce = pool.nonceTracker.nextNonce tx.sender →
    pool.holds tx.key ∨ pool.pending.len < pool.config.maxPending →
      (if pool.holds tx.key then pool.pending.len else pool.pending.len + 1) +
        following (pool.nonceTracker.recordPending tx.sender tx.tx.nonce) pool.queued tx.sender
          maxPromotePerCall ≤ pool.config.maxPending

variable {pool tx}

theorem pooled_none (h : ¬ pool.holds tx.key) :
    pool.pending.lookup tx.key = none ∧ pool.queued.lookup tx.key = none := by
  simpa [holds] using h

theorem lookup_entered_erased (hfresh : pool.known.lookup tx.hash = none)
    (hnew : ¬ pool.holds tx.key) (hash : H256) :
    (((pool.evictHashes tx.key).insert tx.hash tx.key).erase tx.hash).lookup hash =
      pool.known.lookup hash := by
  by_cases hhash : hash = tx.hash
  · subst hhash
    rw [AList.lookup_erase, hfresh]
  · rw [AList.lookup_erase_ne hhash, AList.lookup_insert_ne hhash, evictHashes,
      (pooled_none hnew).1, (pooled_none hnew).2]

/-- The pool before the promotions that a pending transaction sets off. -/
def joined (pool : TransactionPool) (tx : SignedTransaction) (tip : UInt64) : TransactionPool :=
  { pool with
    known := (pool.evictHashes tx.key).insert tx.hash tx.key
    nonceTracker := pool.nonceTracker.recordPending tx.sender tx.tx.nonce
    pending := pool.pending.insert tx.key ⟨tx,tip⟩ }

theorem len_joined (tip : UInt64) (hqueued : pool.queued.lookup tx.key = none) :
    (pool.joined tx tip).pending.len =
      if pool.holds tx.key then pool.pending.len else pool.pending.len + 1 := by
  have hkeys : (pool.joined tx tip).pending.keySet = insert tx.key pool.pending.keySet := AList.keySet_insert
  rw [← AList.card_keySet, hkeys, ← AList.card_keySet]
  split
  · rename_i hholds
    rw [Finset.card_insert_of_mem]
    have hpending : (pool.pending.lookup tx.key).isSome := by simpa [holds, hqueued] using hholds
    exact AList.mem_keySet.mpr (Option.isSome_iff_exists.mp hpending)
  · rename_i hholds
    rw [Finset.card_insert_of_notMem]
    intro hmem
    obtain ⟨slot,hslot⟩ := AList.mem_keySet.mp hmem
    rw [(pooled_none hholds).1] at hslot
    cases hslot

theorem not_agree_of_queued (h : pool.IndexesAgree) (hfresh : pool.known.lookup tx.hash = none)
    (tip : UInt64) {old : SignedTransaction} (hold : pool.queued.lookup tx.key = some old)
    (hmoves : Moves (pool.joined tx tip) pool') : ¬ pool'.IndexesAgree := by
  intro h'
  have hslot : (pool.joined tx tip).pending.lookup tx.key = some ⟨tx,tip⟩ := AList.lookup_insert _
  rcases hmoves.twice hslot hold with hbroken | hreplaced
  · exact hbroken h'.apart
  · have hnew : pool'.known.lookup tx.hash = some tx.key := by
      rw [hmoves.known]
      exact AList.lookup_insert _
    obtain ⟨t,ht,hhash⟩ := (h'.known_iff _ _).mp hnew
    have hpooled : pool.pooled tx.key = some old := by
      have hfree := h.apart tx.key
      simp only [hold, reduceCtorEq, or_false] at hfree
      rw [pooled, hfree, hold]
    have hknown : pool.known.lookup old.hash = some tx.key := (h.known_iff _ _).mpr ⟨old,hpooled,rfl⟩
    rw [hreplaced] at ht
    rw [Option.some.inj ht, hhash, hfresh] at hknown
    cases hknown

theorem entered_agree (h : pool.IndexesAgree) (hfresh : pool.known.lookup tx.hash = none)
    (hroom : pool.holds tx.key ∨ pool.senderSlotCount tx.sender < pool.config.maxSlotsPerSender)
    (hconfig : pool'.config = pool.config)
    (hknown : pool'.known = (pool.evictHashes tx.key).insert tx.hash tx.key) (hapart : pool'.Apart)
    (hself : pool'.pooled tx.key = some tx)
    (hothers : ∀ key, key ≠ tx.key → pool'.pooled key = pool.pooled key)
    (hqueued : pool'.queued.len ≤ pool.config.maxQueued) :
    pool'.IndexesAgree ↔ pool'.pending.len ≤ pool.config.maxPending := by
  constructor
  · intro h'
    exact hconfig ▸ h'.pending_le
  · intro hlen
    refine ⟨hapart,known_iff_entered h hfresh hknown hself hothers,hconfig ▸ hlen,hconfig ▸ hqueued,?_⟩
    intro addr
    rw [hconfig]
    by_cases hholds : pool.holds tx.key
    · refine (senderSlotCount_le h.apart hapart (fun key hkey => ?_) addr).trans (h.slots_le addr)
      by_cases hkey' : key = tx.key
      · rwa [hkey', ← holds_eq]
      · rwa [← hothers key hkey']
    · have hone := senderSlotCount_one h.apart hapart hothers addr
      have hold := h.slots_le addr
      split at hone
      · rename_i haddr
        rcases hroom with hheld | hless
        · exact absurd hheld hholds
        · rw [← haddr] at hone ⊢
          exact hone.trans hless
      · exact hone.trans hold

theorem place_pendingFull (tip : UInt64) (hnext : tx.tx.nonce = pool.nonceTracker.nextNonce tx.sender)
    (hfull : ¬ pool.holds tx.key ∧ pool.config.maxPending ≤ pool.pending.len) :
    pool.place tx tip =
      ({ pool with known := ((pool.evictHashes tx.key).insert tx.hash tx.key).erase tx.hash },
        .error (.pendingFull pool.pending.len)) := by
  simp only [place]
  rw [if_pos hnext, if_pos hfull]

theorem place_joined (tip : UInt64) (hnext : tx.tx.nonce = pool.nonceTracker.nextNonce tx.sender)
    (hfree : ¬ (¬ pool.holds tx.key ∧ pool.config.maxPending ≤ pool.pending.len)) :
    pool.place tx tip = ((pool.joined tx tip).promoteQueued tx.sender,.ok tx.hash) := by
  simp only [place]
  rw [if_pos hnext, if_neg hfree]
  rfl

theorem place_queuedFull (tip : UInt64) (hnext : tx.tx.nonce ≠ pool.nonceTracker.nextNonce tx.sender)
    (hfull : ¬ pool.holds tx.key ∧ pool.config.maxQueued ≤ pool.queued.len) :
    pool.place tx tip =
      ({ pool with known := ((pool.evictHashes tx.key).insert tx.hash tx.key).erase tx.hash },
        .error (.queuedFull pool.queued.len)) := by
  simp only [place]
  rw [if_neg hnext, if_pos hfull]

def waiting (pool : TransactionPool) (tx : SignedTransaction) : TransactionPool :=
  { pool with
    known := (pool.evictHashes tx.key).insert tx.hash tx.key
    queued := pool.queued.insert tx.key tx }

theorem place_waiting (tip : UInt64) (hnext : tx.tx.nonce ≠ pool.nonceTracker.nextNonce tx.sender)
    (hfree : ¬ (¬ pool.holds tx.key ∧ pool.config.maxQueued ≤ pool.queued.len)) :
    pool.place tx tip = (pool.waiting tx,.ok tx.hash) := by
  simp only [place]
  rw [if_neg hnext, if_neg hfree]
  rfl

theorem place_cases (pool : TransactionPool) (tx : SignedTransaction) (tip : UInt64) :
    (∃ known e, pool.place tx tip = ({ pool with known := known },.error e)) ∨
      (tx.tx.nonce = pool.nonceTracker.nextNonce tx.sender ∧
        ¬ (¬ pool.holds tx.key ∧ pool.config.maxPending ≤ pool.pending.len) ∧
        pool.place tx tip = ((pool.joined tx tip).promoteQueued tx.sender,.ok tx.hash)) ∨
      tx.tx.nonce ≠ pool.nonceTracker.nextNonce tx.sender ∧ pool.place tx tip = (pool.waiting tx,.ok tx.hash) := by
  by_cases hnext : tx.tx.nonce = pool.nonceTracker.nextNonce tx.sender
  · by_cases hfull : ¬ pool.holds tx.key ∧ pool.config.maxPending ≤ pool.pending.len
    · exact .inl ⟨_,_,place_pendingFull tip hnext hfull⟩
    · exact .inr (.inl ⟨hnext,hfull,place_joined tip hnext hfull⟩)
  · by_cases hfull : ¬ pool.holds tx.key ∧ pool.config.maxQueued ≤ pool.queued.len
    · exact .inl ⟨_,_,place_queuedFull tip hnext hfull⟩
    · exact .inr (.inr ⟨hnext,place_waiting tip hnext hfull⟩)

theorem joined_iff (h : pool.IndexesAgree) (hfresh : pool.known.lookup tx.hash = none) (tip : UInt64)
    (hroom : pool.holds tx.key ∨ pool.senderSlotCount tx.sender < pool.config.maxSlotsPerSender)
    (hqueued : pool.queued.lookup tx.key = none) :
    ((pool.joined tx tip).promoteQueued tx.sender).IndexesAgree ↔
      (if pool.holds tx.key then pool.pending.len else pool.pending.len + 1) +
        following (pool.nonceTracker.recordPending tx.sender tx.tx.nonce) pool.queued tx.sender
          maxPromotePerCall ≤ pool.config.maxPending := by
  have hmoves : Moves (pool.joined tx tip) ((pool.joined tx tip).promoteQueued tx.sender) :=
    moves_promoteUpTo _ _ _
  have hpending : (pool.joined tx tip).pending = pool.pending.insert tx.key ⟨tx,tip⟩ := rfl
  have hapart : (pool.joined tx tip).Apart := by
    intro key
    by_cases hkey : key = tx.key
    · subst hkey
      exact Or.inr hqueued
    · rw [hpending, AList.lookup_insert_ne hkey]
      exact h.apart key
  have hlen : ((pool.joined tx tip).promoteQueued tx.sender).pending.len = _ := len_promoteUpTo hapart _
  rw [len_joined tip hqueued] at hlen
  rw [entered_agree h hfresh hroom hmoves.config hmoves.known (hmoves.apart hapart), hlen]
  · rfl
  · rw [hmoves.pooled hapart, pooled, hpending, AList.lookup_insert]
  · intro key hkey
    rw [hmoves.pooled hapart, pooled, hpending, AList.lookup_insert_ne hkey]
    rfl
  · exact hmoves.len_queued.trans h.queued_le

theorem waiting_agree (h : pool.IndexesAgree) (hfresh : pool.known.lookup tx.hash = none)
    (hroom : pool.holds tx.key ∨ pool.senderSlotCount tx.sender < pool.config.maxSlotsPerSender)
    (hfree : ¬ (¬ pool.holds tx.key ∧ pool.config.maxQueued ≤ pool.queued.len))
    (hpending : pool.pending.lookup tx.key = none) : (pool.waiting tx).IndexesAgree := by
  have hqueue : (pool.waiting tx).queued = pool.queued.insert tx.key tx := rfl
  have hpend : (pool.waiting tx).pending = pool.pending := rfl
  have hapart : (pool.waiting tx).Apart := by
    intro key
    by_cases hkey : key = tx.key
    · subst hkey
      exact Or.inl hpending
    · rw [hqueue, AList.lookup_insert_ne hkey]
      exact h.apart key
  have hlen : (pool.waiting tx).queued.len ≤ pool.config.maxQueued := by
    have hkeys : (pool.waiting tx).queued.keySet = insert tx.key pool.queued.keySet := AList.keySet_insert
    rw [← AList.card_keySet, hkeys]
    by_cases hheld : pool.holds tx.key
    · have hmem : tx.key ∈ pool.queued.keySet := by
        refine AList.mem_keySet.mpr (Option.isSome_iff_exists.mp ?_)
        simpa [holds, hpending] using hheld
      rw [Finset.insert_eq_of_mem hmem, AList.card_keySet]
      exact h.queued_le
    · have hless : pool.queued.len < pool.config.maxQueued := not_le.mp (fun hle => hfree ⟨hheld,hle⟩)
      refine (Finset.card_insert_le _ _).trans ?_
      rw [AList.card_keySet]
      exact hless
  have hconfig : (pool.waiting tx).config = pool.config := rfl
  refine (entered_agree h hfresh hroom hconfig rfl hapart ?_ ?_ hlen).mpr h.pending_le
  · rw [pooled, hpend, hpending, hqueue, AList.lookup_insert]
  · intro key hkey
    rw [pooled, hqueue, AList.lookup_insert_ne hkey]
    rfl

/-- An accepted transaction leaves the tables in agreement exactly when it keeps its place and
those that follow it fit. -/
theorem place_iff (h : pool.IndexesAgree) (hfresh : pool.known.lookup tx.hash = none) (tip : UInt64)
    (hroom : pool.holds tx.key ∨ pool.senderSlotCount tx.sender < pool.config.maxSlotsPerSender) :
    (pool.KeepsPlace tx ∧ pool.FollowersFit tx) ↔ (pool.place tx tip).1.IndexesAgree := by
  unfold KeepsPlace FollowersFit
  by_cases hnext : tx.tx.nonce = pool.nonceTracker.nextNonce tx.sender
  · by_cases hfull : ¬ pool.holds tx.key ∧ pool.config.maxPending ≤ pool.pending.len
    · rw [place_pendingFull tip hnext hfull]
      refine iff_of_true ⟨⟨fun _ => hnext,fun hsome => ?_⟩,fun _ hguard => ?_⟩
        (h.congr rfl rfl rfl (lookup_entered_erased hfresh hfull.1))
      · simp [(pooled_none hfull.1).2] at hsome
      · rcases hguard with hheld | hless
        · exact absurd hheld hfull.1
        · exact absurd hfull.2 (Nat.not_le.mpr hless)
    · rw [place_joined tip hnext hfull]
      cases hqueued : pool.queued.lookup tx.key with
      | some old =>
        refine iff_of_false ?_ (not_agree_of_queued h hfresh tip hqueued (moves_promoteUpTo _ _ _))
        rintro ⟨⟨-,hnot⟩,-⟩
        exact hnot rfl hnext
      | none =>
        have hguard : pool.holds tx.key ∨ pool.pending.len < pool.config.maxPending := by
          by_cases hheld : pool.holds tx.key
          · exact Or.inl hheld
          · exact Or.inr (not_le.mp (fun hle => hfull ⟨hheld,hle⟩))
        rw [joined_iff h hfresh tip hroom hqueued]
        simp [hnext, hguard]
  · by_cases hfull : ¬ pool.holds tx.key ∧ pool.config.maxQueued ≤ pool.queued.len
    · rw [place_queuedFull tip hnext hfull]
      refine iff_of_true ⟨⟨fun hsome => ?_,fun _ => hnext⟩,fun heq => absurd heq hnext⟩
        (h.congr rfl rfl rfl (lookup_entered_erased hfresh hfull.1))
      simp [(pooled_none hfull.1).1] at hsome
    · rw [place_waiting tip hnext hfull]
      cases hpending : pool.pending.lookup tx.key with
      | some slot =>
        refine iff_of_false (fun hkeeps => hnext (hkeeps.1.1 rfl)) (fun hagree => ?_)
        have hboth := hagree.apart tx.key
        have hqueue : (pool.waiting tx).queued.lookup tx.key = some tx := AList.lookup_insert _
        have hpend : (pool.waiting tx).pending.lookup tx.key = some slot := hpending
        simp [hqueue, hpend] at hboth
      | none =>
        refine iff_of_true ⟨⟨fun hsome => ?_,fun _ => hnext⟩,fun heq => absurd heq hnext⟩
          (waiting_agree h hfresh hroom hfull hpending)
        simp at hsome

end Placing

end TransactionPool

end ZbxChain
