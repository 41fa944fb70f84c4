import ZbxChain.Mempool.Lanes

/-! # Gap-free runs of pending nonces

The tracker forgets the highest pending nonce of a sender whose only pending transaction has the
nonce on chain, and after a confirmation also one that is still pending. From then on it expects a
nonce that is in use, and what should follow is queued.
-/
namespace ZbxChain

namespace TransactionPool

/-- The pending nonces of a sender are those from its nonce on chain up to the one that is
expected next, which no queued transaction has, unless no more may be pending. -/
def GapFree (pool : TransactionPool) (addr : Address) : Prop :=
  let n := pool.nonceTracker.onChainNonce addr
  ∃ m, n ≤ m ∧ (∀ k, pool.isPending addr k ↔ n ≤ k ∧ k < m) ∧ pool.nonceTracker.nextNonce addr = m ∧
    (¬ pool.isQueued addr m ∨ pool.config.maxPending ≤ pool.pending.len)

/-- The nonces on chain after a block: one above the last of each sender. -/
def confirmNonces (chain : Address → UInt64) (txs : List SignedTransaction) : Address → UInt64 :=
  txs.foldl (fun chain tx => Function.update chain tx.sender (tx.tx.nonce + 1)) chain

section Calls
variable (P : Platform) (K : K256) (crateRlp : RlpItem → List UInt8)

def chainedStep (s : TransactionPool × (Address → UInt64)) (call : PoolCall) :
    (TransactionPool × (Address → UInt64)) × Option (Except MempoolError H256) :=
  let chain := match call with
    | .removeConfirmed txs => confirmNonces s.2 txs
    | _ => s.2
  (((poolStep P K crateRlp s.1 call).1,chain),(poolStep P K crateRlp s.1 call).2)

/-- A transaction is offered with the nonce on chain of its sender. -/
def OnChain (chain : Address → UInt64) : PoolCall → Prop
  | .addTransaction tx _ nonce => nonce = chain tx.sender
  | .removeConfirmed _ => True
  | .updateBaseFee _ => True

/-- A transaction of a sender whose only pending nonce is the one on chain replaces it; one that
becomes pending has a free nonce above it. -/
def AddKeepsRun (pool : TransactionPool) (tx : SignedTransaction) (balance : ℕ) (nonce : UInt64) : Prop :=
  ∀ tip, pool.screen P K crateRlp tx balance = .ok tip →
    let told := pool.setOnChain tx.sender nonce
    let accepted := told.reserve tx balance nonce tip = .ok ()
    (pool.nonceTracker.pendingMax.lookup tx.sender = some nonce → tx.tx.nonce = nonce ∧ accepted) ∧
      (accepted → tx.tx.nonce = told.nonceTracker.nextNonce tx.sender →
        ¬ (¬ told.holds tx.key ∧ told.config.maxPending ≤ told.pending.len) →
          ∃ j, tx.tx.nonce < j ∧ ¬ pool.isQueued tx.sender j)

/-- Of a sender with confirmed nonces, the highest pending one stays more than one above them and
what is left pending goes from the new nonce on chain up to it; or the highest is forgotten, and
what is left pending is queued as well, without a gap from the new nonce on chain. -/
def RemoveKeepsRun (pool : TransactionPool) (txs : List SignedTransaction) : Prop :=
  ∀ addr ∈ txs.map SignedTransaction.sender,
    let n := confirmNonces pool.nonceTracker.onChainNonce txs addr
    let keys := txs.map SignedTransaction.key
    let left := fun k => pool.isPending addr k ∧ (addr,k) ∉ keys
    let waiting := fun k => pool.isQueued addr k ∧ (addr,k) ∉ keys
    let reached := fun highest => ∃ tx ∈ txs, tx.sender = addr ∧ highest ≤ tx.tx.nonce + 1
    (∃ highest, pool.nonceTracker.pendingMax.lookup addr = some highest ∧ ¬ reached highest ∧
        ∀ k, left k ↔ n ≤ k ∧ k ≤ highest) ∨
      (∀ highest, pool.nonceTracker.pendingMax.lookup addr = some highest → reached highest) ∧
        (∃ j, n ≤ j ∧ ¬ waiting j) ∧ ∀ k, left k → n ≤ k ∧ ∀ i, n ≤ i → i ≤ k → waiting i

def CallKeepsRun (pool : TransactionPool) : PoolCall → Prop
  | .addTransaction tx balance nonce => AddKeepsRun P K crateRlp pool tx balance nonce
  | .removeConfirmed txs => RemoveKeepsRun pool txs
  | .updateBaseFee _ => True

end Calls

section Trackers
variable {t : NonceTracker} {chain : Address → UInt64}

theorem lookup_setOnChain (t : NonceTracker) (a : Address) (nonce : UInt64) (addr : Address) :
    (t.setOnChain a nonce).onChain.lookup addr = if addr = a then some nonce else t.onChain.lookup addr := by
  have hinsert : (t.setOnChain a nonce).onChain = t.onChain.insert a nonce := by
    simp only [NonceTracker.setOnChain]
    split
    · split
      · rfl
      · rfl
    · rfl
  rw [hinsert]
  by_cases haddr : addr = a
  · subst haddr
    simp [AList.lookup_insert]
  · simp [haddr, AList.lookup_insert_ne]

/-- A confirmed nonce clears a highest pending one that it has reached. -/
theorem pendingMax_setOnChain (t : NonceTracker) (a : Address) (nonce : UInt64) (addr : Address) :
    (t.setOnChain a nonce).pendingMax.lookup addr =
      (t.pendingMax.lookup addr).filter (fun highest => !(addr = a && highest ≤ nonce)) := by
  simp only [NonceTracker.setOnChain]
  by_cases haddr : addr = a
  · subst haddr
    cases hmax : t.pendingMax.lookup addr with
    | none => simp [hmax]
    | some highest =>
      by_cases hle : highest ≤ nonce
      · simp [hle, AList.lookup_erase, Option.filter]
      · simp [hle, hmax, Option.filter]
  · have hkeep : (t.pendingMax.lookup addr).filter (fun highest => !(addr = a && highest ≤ nonce)) =
        t.pendingMax.lookup addr := by
      cases t.pendingMax.lookup addr with
      | none => rfl
      | some highest => simp [haddr, Option.filter]
    rw [hkeep]
    split
    · split
      · exact AList.lookup_erase_ne haddr
      · rfl
    · rfl

/-- The tracker after the first loop of `remove_confirmed`. -/
def confirmTracker (t : NonceTracker) (txs : List SignedTransaction) : NonceTracker :=
  txs.foldl (fun t tx => t.setOnChain tx.sender (tx.tx.nonce + 1)) t

theorem confirmNonces_cons (chain : Address → UInt64) (tx : SignedTransaction) (txs : List SignedTransaction) :
    confirmNonces chain (tx :: txs) = confirmNonces (Function.update chain tx.sender (tx.tx.nonce + 1)) txs := rfl

theorem confirmNonces_other {txs : List SignedTransaction} {addr : Address}
    (haddr : addr ∉ txs.map SignedTransaction.sender) (chain : Address → UInt64) :
    confirmNonces chain txs addr = chain addr := by
  induction txs generalizing chain with
  | nil => rfl
  | cons tx txs ih =>
    rw [List.map_cons, List.mem_cons, not_or] at haddr
    rw [confirmNonces_cons, ih haddr.2, Function.update_of_ne haddr.1]

theorem confirmNonces_mem {txs : List SignedTransaction} {addr : Address}
    (haddr : addr ∈ txs.map SignedTransaction.sender) (chain : Address → UInt64) :
    ∃ tx ∈ txs, tx.sender = addr ∧ confirmNonces chain txs addr = tx.tx.nonce + 1 := by
  induction txs generalizing chain with
  | nil => cases haddr
  | cons tx txs ih =>
    rw [confirmNonces_cons]
    by_cases hrest : addr ∈ txs.map SignedTransaction.sender
    · obtain ⟨tx',hmem,hsender,hnonce⟩ := ih hrest _
      exact ⟨tx',List.mem_cons_of_mem _ hmem,hsender,hnonce⟩
    · have hfirst : addr = tx.sender := (List.mem_cons.mp haddr).resolve_right hrest
      refine ⟨tx,List.mem_cons_self,hfirst.symm,?_⟩
      rw [confirmNonces_other hrest, hfirst, Function.update_self]

/-- The nonces that a confirmed block leaves to its senders. -/
theorem lookup_confirmTracker (t : NonceTracker) (chain : Address → UInt64) (txs : List SignedTransaction)
    (addr : Address) :
    (confirmTracker t txs).onChain.lookup addr =
      if addr ∈ txs.map SignedTransaction.sender then some (confirmNonces chain txs addr)
      else t.onChain.lookup addr := by
  induction txs generalizing t chain with
  | nil => simp [confirmTracker]
  | cons tx txs ih =>
    have hrest := ih (t.setOnChain tx.sender (tx.tx.nonce + 1)) (Function.update chain tx.sender (tx.tx.nonce + 1))
    rw [confirmTracker, List.foldl_cons, ← confirmTracker, hrest, confirmNonces_cons, lookup_setOnChain]
    by_cases hmem : addr ∈ txs.map SignedTransaction.sender
    · simp [hmem]
    · by_cases haddr : addr = tx.sender
      · simp only [if_neg hmem, confirmNonces_other hmem]
        simp [haddr]
      · simp [hmem, haddr]

theorem pendingMax_confirmTracker (t : NonceTracker) (txs : List SignedTransaction) (addr : Address) :
    (confirmTracker t txs).pendingMax.lookup addr = (t.pendingMax.lookup addr).filter
      (fun highest => txs.all (fun tx => !(addr = tx.sender && highest ≤ tx.tx.nonce + 1))) := by
  induction txs generalizing t with
  | nil =>
    cases hmax : t.pendingMax.lookup addr with
    | none => simpa [confirmTracker] using hmax
    | some highest => simpa [confirmTracker, Option.filter] using hmax
  | cons tx txs ih =>
    rw [confirmTracker, List.foldl_cons, ← confirmTracker, ih, pendingMax_setOnChain, Option.filter_filter]
    simp only [List.all_cons]

end Trackers

section Slots
variable {pool pool' : TransactionPool} {addr : Address}

def nonceCount (pool : TransactionPool) (addr : Address) : ℕ := (pool.keys.filter (fun key => key.1 = addr)).card

theorem nonceCount_le_senderSlotCount (pool : TransactionPool) (addr : Address) :
    pool.nonceCount addr ≤ pool.senderSlotCount addr := by
  rw [senderSlotCount, card_keys_at _ pool.pending.keys_nodup, card_keys_at _ pool.queued.keys_nodup, nonceCount,
    keys, Finset.filter_union]
  exact Finset.card_union_le _ _

theorem card_queuedKeys_le (pool : TransactionPool) (addr : Address) :
    (pool.queuedKeys addr).card ≤ pool.nonceCount addr :=
  Finset.card_le_card (Finset.filter_subset_filter _ Finset.subset_union_right)

theorem nonceCount_mono (h : ∀ key, pool'.holds key → pool.holds key) (addr : Address) :
    pool'.nonceCount addr ≤ pool.nonceCount addr := by
  refine Finset.card_le_card (Finset.filter_subset_filter _ (fun key hkey => ?_))
  rw [mem_keys, ← holds_eq] at hkey ⊢
  exact h key hkey

theorem nonceCount_one {new : TxKey} (h : ∀ key, pool'.holds key → key = new ∨ pool.holds key) (addr : Address) :
    pool'.nonceCount addr ≤ pool.nonceCount addr + if new.1 = addr ∧ ¬ pool.holds new then 1 else 0 := by
  split
  · refine (Finset.card_le_card (fun key hkey => ?_)).trans (Finset.card_insert_le new _)
    obtain ⟨hmem,haddr⟩ := Finset.mem_filter.mp hkey
    rw [mem_keys, ← holds_eq] at hmem
    rcases h key hmem with rfl | hold
    · exact Finset.mem_insert_self ..
    · rw [holds_eq] at hold
      exact Finset.mem_insert_of_mem (Finset.mem_filter.mpr ⟨mem_keys.mpr hold,haddr⟩)
  · rename_i hnone
    rw [Nat.add_zero]
    refine Finset.card_le_card (fun key hkey => ?_)
    obtain ⟨hmem,haddr⟩ := Finset.mem_filter.mp hkey
    rw [mem_keys, ← holds_eq] at hmem
    refine Finset.mem_filter.mpr ⟨mem_keys.mpr (holds_eq pool key ▸ ?_),haddr⟩
    rcases h key hmem with rfl | hold
    · by_contra hnew
      exact hnone ⟨haddr,hnew⟩
    · exact hold

theorem Moves.holds (h : Moves pool pool') {key : TxKey} (hkey : pool'.holds key) : pool.holds key := by
  rcases h.entry key with ⟨hqueued,hpending⟩ | ⟨slot,hqueued,-,-⟩
  · simpa [TransactionPool.holds, hqueued, hpending] using hkey
  · simp [TransactionPool.holds, hqueued]

end Slots

section Senders
variable {pool pool' : TransactionPool} {addr : Address} {nonce : UInt64}

/-- What the calls keep for each sender: its pending nonces are a run from the nonce on chain that
nothing queued continues. -/
structure Kept (pool : TransactionPool) (addr : Address) (nonce : UInt64) : Prop where
  told : ∀ v, pool.nonceTracker.onChain.lookup addr = some v → v = nonce
  fresh : pool.nonceTracker.onChain.lookup addr = none → ∀ k, ¬ pool.isPending addr k ∧ ¬ pool.isQueued addr k
  run : ∃ m, pool.Growing addr (pool.nonceTracker.onChainNonce addr) m ∧ ¬ pool.isQueued addr m

theorem Kept.gapFree (h : Kept pool addr nonce) : pool.GapFree addr := by
  obtain ⟨m,hg,hend⟩ := h.run
  refine ⟨m,hg.le,fun k => ⟨fun hk => ?_,fun hk => hg.filled k hk.1 hk.2⟩,hg.nextNonce,.inl hend⟩
  obtain ⟨hle,hcover⟩ := hg.covered k hk
  exact ⟨hle,UInt64.not_le.mp fun hge => hend (hcover m (UInt64.le_refl m) hge)⟩

theorem Kept.congr (h : Kept pool addr nonce) (hlane : SameLane addr pool pool') : Kept pool' addr nonce where
  told v hv := h.told v (hlane.tracker.onChain.trans hv)
  fresh hnone k := by
    rw [← hlane.pending, ← hlane.queued]
    exact h.fresh (hlane.tracker.onChain.trans hnone) k
  run := by
    obtain ⟨m,hg,hend⟩ := h.run
    have honChain : pool'.nonceTracker.onChainNonce addr = pool.nonceTracker.onChainNonce addr := by
      rw [NonceTracker.onChainNonce, NonceTracker.onChainNonce, hlane.tracker.onChain]
    rw [honChain]
    exact ⟨m,hlane.growing hg,hlane.queued m ▸ hend⟩

theorem Kept.of_growing {m : UInt64} (hchain : pool.nonceTracker.onChain.lookup addr = some nonce)
    (hg : pool.Growing addr nonce m) (hend : ¬ pool.isQueued addr m) : Kept pool addr nonce where
  told v hv := Option.some.inj (hv.symm.trans hchain)
  fresh hnone := by
    rw [hchain] at hnone
    cases hnone
  run := by
    rw [hg.onChain]
    exact ⟨m,hg,hend⟩

theorem kept_new (config : MempoolConfig) (addr : Address) (nonce : UInt64) : Kept (new config) addr nonce where
  told := nofun
  fresh := fun _ _ => ⟨nofun,nofun⟩
  run := ⟨0,⟨rfl,UInt64.le_refl 0,rfl,
    fun _ hk hlt => absurd hlt (UInt64.not_lt.mpr hk),nofun,0,UInt64.le_refl 0,nofun⟩,nofun⟩

theorem onChainNonce_setOnChain (t : NonceTracker) (addr : Address) (nonce : UInt64) :
    (t.setOnChain addr nonce).onChainNonce addr = nonce := by
  simp [NonceTracker.onChainNonce, lookup_setOnChain]

/-- A nonce on chain that is not the highest pending one leaves the run as it is. -/
theorem Kept.setOnChain (h : Kept pool addr nonce) (hne : pool.nonceTracker.pendingMax.lookup addr ≠ some nonce) :
    Kept (pool.setOnChain addr nonce) addr nonce := by
  obtain ⟨m,hg,hend⟩ := h.run
  have hmax := pendingMax_setOnChain pool.nonceTracker addr nonce addr
  have hchain := lookup_setOnChain pool.nonceTracker addr nonce addr
  rw [if_pos rfl] at hchain
  cases hv : pool.nonceTracker.onChain.lookup addr with
  | some v =>
    obtain rfl := h.told v hv
    have hn : pool.nonceTracker.onChainNonce addr = v := by simp [NonceTracker.onChainNonce, hv]
    rw [hn] at hg
    refine h.congr ⟨⟨hv.trans hchain.symm,?_⟩,fun _ => rfl,fun _ => rfl⟩
    refine Eq.trans ?_ hmax.symm
    rw [hg.highest] at hne ⊢
    by_cases hlt : v < m
    · have habove : v < m - 1 := by
        rw [if_pos hlt] at hne
        have hother : m - 1 ≠ v := fun heq => hne (congrArg some heq)
        grind
      simp [hlt, Option.filter, habove]
    · simp [hlt, Option.filter]
  | none =>
    -- the tracker hears of the sender for the first time
    have hfresh := h.fresh hv
    have hstart : ¬ pool.nonceTracker.onChainNonce addr < m :=
      fun hlt => (hfresh _).1 (hg.filled _ (UInt64.le_refl _) hlt)
    have hnone := hg.highest
    rw [if_neg hstart] at hnone
    rw [hnone] at hmax
    refine Kept.of_growing hchain ⟨onChainNonce_setOnChain _ _ _,UInt64.le_refl nonce,?_,?_,?_,?_⟩ (hfresh nonce).2
    · rw [if_neg (UInt64.lt_irrefl nonce)]
      exact hmax
    · exact fun _ hk hlt => absurd hlt (UInt64.not_lt.mpr hk)
    · exact fun k hk => absurd hk (hfresh k).1
    · exact ⟨nonce,UInt64.le_refl nonce,(hfresh nonce).2⟩

theorem Kept.single (h : Kept pool addr nonce) (hmax : pool.nonceTracker.pendingMax.lookup addr = some nonce) :
    (∀ k, pool.isPending addr k ↔ k = nonce) ∧ nonce < nonce + 1 ∧ ¬ pool.isQueued addr (nonce + 1) := by
  obtain ⟨m,hg,hend⟩ := h.run
  obtain ⟨m',hle,hiff,hnext,-⟩ := h.gapFree
  obtain rfl := hnext.symm.trans hg.nextNonce
  have hhighest := hg.highest
  rw [hmax] at hhighest
  by_cases hlt : pool.nonceTracker.onChainNonce addr < m'
  · rw [if_pos hlt] at hhighest
    have hlast : nonce = m' - 1 := Option.some.inj hhighest
    have hn : pool.nonceTracker.onChainNonce addr = nonce := by
      cases hv : pool.nonceTracker.onChain.lookup addr with
      | none => exact absurd (hg.filled _ (UInt64.le_refl _) hlt) (h.fresh hv _).1
      | some v =>
        rw [← h.told v hv]
        simp [NonceTracker.onChainNonce, hv]
    rw [hn] at hiff hlt
    have hm : m' = nonce + 1 := by grind
    subst hm
    refine ⟨fun k => ?_,hlt,hend⟩
    rw [hiff]
    grind
  · rw [if_neg hlt] at hhighest
    cases hhighest

end Senders

section Placing
variable {pool : TransactionPool} {tx : SignedTransaction} {tip nonce : UInt64} {addr : Address}

theorem sameLane_known (pool : TransactionPool) (known : Table H256 TxKey) (addr : Address) :
    SameLane addr pool { pool with known := known } := ⟨⟨rfl,rfl⟩,fun _ => rfl,fun _ => rfl⟩

theorem growing_joined (hchain : pool.nonceTracker.onChainNonce tx.sender = nonce)
    (hpending : ∀ k, (k = tx.tx.nonce ∨ pool.isPending tx.sender k) ↔ nonce ≤ k ∧ k ≤ tx.tx.nonce)
    (hmax : ∀ highest, pool.nonceTracker.pendingMax.lookup tx.sender = some highest → highest ≤ tx.tx.nonce)
    (hfree : ∃ j, tx.tx.nonce < j ∧ ¬ pool.isQueued tx.sender j) :
    (pool.joined tx tip).Growing tx.sender nonce (tx.tx.nonce + 1) := by
  obtain ⟨j,hj,hnot⟩ := hfree
  have hle := ((hpending tx.tx.nonce).mp (.inl rfl)).1
  have hjoined : ∀ k, (pool.joined tx tip).isPending tx.sender k ↔ nonce ≤ k ∧ k ≤ tx.tx.nonce := by
    intro k
    rw [← hpending]
    by_cases hk : k = tx.tx.nonce
    · subst hk
      simp [isPending, joined, SignedTransaction.key, AList.lookup_insert]
    · simp [isPending, joined, SignedTransaction.key, hk, AList.lookup_insert_ne]
  have hentry : (if (pool.nonceTracker.pendingMax.lookup tx.sender).getD 0 < tx.tx.nonce then tx.tx.nonce
      else (pool.nonceTracker.pendingMax.lookup tx.sender).getD 0) = tx.tx.nonce := by
    cases hhighest : pool.nonceTracker.pendingMax.lookup tx.sender with
    | none =>
      simp only [Option.getD_none]
      grind
    | some highest =>
      have hbound := hmax highest hhighest
      simp only [Option.getD_some]
      grind
  have hlt : nonce < tx.tx.nonce + 1 := by grind
  refine ⟨hchain,by grind,?_,fun k hk hless => ?_,fun k hk => ?_,j,by grind,hnot⟩
  · simp only [joined, NonceTracker.recordPending, AList.lookup_insert, hentry, hlt, if_true, UInt64.add_sub_cancel]
  · exact (hjoined k).mpr ⟨hk,by grind⟩
  · obtain ⟨hge,hle'⟩ := (hjoined k).mp hk
    exact ⟨hge,fun i hi hik => by grind⟩

theorem kept_joined (hchain : pool.nonceTracker.onChain.lookup tx.sender = some nonce)
    (hg : (pool.joined tx tip).Growing tx.sender nonce (tx.tx.nonce + 1))
    (hcount : (pool.queuedKeys tx.sender).card ≤ maxPromotePerCall) :
    Kept ((pool.joined tx tip).promoteQueued tx.sender) tx.sender nonce := by
  obtain ⟨m,hgrown,hend⟩ := hg.promoteUpTo hcount
  refine Kept.of_growing ?_ hgrown hend
  rw [promoteQueued, onChain_promoteUpTo]
  exact hchain

theorem sameLane_place (haddr : addr ≠ tx.sender) : SameLane addr pool (pool.place tx tip).1 := by
  have hne : ∀ k, (addr,k) ≠ tx.key := fun k heq => haddr (Prod.mk.inj heq).1
  obtain ⟨known,e,hplace⟩ | ⟨-,-,hplace⟩ | ⟨-,hplace⟩ := pool.place_cases tx tip
  · rw [hplace]
    exact sameLane_known pool known addr
  · rw [hplace]
    have hjoined : SameLane addr pool (pool.joined tx tip) := by
      refine ⟨NonceTracker.sameSender_recordPending haddr _,fun k => ?_,fun _ => rfl⟩
      simp [isPending, joined, AList.lookup_insert_ne (hne k)]
    exact hjoined.trans (sameLane_promoteUpTo haddr _ _)
  · rw [hplace]
    refine ⟨⟨rfl,rfl⟩,fun _ => rfl,fun k => ?_⟩
    simp [isQueued, waiting, AList.lookup_insert_ne (hne k)]

theorem holds_place {key : TxKey} (hkey : (pool.place tx tip).1.holds key) : key = tx.key ∨ pool.holds key := by
  by_cases hnew : key = tx.key
  · exact .inl hnew
  · right
    obtain ⟨known,e,hplace⟩ | ⟨-,-,hplace⟩ | ⟨-,hplace⟩ := pool.place_cases tx tip
    · rw [hplace] at hkey
      exact hkey
    · rw [hplace] at hkey
      have hjoined := (moves_promoteUpTo tx.sender maxPromotePerCall (pool.joined tx tip)).holds hkey
      simpa [holds, joined, AList.lookup_insert_ne hnew] using hjoined
    · rw [hplace] at hkey
      simpa [holds, waiting, AList.lookup_insert_ne hnew] using hkey

theorem nonceCount_place (pool : TransactionPool) (tx : SignedTransaction) (tip : UInt64) (addr : Address) :
    (pool.place tx tip).1.nonceCount addr ≤
      pool.nonceCount addr + if tx.sender = addr ∧ ¬ pool.holds tx.key then 1 else 0 :=
  nonceCount_one (fun _ => holds_place) addr

/-- A run that goes on with a transaction at any nonce but one already expected and in use. -/
theorem Kept.place (h : Kept pool tx.sender nonce)
    (hchain : pool.nonceTracker.onChain.lookup tx.sender = some nonce)
    (hcount : (pool.queuedKeys tx.sender).card ≤ maxPromotePerCall)
    (hfree : tx.tx.nonce = pool.nonceTracker.nextNonce tx.sender →
      ¬ (¬ pool.holds tx.key ∧ pool.config.maxPending ≤ pool.pending.len) →
        ∃ j, tx.tx.nonce < j ∧ ¬ pool.isQueued tx.sender j) :
    Kept (pool.place tx tip).1 tx.sender nonce := by
  obtain ⟨m,hg,hend⟩ := h.run
  have hn : pool.nonceTracker.onChainNonce tx.sender = nonce := by simp [NonceTracker.onChainNonce, hchain]
  have hpending : ∀ k, pool.isPending tx.sender k ↔ nonce ≤ k ∧ k < m := by
    obtain ⟨m',-,hiff,hnext,-⟩ := h.gapFree
    rw [hg.nextNonce] at hnext
    rw [hn] at hiff
    exact hnext ▸ hiff
  rw [hn] at hg
  obtain ⟨known,e,hplace⟩ | ⟨hnext,hfull,hplace⟩ | ⟨hnext,hplace⟩ := pool.place_cases tx tip
  · rw [hplace]
    exact h.congr (sameLane_known pool known _)
  · rw [hplace]
    have hlast := hnext.trans hg.nextNonce
    have hle := hg.le
    refine kept_joined hchain (growing_joined hn ?_ ?_ (hfree hnext hfull)) hcount
    · intro k
      rw [hpending, hlast]
      constructor
      · rintro (rfl | hk)
        · exact ⟨hle,UInt64.le_refl _⟩
        · exact ⟨hk.1,UInt64.le_of_lt hk.2⟩
      · intro hk
        grind
    · intro highest hhighest
      rw [hg.highest] at hhighest
      rw [hlast]
      split at hhighest
      · obtain rfl := Option.some.inj hhighest
        grind
      · cases hhighest
  · rw [hplace]
    rw [hg.nextNonce] at hnext
    have hqueued : ∀ k, (pool.waiting tx).isQueued tx.sender k =
        (decide (k = tx.tx.nonce) || pool.isQueued tx.sender k) := by
      intro k
      by_cases hk : k = tx.tx.nonce
      · subst hk
        simp [isQueued, waiting, SignedTransaction.key, AList.lookup_insert]
      · simp [isQueued, waiting, SignedTransaction.key, hk, AList.lookup_insert_ne]
    have hstill : ¬ (pool.waiting tx).isQueued tx.sender m := by
      rw [hqueued]
      simpa [Ne.symm hnext] using hend
    refine Kept.of_growing hchain ⟨hn,hg.le,hg.highest,hg.filled,fun k hk => ?_,m,UInt64.le_refl m,hstill⟩ hstill
    obtain ⟨hge,hlt⟩ := (hpending k).mp hk
    exact ⟨hge,fun i hi hik => by grind⟩

end Placing

section Adding
variable {P : Platform} {K : K256} {crateRlp : RlpItem → List UInt8} {pool : TransactionPool}
  {tx : SignedTransaction} {balance : ℕ} {nonce tip : UInt64} {addr : Address}

theorem sameLane_setOnChain {a : Address} (haddr : addr ≠ a) : SameLane addr pool (pool.setOnChain a nonce) := by
  refine ⟨⟨?_,?_⟩,fun _ => rfl,fun _ => rfl⟩
  · have hchain := lookup_setOnChain pool.nonceTracker a nonce addr
    rw [if_neg haddr] at hchain
    exact hchain.symm
  · have hmax := pendingMax_setOnChain pool.nonceTracker a nonce addr
    refine Eq.trans ?_ hmax.symm
    cases hhighest : pool.nonceTracker.pendingMax.lookup addr with
    | none => rfl
    | some highest => simp [haddr, Option.filter]

theorem sameLane_addTransaction (haddr : addr ≠ tx.sender) :
    SameLane addr pool (pool.addTransaction P K crateRlp tx balance nonce).1 := by
  unfold addTransaction
  split
  · exact SameLane.refl addr pool
  · dsimp only
    split
    · exact sameLane_setOnChain haddr
    · exact (sameLane_setOnChain haddr).trans (sameLane_place haddr)

theorem nonceCount_addTransaction (h : pool.nonceCount addr ≤ pool.config.maxSlotsPerSender) :
    (pool.addTransaction P K crateRlp tx balance nonce).1.nonceCount addr ≤ pool.config.maxSlotsPerSender := by
  unfold addTransaction
  split
  · exact h
  · dsimp only
    split
    · exact h
    · rename_i tip _ _ hreserve
      have hone := nonceCount_place (pool.setOnChain tx.sender nonce) tx tip addr
      have hcount : (pool.setOnChain tx.sender nonce).nonceCount addr = pool.nonceCount addr := rfl
      split at hone
      · rename_i hnew
        obtain ⟨haddr,hnew⟩ := hnew
        have hroom := (reserve_room hreserve).resolve_left hnew
        have hle := nonceCount_le_senderSlotCount (pool.setOnChain tx.sender nonce) tx.sender
        rw [← haddr] at hone hcount ⊢
        have hconfig : (pool.setOnChain tx.sender nonce).config = pool.config := rfl
        rw [hconfig] at hroom
        omega
      · omega

theorem Kept.addTransaction (h : Kept pool tx.sender nonce) (hcount : pool.nonceCount tx.sender ≤ maxPromotePerCall)
    (hkeeps : AddKeepsRun P K crateRlp pool tx balance nonce) :
    Kept (pool.addTransaction P K crateRlp tx balance nonce).1 tx.sender nonce := by
  unfold TransactionPool.addTransaction
  cases hscreen : pool.screen P K crateRlp tx balance with
  | error e => exact h
  | ok tip =>
    obtain ⟨hsingle,hfree⟩ := hkeeps tip hscreen
    have hqueuedCount := (card_queuedKeys_le pool tx.sender).trans hcount
    have hchain := lookup_setOnChain pool.nonceTracker tx.sender nonce tx.sender
    rw [if_pos rfl] at hchain
    dsimp only
    by_cases hforgot : pool.nonceTracker.pendingMax.lookup tx.sender = some nonce
    · -- the only pending transaction is forgotten and has to be replaced
      obtain ⟨hnonce,haccepted⟩ := hsingle hforgot
      rw [haccepted]
      obtain ⟨hiff,hend⟩ := h.single hforgot
      have hmax := pendingMax_setOnChain pool.nonceTracker tx.sender nonce tx.sender
      rw [hforgot] at hmax
      have hnone : (pool.setOnChain tx.sender nonce).nonceTracker.pendingMax.lookup tx.sender = none :=
        hmax.trans (by simp [Option.filter])
      have hnext : tx.tx.nonce = (pool.setOnChain tx.sender nonce).nonceTracker.nextNonce tx.sender := by
        rw [NonceTracker.nextNonce, hnone, hnonce]
        exact (onChainNonce_setOnChain pool.nonceTracker tx.sender nonce).symm
      have hheld : (pool.setOnChain tx.sender nonce).holds tx.key := by
        have hpending := (hiff nonce).mpr rfl
        rw [← hnonce] at hpending
        simp [holds, TransactionPool.setOnChain, SignedTransaction.key, show (pool.pending.lookup (tx.sender,tx.tx.nonce)).isSome from hpending]
      rw [place_joined tip hnext (fun hfull => hfull.1 hheld)]
      refine kept_joined hchain (growing_joined (onChainNonce_setOnChain _ _ _) ?_ ?_ ?_) hqueuedCount
      · intro k
        rw [hnonce, show (pool.setOnChain tx.sender nonce).isPending tx.sender k = pool.isPending tx.sender k from rfl, hiff]
        grind
      · intro highest hhighest
        rw [hnone] at hhighest
        cases hhighest
      · obtain ⟨hlt,hfree⟩ := hend
        exact ⟨nonce + 1,by rw [hnonce]; exact hlt,hfree⟩
    · have htold := h.setOnChain hforgot
      cases haccepted : (pool.setOnChain tx.sender nonce).reserve tx balance nonce tip with
      | error e => exact htold
      | ok _ => exact htold.place hchain hqueuedCount (hfree haccepted)

end Adding

section Removing
variable {pool : TransactionPool} {txs : List SignedTransaction} {addr : Address} {nonce : UInt64}

theorem confirmed_lane (pool : TransactionPool) (txs : List SignedTransaction) (addr : Address) (k : UInt64) :
    ((txs.foldl confirm pool).isPending addr k ↔
      pool.isPending addr k ∧ (addr,k) ∉ txs.map SignedTransaction.key) ∧
    ((txs.foldl confirm pool).isQueued addr k ↔ pool.isQueued addr k ∧ (addr,k) ∉ txs.map SignedTransaction.key) := by
  simp only [foldl_confirm, isPending, isQueued, AList.lookup_eraseAll]
  by_cases hkey : (addr,k) ∈ txs.map SignedTransaction.key
  · simp [hkey]
  · simp only [if_neg hkey]
    exact ⟨(and_iff_left hkey).symm,(and_iff_left hkey).symm⟩

theorem confirmed_tracker (pool : TransactionPool) (txs : List SignedTransaction) :
    (txs.foldl confirm pool).nonceTracker = confirmTracker pool.nonceTracker txs := by
  rw [foldl_confirm]
  rfl

theorem sameLane_confirmed (haddr : addr ∉ txs.map SignedTransaction.sender) :
    SameLane addr pool (txs.foldl confirm pool) := by
  have hkey : ∀ k, (addr,k) ∉ txs.map SignedTransaction.key := by
    intro k hk
    obtain ⟨tx,htx,heq⟩ := List.mem_map.mp hk
    exact haddr (List.mem_map.mpr ⟨tx,htx,(Prod.mk.inj heq).1⟩)
  refine ⟨⟨?_,?_⟩,fun k => ?_,fun k => ?_⟩
  · rw [confirmed_tracker, lookup_confirmTracker _ (fun _ => 0), if_neg haddr]
  · rw [confirmed_tracker, pendingMax_confirmTracker]
    cases hmax : pool.nonceTracker.pendingMax.lookup addr with
    | none => rfl
    | some highest =>
      have hall : txs.all (fun tx => !(addr = tx.sender && highest ≤ tx.tx.nonce + 1)) = true := by
        rw [List.all_eq_true]
        intro tx htx
        have hne : addr ≠ tx.sender := fun heq => haddr (List.mem_map.mpr ⟨tx,htx,heq.symm⟩)
        simp [hne]
      simp only [Option.filter_some, hall, if_true]
  · rw [Bool.eq_iff_iff, (confirmed_lane pool txs addr k).1]
    exact (and_iff_left (hkey k)).symm
  · rw [Bool.eq_iff_iff, (confirmed_lane pool txs addr k).2]
    exact (and_iff_left (hkey k)).symm

/-- The run of a sender after the first loop of `remove_confirmed`. -/
theorem Kept.confirmed (h : Kept pool addr nonce) (haddr : addr ∈ txs.map SignedTransaction.sender)
    (hkeeps : RemoveKeepsRun pool txs) :
    ∃ m, (txs.foldl confirm pool).Growing addr (confirmNonces pool.nonceTracker.onChainNonce txs addr) m := by
  obtain ⟨m,hg,hend⟩ := h.run
  obtain ⟨tx,htx,hsender,hn⟩ := confirmNonces_mem haddr pool.nonceTracker.onChainNonce
  have hchain : (txs.foldl confirm pool).nonceTracker.onChainNonce addr =
      confirmNonces pool.nonceTracker.onChainNonce txs addr := by
    rw [confirmed_tracker, NonceTracker.onChainNonce, lookup_confirmTracker _ pool.nonceTracker.onChainNonce,
      if_pos haddr, Option.getD_some]
  have hmax := pendingMax_confirmTracker pool.nonceTracker txs addr
  rw [← confirmed_tracker] at hmax
  rcases hkeeps addr haddr with ⟨highest,hhighest,hbelow,hleft⟩ | ⟨hreached,⟨j,hj,hfree⟩,hleft⟩
  · -- the highest pending nonce is kept
    have hall : txs.all (fun tx => !(addr = tx.sender && highest ≤ tx.tx.nonce + 1)) = true := by
      rw [List.all_eq_true]
      intro tx' htx'
      by_cases hsame : addr = tx'.sender
      · have hnot : ¬ highest ≤ tx'.tx.nonce + 1 := fun hle => hbelow ⟨tx',htx',hsame.symm,hle⟩
        simp [hsame, hnot]
      · simp [hsame]
    have hover := hg.highest
    rw [hhighest] at hover hmax
    split at hover
    · rename_i hlt
      have hm : highest = m - 1 := Option.some.inj hover
      have hless : confirmNonces pool.nonceTracker.onChainNonce txs addr < highest := by
        rw [hn]
        exact UInt64.not_le.mp fun hle => hbelow ⟨tx,htx,hsender,hle⟩
      have hlast : confirmNonces pool.nonceTracker.onChainNonce txs addr < m := by grind
      refine ⟨m,hchain,UInt64.le_of_lt hlast,?_,fun k hk hkm => ?_,fun k hk => ?_,m,UInt64.le_refl m,?_⟩
      · rw [hmax, if_pos hlast, ← hm]
        simp only [Option.filter_some, hall, if_true]
      · exact (confirmed_lane pool txs addr k).1.mpr ((hleft k).mpr ⟨hk,by grind⟩)
      · obtain ⟨hge,hle⟩ := (hleft k).mp ((confirmed_lane pool txs addr k).1.mp hk)
        exact ⟨hge,fun i hi hik => by grind⟩
      · exact fun hqueued => hend ((confirmed_lane pool txs addr m).2.mp hqueued).1
    · cases hover
  · -- it is forgotten
    refine ⟨_,hchain,UInt64.le_refl _,?_,fun k hk hlt => absurd hlt (UInt64.not_lt.mpr hk),fun k hk => ?_,j,hj,?_⟩
    · rw [if_neg (UInt64.lt_irrefl _), hmax]
      cases hhighest : pool.nonceTracker.pendingMax.lookup addr with
      | none => rfl
      | some highest =>
        obtain ⟨tx',htx',hsame,hle⟩ := hreached highest hhighest
        have hany : txs.all (fun tx => !(addr = tx.sender && highest ≤ tx.tx.nonce + 1)) = false := by
          rw [List.all_eq_false]
          exact ⟨tx',htx',by simp [hsame, hle]⟩
        simp only [Option.filter_some, hany, if_neg Bool.false_ne_true]
    · obtain ⟨hge,hcover⟩ := hleft k ((confirmed_lane pool txs addr k).1.mp hk)
      exact ⟨hge,fun i hi hik => (confirmed_lane pool txs addr i).2.mpr (hcover i hi hik)⟩
    · exact fun hqueued => hfree ((confirmed_lane pool txs addr j).2.mp hqueued)

theorem holds_confirmed {key : TxKey} (hkey : (txs.foldl confirm pool).holds key) : pool.holds key := by
  rw [holds_eq, pooled_confirmed] at hkey
  rw [holds_eq]
  split at hkey
  · cases hkey
  · exact hkey

theorem nonceCount_removeConfirmed : (pool.removeConfirmed txs).nonceCount addr ≤ pool.nonceCount addr :=
  nonceCount_mono (fun _ hkey => holds_confirmed ((moves_promotions _ _).holds hkey)) addr

theorem Kept.removeConfirmed {chain : Address → UInt64} (h : Kept pool addr (chain addr))
    (hcount : pool.nonceCount addr ≤ maxPromotePerCall) (hkeeps : RemoveKeepsRun pool txs) :
    Kept (pool.removeConfirmed txs) addr (confirmNonces chain txs addr) := by
  by_cases haddr : addr ∈ txs.map SignedTransaction.sender
  · obtain ⟨m,hg⟩ := h.confirmed haddr hkeeps
    have hqueued : ((txs.foldl confirm pool).queuedKeys addr).card ≤ maxPromotePerCall :=
      (card_queuedKeys_le _ addr).trans ((nonceCount_mono (fun _ => holds_confirmed) addr).trans hcount)
    obtain ⟨m',hgrown,hend⟩ := hg.promotions (.inl haddr) hqueued
    have hchain := fun c => lookup_confirmTracker pool.nonceTracker c txs addr
    simp only [if_pos haddr] at hchain
    rw [← confirmed_tracker] at hchain
    have hsame := Option.some.inj ((hchain pool.nonceTracker.onChainNonce).symm.trans (hchain chain))
    rw [hsame] at hgrown
    refine Kept.of_growing ?_ hgrown hend
    rw [TransactionPool.removeConfirmed, onChain_promotions]
    exact hchain chain
  · rw [confirmNonces_other haddr]
    exact h.congr ((sameLane_confirmed haddr).trans (sameLane_promotions haddr _))

end Removing

section Runs
variable (P : Platform) (K : K256) (crateRlp : RlpItem → List UInt8)

/-- The pending nonces of every sender are a gap-free run in every state of a run of the pool. -/
def GapFreeRun (config : MempoolConfig) (chain : Address → UInt64) (calls : List PoolCall) : Prop :=
  (∀ e ∈ Machine.history (chainedStep P K crateRlp) (new config,chain) calls, ∀ addr, e.before.1.GapFree addr) ∧
    ∀ addr, (Machine.final (chainedStep P K crateRlp) (new config,chain) calls).1.GapFree addr

theorem config_place {pool : TransactionPool} {tx : SignedTransaction} {tip : UInt64} :
    (pool.place tx tip).1.config = pool.config := by
  obtain ⟨known,e,hplace⟩ | ⟨-,-,hplace⟩ | ⟨-,hplace⟩ := pool.place_cases tx tip
  · rw [hplace]
  · rw [hplace]
    exact (moves_promoteUpTo _ _ _).config
  · rw [hplace]
    rfl

theorem config_poolStep (pool : TransactionPool) (call : PoolCall) :
    (poolStep P K crateRlp pool call).1.config = pool.config := by
  cases call with
  | addTransaction tx balance nonce =>
    change (pool.addTransaction P K crateRlp tx balance nonce).1.config = pool.config
    unfold addTransaction
    split
    · rfl
    · dsimp only
      split
      · rfl
      · exact config_place
  | removeConfirmed txs =>
    change (pool.removeConfirmed txs).config = pool.config
    rw [removeConfirmed, (moves_promotions _ _).config, foldl_confirm]
  | updateBaseFee header => rfl

structure AllKept (config : MempoolConfig) (s : TransactionPool × (Address → UInt64)) : Prop where
  settings : s.1.config = config
  kept : ∀ addr, Kept s.1 addr (s.2 addr)
  count : ∀ addr, s.1.nonceCount addr ≤ config.maxSlotsPerSender

theorem allKept_step {config : MempoolConfig} (hslots : config.maxSlotsPerSender ≤ maxPromotePerCall)
    (s : TransactionPool × (Address → UInt64)) (call : PoolCall) (h : AllKept config s)
    (hcall : OnChain s.2 call ∧ CallKeepsRun P K crateRlp s.1 call) :
    AllKept config (chainedStep P K crateRlp s call).1 := by
  obtain ⟨pool,chain⟩ := s
  have hconfig := (config_poolStep P K crateRlp pool call).trans h.settings
  have hcount := fun addr => (h.count addr).trans hslots
  cases call with
  | addTransaction tx balance nonce =>
    obtain ⟨rfl,hkeeps⟩ := hcall
    refine ⟨hconfig,fun addr => ?_,fun addr => ?_⟩
    · by_cases haddr : addr = tx.sender
      · subst haddr
        exact (h.kept tx.sender).addTransaction (hcount tx.sender) hkeeps
      · exact (h.kept addr).congr (sameLane_addTransaction haddr)
    · have hbound := h.count addr
      rw [← h.settings] at hbound ⊢
      exact nonceCount_addTransaction hbound
  | removeConfirmed txs =>
    exact ⟨hconfig,fun addr => (h.kept addr).removeConfirmed (hcount addr) hcall.2,
      fun addr => nonceCount_removeConfirmed.trans (h.count addr)⟩
  | updateBaseFee header =>
    exact ⟨hconfig,fun addr => (h.kept addr).congr ⟨⟨rfl,rfl⟩,fun _ => rfl,fun _ => rfl⟩,h.count⟩

/-- The pending nonces stay gap-free in every run whose calls all keep them so. -/
theorem gapFree_of_keeps (P : Platform) (K : K256) (crateRlp : RlpItem → List UInt8) (config : MempoolConfig)
    (hslots : config.maxSlotsPerSender ≤ 256) (chain : Address → UInt64) (calls : List PoolCall)
    (hcalls : ∀ e ∈ Machine.history (chainedStep P K crateRlp) (new config,chain) calls,
      OnChain e.before.2 e.call ∧ CallKeepsRun P K crateRlp e.before.1 e.call) :
    GapFreeRun P K crateRlp config chain calls := by
  have hstart : AllKept config (new config,chain) := ⟨rfl,fun addr => kept_new config addr _,fun _ => Nat.zero_le _⟩
  obtain ⟨hbefore,hfinal⟩ := Machine.state_invariant (chainedStep P K crateRlp) hstart
    (allKept_step P K crateRlp hslots) calls hcalls
  exact ⟨fun e he addr => ((hbefore e he).kept addr).gapFree,fun addr => (hfinal.kept addr).gapFree⟩

theorem chainedStep_add (s : TransactionPool × (Address → UInt64)) (tx : SignedTransaction) (balance : ℕ)
    (nonce : UInt64) :
    (chainedStep P K crateRlp s (.addTransaction tx balance nonce)).1 =
      ((poolStep P K crateRlp s.1 (.addTransaction tx balance nonce)).1,s.2) := rfl

def replaced : List PoolCall :=
  [.addTransaction (demoTransfer 0 1000000000) (10 ^ 18) 0,.addTransaction (demoTransfer 0 2000000000) (10 ^ 18) 0]

def onePending : TransactionPool :=
  (poolStep .integers demoK256 RlpItem.rlp (new .standard) (.addTransaction (demoTransfer 0 1000000000) (10 ^ 18) 0)).1

theorem gapFree_replaced : GapFreeRun .integers demoK256 RlpItem.rlp .standard (fun _ => 0) replaced := by
  refine gapFree_of_keeps .integers demoK256 RlpItem.rlp .standard (by decide) (fun _ => 0) replaced ?_
  have hfirst : AddKeepsRun .integers demoK256 RlpItem.rlp (new .standard) (demoTransfer 0 1000000000) (10 ^ 18) 0 :=
    fun tip _ => ⟨nofun,fun _ _ _ => ⟨1,by decide,nofun⟩⟩
  have hsecond : AddKeepsRun .integers demoK256 RlpItem.rlp onePending (demoTransfer 0 2000000000) (10 ^ 18) 0 := by
    intro tip htip
    have hscreen : onePending.screen .integers demoK256 RlpItem.rlp (demoTransfer 0 2000000000) (10 ^ 18) =
        .ok 2000000000 := by
      decide +kernel
    obtain rfl := Except.ok.inj (hscreen.symm.trans htip)
    exact ⟨fun _ => ⟨by decide +kernel,by decide +kernel⟩,fun _ _ _ => ⟨1,by decide +kernel,by decide +kernel⟩⟩
  have hpool : (poolStep .integers demoK256 RlpItem.rlp (new .standard)
      (.addTransaction (demoTransfer 0 1000000000) (10 ^ 18) 0)).1 = onePending := rfl
  simp only [replaced, Machine.history_cons, Machine.history_nil, chainedStep_add, hpool]
  simp only [List.forall_mem_cons, OnChain, CallKeepsRun]
  exact ⟨⟨trivial,hfirst⟩,⟨trivial,hsecond⟩,List.forall_mem_nil _⟩

def successive : List PoolCall :=
  [.addTransaction (demoTransfer 0 1000000000) (10 ^ 18) 0,.addTransaction (demoTransfer 1 1000000000) (10 ^ 18) 0]

/-- The next transaction is queued and the nonce of the first is expected again. -/
theorem successor_queued : ¬ ∀ calls : List PoolCall,
    (∀ e ∈ Machine.history (chainedStep .integers demoK256 RlpItem.rlp) (new .standard,fun _ => 0) calls,
      OnChain e.before.2 e.call) → GapFreeRun .integers demoK256 RlpItem.rlp .standard (fun _ => 0) calls := by
  intro hall
  have hlegal : ∀ e ∈ Machine.history (chainedStep .integers demoK256 RlpItem.rlp) (new .standard,fun _ => 0) successive,
      OnChain e.before.2 e.call := by
    simp only [successive, Machine.history_cons, Machine.history_nil, chainedStep_add]
    exact List.forall_mem_cons.mpr ⟨rfl,List.forall_mem_cons.mpr ⟨rfl,List.forall_mem_nil _⟩⟩
  obtain ⟨m,-,hpending,hnext,-⟩ := (hall successive hlegal).2 (demoTransfer 0 0).sender
  have hzero : m = 0 := hnext.symm.trans (by decide +kernel)
  have hbelow := ((hpending 0).mp (by decide +kernel)).2
  rw [hzero] at hbelow
  exact UInt64.lt_irrefl 0 hbelow

end Runs

end TransactionPool

end ZbxChain
