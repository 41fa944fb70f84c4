import Mathlib.Algebra.BigOperators.Group.Finset.Basic
import ZbxChain.Mempool.Pool

/-! # What a promotion moves

A promotion takes queued transactions of a sender and makes them pending at the same keys.
How many it takes can be read off the tracker and the queue before it.
-/
namespace ZbxChain

namespace TransactionPool

/-- Some queued transactions have become pending, each at its own key. -/
structure Moves (pool pool' : TransactionPool) : Prop where
  config : pool'.config = pool.config
  known : pool'.known = pool.known
  entry : ∀ key,
    pool'.queued.lookup key = pool.queued.lookup key ∧
      pool'.pending.lookup key = pool.pending.lookup key ∨
    ∃ slot, pool.queued.lookup key = some slot.tx ∧ pool'.queued.lookup key = none ∧
      pool'.pending.lookup key = some slot

def Apart (pool : TransactionPool) : Prop :=
  ∀ key, pool.pending.lookup key = none ∨ pool.queued.lookup key = none

def pooled (pool : TransactionPool) (key : TxKey) : Option SignedTransaction :=
  match pool.pending.lookup key with
  | some slot => some slot.tx
  | none => pool.queued.lookup key

variable {pool pool' : TransactionPool}

section Moving

theorem Moves.refl (pool : TransactionPool) : Moves pool pool := ⟨rfl,rfl,fun _ => Or.inl ⟨rfl,rfl⟩⟩

theorem Moves.trans {pool'' : TransactionPool} (h : Moves pool pool') (h' : Moves pool' pool'') :
    Moves pool pool'' where
  config := h'.config.trans h.config
  known := h'.known.trans h.known
  entry := by
    intro key
    rcases h'.entry key with ⟨hqueued,hpending⟩ | ⟨slot,hqueued,hgone,hpending⟩
    · rw [hqueued, hpending]
      exact h.entry key
    · rcases h.entry key with ⟨hqueued',-⟩ | ⟨slot',-,hgone',-⟩
      · exact Or.inr ⟨slot,hqueued'.symm.trans hqueued,hgone,hpending⟩
      · rw [hqueued] at hgone'
        cases hgone'

theorem moves_promote {addr : Address} {n : UInt64} {tx : SignedTransaction}
    (h : pool.queued.lookup (addr,n) = some tx) : Moves pool (pool.promote addr n tx) where
  config := rfl
  known := rfl
  entry := by
    intro key
    by_cases hkey : key = (addr,n)
    · subst hkey
      exact Or.inr ⟨_,h,AList.lookup_erase _ _,AList.lookup_insert _⟩
    · exact Or.inl ⟨AList.lookup_erase_ne hkey,AList.lookup_insert_ne hkey⟩

/-- However far it gets, promotion only moves transactions from queued to pending. -/
theorem moves_promoteUpTo (addr : Address) (limit : ℕ) (pool : TransactionPool) :
    Moves pool (promoteUpTo addr limit pool) := by
  induction limit generalizing pool with
  | zero => exact Moves.refl pool
  | succ limit ih =>
    rw [promoteUpTo]
    split
    · exact Moves.refl pool
    · rename_i tx htx
      exact (moves_promote htx).trans (ih _)

theorem moves_promotions (senders : List Address) (pool : TransactionPool) :
    Moves pool (senders.foldl promoteQueued pool) := by
  induction senders generalizing pool with
  | nil => exact Moves.refl pool
  | cons addr senders ih => exact (moves_promoteUpTo addr _ pool).trans (ih _)

namespace Moves

theorem apart (h : Moves pool pool') (hapart : pool.Apart) : pool'.Apart := by
  intro key
  rcases h.entry key with ⟨hqueued,hpending⟩ | ⟨slot,-,hgone,-⟩
  · rw [hqueued, hpending]
    exact hapart key
  · exact Or.inr hgone

theorem pooled (h : Moves pool pool') (hapart : pool.Apart) (key : TxKey) :
    pool'.pooled key = pool.pooled key := by
  unfold TransactionPool.pooled
  rcases h.entry key with ⟨hqueued,hpending⟩ | ⟨slot,hqueued,-,hpending⟩
  · rw [hqueued, hpending]
  · rcases hapart key with hfree | hfree
    · rw [hpending, hfree, hqueued]
    · rw [hqueued] at hfree
      cases hfree

theorem twice (h : Moves pool pool') {key : TxKey} {slot : PendingSlot} {tx : SignedTransaction}
    (hslot : pool.pending.lookup key = some slot) (htx : pool.queued.lookup key = some tx) :
    ¬ pool'.Apart ∨ pool'.pooled key = some tx := by
  rcases h.entry key with ⟨hqueued,hpending⟩ | ⟨slot',hqueued,hgone,hpending⟩
  · left
    intro hapart
    rcases hapart key with hfree | hfree
    · rw [hpending, hslot] at hfree
      cases hfree
    · rw [hqueued, htx] at hfree
      cases hfree
  · right
    rw [TransactionPool.pooled, hpending]
    exact hqueued.symm.trans htx

theorem len_queued (h : Moves pool pool') : pool'.queued.len ≤ pool.queued.len := by
  rw [← AList.card_keySet, ← AList.card_keySet]
  refine Finset.card_le_card (fun key hkey => ?_)
  obtain ⟨tx,htx⟩ := AList.mem_keySet.mp hkey
  rcases h.entry key with ⟨hqueued,-⟩ | ⟨slot,-,hgone,-⟩
  · exact AList.mem_keySet.mpr ⟨tx,hqueued ▸ htx⟩
  · rw [hgone] at htx
    cases htx

end Moves

end Moving

section Counting

/-- How many queued transactions of a sender follow one another from the nonce that is
expected next, up to a limit. -/
def following (t : NonceTracker) (queued : Table TxKey SignedTransaction) (addr : Address) : ℕ → ℕ
  | 0 => 0
  | limit + 1 =>
    let expected := t.nextNonce addr
    if (queued.lookup (addr,expected)).isSome then
      following (t.recordPending addr expected) (queued.erase (addr,expected)) addr limit + 1
    else 0

variable {t t' : NonceTracker} {queued queued' : Table TxKey SignedTransaction} {addr : Address}

theorem lookup_erase_congr (hqueued : ∀ n, queued.lookup (addr,n) = queued'.lookup (addr,n))
    (m n : UInt64) :
    (queued.erase (addr,m)).lookup (addr,n) = (queued'.erase (addr,m)).lookup (addr,n) := by
  by_cases hn : n = m
  · subst hn
    rw [AList.lookup_erase, AList.lookup_erase]
  · have hne : (addr,n) ≠ (addr,m) := fun heq => hn (Prod.mk.inj heq).2
    rw [AList.lookup_erase_ne hne, AList.lookup_erase_ne hne, hqueued]

theorem following_congr (ht : t.SameSender addr t')
    (hqueued : ∀ n, queued.lookup (addr,n) = queued'.lookup (addr,n)) (limit : ℕ) :
    following t queued addr limit = following t' queued' addr limit := by
  induction limit generalizing t t' queued queued' with
  | zero => rfl
  | succ limit ih =>
    simp only [following]
    rw [ht.nextNonce, hqueued]
    have hrest := ih (ht.recordPending addr (t'.nextNonce addr)) (fun n =>
      lookup_erase_congr hqueued (t'.nextNonce addr) n)
    rw [hrest]

theorem promoteUpTo_other {b : Address} (hb : b ≠ addr) (limit : ℕ) (pool : TransactionPool) :
    pool.nonceTracker.SameSender b (promoteUpTo addr limit pool).nonceTracker ∧
      ∀ n, pool.queued.lookup (b,n) = (promoteUpTo addr limit pool).queued.lookup (b,n) := by
  induction limit generalizing pool with
  | zero => exact ⟨⟨rfl,rfl⟩,fun _ => rfl⟩
  | succ limit ih =>
    rw [promoteUpTo]
    split
    · exact ⟨⟨rfl,rfl⟩,fun _ => rfl⟩
    · rename_i tx htx
      obtain ⟨htracker,hqueued⟩ := ih (pool.promote addr (pool.nonceTracker.nextNonce addr) tx)
      have hother := NonceTracker.sameSender_recordPending (t := pool.nonceTracker) hb
        (pool.nonceTracker.nextNonce addr)
      refine ⟨⟨hother.onChain.trans htracker.onChain,hother.pendingMax.trans htracker.pendingMax⟩,?_⟩
      intro n
      have hne : (b,n) ≠ (addr,pool.nonceTracker.nextNonce addr) := fun heq => hb (Prod.mk.inj heq).1
      rw [← hqueued]
      exact (AList.lookup_erase_ne hne).symm

theorem following_add (m n : ℕ) (pool : TransactionPool) :
    following pool.nonceTracker pool.queued addr (m + n) =
      following pool.nonceTracker pool.queued addr m +
        following (promoteUpTo addr m pool).nonceTracker (promoteUpTo addr m pool).queued addr n := by
  induction m generalizing pool with
  | zero => simp [following, promoteUpTo]
  | succ m ih =>
    rw [Nat.add_right_comm, following, following, promoteUpTo]
    cases htx : pool.queued.lookup (addr,pool.nonceTracker.nextNonce addr) with
    | none =>
      cases n with
      | zero => simp [following]
      | succ n => simp [following, htx]
    | some tx =>
      have hrest := ih (pool.promote addr (pool.nonceTracker.nextNonce addr) tx)
      simp only [Option.isSome_some, if_true, promote] at hrest ⊢
      omega

theorem len_promoteUpTo (hapart : pool.Apart) (limit : ℕ) :
    (promoteUpTo addr limit pool).pending.len =
      pool.pending.len + following pool.nonceTracker pool.queued addr limit := by
  induction limit generalizing pool with
  | zero => rfl
  | succ limit ih =>
    rw [promoteUpTo, following]
    cases htx : pool.queued.lookup (addr,pool.nonceTracker.nextNonce addr) with
    | none => rfl
    | some tx =>
      have hfree : pool.pending.lookup (addr,pool.nonceTracker.nextNonce addr) = none := by
        rcases hapart (addr,pool.nonceTracker.nextNonce addr) with hfree | hfree
        · exact hfree
        · rw [htx] at hfree
          cases hfree
      have hrest := ih ((moves_promote htx).apart hapart)
      have hone : (pool.promote addr (pool.nonceTracker.nextNonce addr) tx).pending.len =
          pool.pending.len + 1 := AList.len_insert hfree
      simp only [Option.isSome_some, if_true, hrest, hone]
      simp only [promote]
      omega

theorem sum_erase_count (addr : Address) {g : Address → ℕ → ℕ} (hg : g addr 0 = 0) (senders : List Address) :
    ∑ a ∈ senders.toFinset, g a (maxPromotePerCall * senders.count a) =
      g addr (maxPromotePerCall * senders.count addr) +
        ∑ a ∈ senders.toFinset.erase addr, g a (maxPromotePerCall * senders.count a) := by
  by_cases haddr : addr ∈ senders
  · exact (Finset.add_sum_erase _ _ (List.mem_toFinset.mpr haddr)).symm
  · have hgone : senders.toFinset.erase addr = senders.toFinset :=
      Finset.erase_eq_of_notMem (mt List.mem_toFinset.mp haddr)
    rw [hgone, List.count_eq_zero_of_not_mem haddr, Nat.mul_zero, hg, Nat.zero_add]

/-- Promotions for a list of senders: each takes what follows, as often as it is named. -/
theorem len_promotions (senders : List Address) (hapart : pool.Apart) :
    (senders.foldl promoteQueued pool).pending.len = pool.pending.len +
      ∑ a ∈ senders.toFinset, following pool.nonceTracker pool.queued a (maxPromotePerCall * senders.count a) := by
  induction senders generalizing pool with
  | nil => simp
  | cons addr senders ih =>
    have hlater : ∀ b ∈ senders.toFinset, b ≠ addr →
        following (pool.promoteQueued addr).nonceTracker (pool.promoteQueued addr).queued b
          (maxPromotePerCall * senders.count b) =
        following pool.nonceTracker pool.queued b (maxPromotePerCall * (addr :: senders).count b) := by
      intro b _ hb
      obtain ⟨htracker,hqueued⟩ := promoteUpTo_other hb maxPromotePerCall pool
      rw [List.count_cons_of_ne (Ne.symm hb)]
      exact (following_congr htracker hqueued _).symm
    have hsame : following pool.nonceTracker pool.queued addr maxPromotePerCall +
        following (pool.promoteQueued addr).nonceTracker (pool.promoteQueued addr).queued addr
          (maxPromotePerCall * senders.count addr) =
        following pool.nonceTracker pool.queued addr
          (maxPromotePerCall * (addr :: senders).count addr) := by
      rw [List.count_cons_self, Nat.mul_add, Nat.mul_one, Nat.add_comm (_ * _), following_add]
      rfl
    have hkeeps : (pool.promoteQueued addr).Apart :=
      (moves_promoteUpTo addr maxPromotePerCall pool).apart hapart
    have hrest := ih hkeeps
    have hfirst : (pool.promoteQueued addr).pending.len =
        pool.pending.len + following pool.nonceTracker pool.queued addr maxPromotePerCall :=
      len_promoteUpTo hapart maxPromotePerCall
    have hsplit := Finset.add_sum_erase (addr :: senders).toFinset
      (fun a => following pool.nonceTracker pool.queued a
        (maxPromotePerCall * (addr :: senders).count a)) (List.mem_toFinset.mpr (List.mem_cons_self ..))
    have hother := sum_erase_count addr (g := following (pool.promoteQueued addr).nonceTracker
      (pool.promoteQueued addr).queued) rfl senders
    have hsum := Finset.sum_congr rfl fun b hb =>
      hlater b (Finset.mem_of_mem_erase hb) (Finset.ne_of_mem_erase hb)
    have herase : (addr :: senders).toFinset.erase addr = senders.toFinset.erase addr := by
      rw [List.toFinset_cons, Finset.erase_insert_eq_erase]
    rw [herase] at hsplit
    rw [List.foldl_cons, hrest, ← hsplit, ← hsame, hother, hsum]
    omega

end Counting

end TransactionPool

end ZbxChain
