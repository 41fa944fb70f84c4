import ZbxChain.Consensus.Vote
import ZbxChain.Execution.Executor
import ZbxChain.Types.SigningHash

/-! # `zbx_mempool`: the next nonces of the senders, and the transactions of the pool

A transaction at the nonce that its sender is expected to use next is pending, one at a later
nonce is queued; `known` maps the hashes of both to their senders and nonces. The size limit of
a transaction is a setting that no function reads.
-/
namespace ZbxChain

structure NonceTracker where
  onChain : Table Address UInt64
  /-- The highest nonce in the pending pool. -/
  pendingMax : Table Address UInt64

namespace NonceTracker

def new : NonceTracker := ⟨∅,∅⟩

/-- `set_on_chain`: a pending nonce that is not above the confirmed one is forgotten. -/
def setOnChain (t : NonceTracker) (addr : Address) (nonce : UInt64) : NonceTracker :=
  let t := { t with onChain := t.onChain.insert addr nonce }
  match t.pendingMax.lookup addr with
  | some highest =>
    if highest ≤ nonce then { t with pendingMax := t.pendingMax.erase addr } else t
  | none => t

def nextNonce (t : NonceTracker) (addr : Address) : UInt64 :=
  match t.pendingMax.lookup addr with
  | some highest => highest + 1
  | none => (t.onChain.lookup addr).getD 0

def onChainNonce (t : NonceTracker) (addr : Address) : UInt64 := (t.onChain.lookup addr).getD 0

def recordPending (t : NonceTracker) (addr : Address) (nonce : UInt64) : NonceTracker :=
  let entry := (t.pendingMax.lookup addr).getD 0
  { t with pendingMax := t.pendingMax.insert addr (if entry < nonce then nonce else entry) }

structure SameSender (addr : Address) (t t' : NonceTracker) : Prop where
  onChain : t.onChain.lookup addr = t'.onChain.lookup addr
  pendingMax : t.pendingMax.lookup addr = t'.pendingMax.lookup addr

variable {t t' : NonceTracker} {addr : Address}

namespace SameSender

theorem nextNonce (h : SameSender addr t t') : t.nextNonce addr = t'.nextNonce addr := by
  simp only [NonceTracker.nextNonce, h.onChain, h.pendingMax]

theorem recordPending (h : SameSender addr t t') (a : Address) (nonce : UInt64) :
    SameSender addr (t.recordPending a nonce) (t'.recordPending a nonce) where
  onChain := h.onChain
  pendingMax := by
    by_cases ha : addr = a
    · subst ha
      simp only [NonceTracker.recordPending, h.pendingMax, AList.lookup_insert]
    · simp only [NonceTracker.recordPending, AList.lookup_insert_ne ha, h.pendingMax]

end SameSender

theorem sameSender_recordPending {a : Address} (ha : addr ≠ a) (nonce : UInt64) :
    SameSender addr t (t.recordPending a nonce) where
  onChain := rfl
  pendingMax := by simp [recordPending, AList.lookup_insert_ne ha]

end NonceTracker

abbrev TxKey := Address × UInt64

inductive MempoolError where
  | alreadyKnown (hash : String)
  | nonceTooLow (addr : Address) (expected got : UInt64)
  | insufficientBalance (balance cost : ℕ)
  | gasLimitTooHigh (gasLimit blockLimit : UInt64)
  | feeTooLow (tip least : UInt64)
  | pendingFull (slots : ℕ)
  | queuedFull (slots : ℕ)
  | invalidSignature (reason : String)
  | tooManySlotsPerSender (addr : Address) (slots most : ℕ)
  | cumulativeBalanceExceeded (addr : Address) (reserved balance : ℕ)
  | replacementUnderpriced (addr : Address) (nonce newTip required : UInt64)
  | intrinsicGasTooLow (addr : Address) (gasLimit intrinsic : UInt64)
  | nonceGapTooLarge (addr : Address) (nonce onChain maxGap : UInt64)
  deriving DecidableEq

structure MempoolConfig where
  maxPending : ℕ
  maxQueued : ℕ
  minGasTip : UInt64
  maxSlotsPerSender : ℕ
  maxNonceGap : UInt64

/-- `MempoolConfig::default`. -/
def MempoolConfig.standard : MempoolConfig where
  maxPending := 5000
  maxQueued := 2000
  minGasTip := 1000000
  maxSlotsPerSender := 64
  maxNonceGap := 256

structure PendingSlot where
  tx : SignedTransaction
  /-- The effective tip per gas. -/
  priority : UInt64

structure TransactionPool where
  config : MempoolConfig
  pending : Table TxKey PendingSlot
  queued : Table TxKey SignedTransaction
  known : Table H256 TxKey
  nonceTracker : NonceTracker
  baseFee : UInt64

/-- `u64::saturating_mul`. -/
def saturatingMul64 (x y : UInt64) : UInt64 := UInt64.ofNat (min (x.toNat * y.toNat) (2 ^ 64 - 1))

/-- `u128::saturating_mul`. -/
def saturatingMul128 (x y : ℕ) : ℕ := min (x * y) maxU128

namespace SignedTransaction
variable (tx : SignedTransaction)

def key : TxKey := (tx.sender,tx.tx.nonce)

/-- The value as 128 bits: a larger one counts as the largest. -/
def cappedValue : ℕ := if 2 ^ 128 ≤ tx.tx.value.toNat then maxU128 else tx.tx.value.toNat

def slotCost : ℕ :=
  saturatingAdd128 (saturatingMul128 tx.tx.maxFeePerGas.toNat tx.tx.gasLimit.toNat) tx.cappedValue

/-- `cost_of`, and the cost check of `add_transaction`; the product of two 64-bit words fits. -/
def costOf : ℕ :=
  saturatingAdd128 (tx.tx.maxFeePerGas.toNat * tx.tx.gasLimit.toNat) tx.cappedValue

def tipAt (baseFee : UInt64) : UInt64 := saturatingSub64 (tx.effectiveGasPrice baseFee) baseFee

end SignedTransaction

namespace TransactionPool

def new (config : MempoolConfig) : TransactionPool :=
  ⟨config,∅,∅,∅,.new,1000000000⟩

variable (P : Platform) (K : K256) (crateRlp : RlpItem → List UInt8)
variable (pool : TransactionPool)

def senderSlotCount (addr : Address) : ℕ :=
  (pool.pending.keys.filter (fun key => key.1 = addr)).length +
    (pool.queued.keys.filter (fun key => key.1 = addr)).length

/-- `sender_cumulative_cost`. The additions saturate, so the order of the tables is nothing to
the sum. -/
def senderCumulativeCost (addr : Address) : ℕ :=
  let total := ((pool.pending.entries.filter (fun e => e.1.1 = addr)).map (fun e => e.2.tx.costOf)).foldl
    saturatingAdd128 0
  ((pool.queued.entries.filter (fun e => e.1.1 = addr)).map (fun e => e.2.costOf)).foldl
    saturatingAdd128 total

def updateBaseFee (header : BlockHeader) : TransactionPool := { pool with baseFee := header.baseFeePerGas }

section Admission
variable (tx : SignedTransaction) (senderBalance : ℕ) (senderOnChainNonce tip : UInt64)

/-- The hash and the signature of a transaction are its own. -/
def verifySignature : Except MempoolError Unit :=
  if tx.verifyHash P crateRlp = false then
    .error (.invalidSignature "cached tx hash does not match recomputed hash")
  else match Signature.fromBytes tx.sig.toBytes with
    | .error e => .error (.invalidSignature s!"sig parse: {e}")
    | .ok cryptoSig =>
      match recoverSigner K P (tx.tx.signingHash crateRlp P) cryptoSig with
      | .error e => .error (.invalidSignature s!"recover failed: {e}")
      | .ok recovered =>
        if recovered ≠ tx.sender then
          .error (.invalidSignature
            s!"signer mismatch: recovered {recovered.debug P} != tx.from {tx.sender.debug P}")
        else .ok ()

/-- The checks of `add_transaction` before it tells the tracker the nonce on chain; they
end with the tip. -/
def screen : Except MempoolError UInt64 :=
  if (pool.known.lookup tx.hash).isSome then .error (.alreadyKnown (hexEncode tx.hash.asBytes))
  else match verifySignature P K crateRlp tx with
    | .error e => .error e
    | .ok () =>
      let tip := tx.tipAt pool.baseFee
      let intrinsic := tx.tx.intrinsicGas
      if BLOCK_GAS_LIMIT < tx.tx.gasLimit then .error (.gasLimitTooHigh tx.tx.gasLimit BLOCK_GAS_LIMIT)
      else if tip < pool.config.minGasTip then .error (.feeTooLow tip pool.config.minGasTip)
      else if tx.tx.gasLimit < intrinsic then
        .error (.intrinsicGasTooLow tx.sender tx.tx.gasLimit intrinsic)
      else if senderBalance < tx.costOf then .error (.insufficientBalance senderBalance tx.costOf)
      else .ok tip

def holds (key : TxKey) : Bool := (pool.pending.lookup key).isSome || (pool.queued.lookup key).isSome

def otherReserved : ℕ :=
  match pool.pending.lookup tx.key, pool.queued.lookup tx.key with
  | some slot, _ => pool.senderCumulativeCost tx.sender - slot.tx.slotCost
  | none, some oldTx => pool.senderCumulativeCost tx.sender - oldTx.slotCost
  | none, none => pool.senderCumulativeCost tx.sender

/-- The tip that a replacement has to bid: 12.5 % more. -/
def requiredTip : Option UInt64 :=
  match pool.pending.lookup tx.key, pool.queued.lookup tx.key with
  | some slot, _ => some (saturatingMul64 slot.priority 1125 / 1000 + 1)
  | none, some oldTx => some (saturatingMul64 (oldTx.tipAt pool.baseFee) 1125 / 1000 + 1)
  | none, none => none

/-- The checks of `add_transaction` after that: the nonce, the slots and the reserves of the
sender, and the bid of a replacement. -/
def reserve : Except MempoolError Unit :=
  let used := pool.senderSlotCount tx.sender
  let projected := saturatingAdd128 (pool.otherReserved tx) tx.costOf
  if tx.tx.nonce < senderOnChainNonce then
    .error (.nonceTooLow tx.sender senderOnChainNonce tx.tx.nonce)
  else if pool.config.maxNonceGap < saturatingSub64 tx.tx.nonce senderOnChainNonce then
    .error (.nonceGapTooLarge tx.sender tx.tx.nonce senderOnChainNonce pool.config.maxNonceGap)
  else if ¬ pool.holds tx.key ∧ pool.config.maxSlotsPerSender ≤ used then
    .error (.tooManySlotsPerSender tx.sender (used + 1) pool.config.maxSlotsPerSender)
  else if senderBalance < projected then
    .error (.cumulativeBalanceExceeded tx.sender projected senderBalance)
  else match pool.requiredTip tx with
    | some required =>
      if tip < required then .error (.replacementUnderpriced tx.sender tx.tx.nonce tip required)
      else .ok ()
    | none => .ok ()

end Admission

section Insertion

/-- One round of the loop of `promote_queued`. -/
def promote (addr : Address) (expected : UInt64) (tx : SignedTransaction) : TransactionPool :=
  { pool with
    queued := pool.queued.erase (addr,expected)
    nonceTracker := pool.nonceTracker.recordPending addr expected
    pending := pool.pending.insert (addr,expected) ⟨tx,tx.tipAt pool.baseFee⟩ }

/-- `promote_queued`, up to a number of promotions. -/
def promoteUpTo (addr : Address) : ℕ → TransactionPool → TransactionPool
  | 0, pool => pool
  | limit + 1, pool =>
    let expected := pool.nonceTracker.nextNonce addr
    match pool.queued.lookup (addr,expected) with
    | none => pool
    | some tx => promoteUpTo addr limit (pool.promote addr expected tx)

def maxPromotePerCall : ℕ := 256

def promoteQueued (addr : Address) : TransactionPool := promoteUpTo addr maxPromotePerCall pool

/-- The hash of a pooled transaction that is about to be replaced is forgotten. -/
def evictHashes (key : TxKey) : Table H256 TxKey :=
  let known := match pool.pending.lookup key with
    | some slot => pool.known.erase slot.tx.hash
    | none => pool.known
  match pool.queued.lookup key with
  | some oldTx => known.erase oldTx.hash
  | none => known

/-- The end of `add_transaction`, for a transaction that has passed the checks. -/
def place (tx : SignedTransaction) (tip : UInt64) : TransactionPool × Except MempoolError H256 :=
  let isReplacement := pool.holds tx.key
  let entered := { pool with known := (pool.evictHashes tx.key).insert tx.hash tx.key }
  if tx.tx.nonce = pool.nonceTracker.nextNonce tx.sender then
    if ¬ isReplacement ∧ pool.config.maxPending ≤ pool.pending.len then
      ({ entered with known := entered.known.erase tx.hash }, .error (.pendingFull pool.pending.len))
    else
      (promoteQueued
        { entered with
          nonceTracker := pool.nonceTracker.recordPending tx.sender tx.tx.nonce
          pending := pool.pending.insert tx.key ⟨tx,tip⟩ } tx.sender,
        .ok tx.hash)
  else if ¬ isReplacement ∧ pool.config.maxQueued ≤ pool.queued.len then
    ({ entered with known := entered.known.erase tx.hash }, .error (.queuedFull pool.queued.len))
  else ({ entered with queued := pool.queued.insert tx.key tx }, .ok tx.hash)

def setOnChain (addr : Address) (nonce : UInt64) : TransactionPool :=
  { pool with nonceTracker := pool.nonceTracker.setOnChain addr nonce }

def addTransaction (tx : SignedTransaction) (senderBalance : ℕ) (senderOnChainNonce : UInt64) :
    TransactionPool × Except MempoolError H256 :=
  match pool.screen P K crateRlp tx senderBalance with
  | .error e => (pool,.error e)
  | .ok tip =>
    let told := pool.setOnChain tx.sender senderOnChainNonce
    match told.reserve tx senderBalance senderOnChainNonce tip with
    | .error e => (told,.error e)
    | .ok () => told.place tx tip

end Insertion

section Confirmation

/-- One round of the first loop of `remove_confirmed`. -/
def confirm (tx : SignedTransaction) : TransactionPool :=
  { pool with
    pending := pool.pending.erase tx.key
    queued := pool.queued.erase tx.key
    known := pool.known.erase tx.hash
    nonceTracker := pool.nonceTracker.setOnChain tx.sender (tx.tx.nonce + 1) }

def removeConfirmed (txs : List SignedTransaction) : TransactionPool :=
  (txs.map SignedTransaction.sender).foldl promoteQueued (txs.foldl confirm pool)

end Confirmation

/-- `select_transactions`: the pending slots by falling priority, each taken if its gas still
fits. The slots come in the order of the hash table. -/
def selectTransactions (gasLimit : UInt64) : List SignedTransaction :=
  let slots := (P.iterOrder pool.pending.values).mergeSort (fun a b => b.priority ≤ a.priority)
  (slots.foldl (fun (acc : List SignedTransaction × UInt64) slot =>
    if gasLimit < acc.2 + slot.tx.tx.gasLimit then acc
    else (acc.1 ++ [slot.tx],acc.2 + slot.tx.tx.gasLimit)) ([],0)).1

end TransactionPool

end ZbxChain
