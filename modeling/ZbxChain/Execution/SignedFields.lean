import ZbxChain.Execution.Executor
import ZbxChain.Types.SigningHash

/-! # What a signature covers of what is executed

Execution reads every field of a transaction whatever its type; the signed list of the two
older types leaves some of them out.
-/
namespace ZbxChain

variable {P : Platform} {crateRlp : RlpItem → List UInt8} {tx tx' : Transaction}

def Transaction.accessListGas (tx : Transaction) : UInt64 :=
  UInt64.ofNat (tx.accessList.length * 2400 + (tx.accessList.map (fun e => e.2.length * 1900)).sum)

def Transaction.cappedTip (tx : Transaction) : UInt64 := min tx.maxPriorityFeePerGas tx.maxFeePerGas

/-- Equal in all that is executed: the effect, the intrinsic gas and the price at any base fee. -/
structure ExecutedAlike (tx tx' : Transaction) : Prop where
  nonce : tx.nonce = tx'.nonce
  gasLimit : tx.gasLimit = tx'.gasLimit
  recipient : tx.recipient = tx'.recipient
  value : tx.value = tx'.value
  data : tx.data = tx'.data
  chainId : tx.chainId = tx'.chainId
  intrinsicGas : tx.intrinsicGas = tx'.intrinsicGas
  effectiveGasPrice : ∀ stx stx' : SignedTransaction, stx.tx = tx → stx'.tx = tx' →
    ∀ baseFee, stx.effectiveGasPrice baseFee = stx'.effectiveGasPrice baseFee

/-- The fields that the type leaves unsigned cost the same. -/
def UnsignedAlike (tx tx' : Transaction) : Prop :=
  (tx.txType ≠ .dynamicFee → tx.cappedTip = tx'.cappedTip) ∧
    (tx.txType = .legacy → tx.accessListGas = tx'.accessListGas)

section Prices

theorem saturatingSub64_le (x y : UInt64) : saturatingSub64 x y ≤ x := by
  have hx := x.toNat_lt
  rw [UInt64.le_iff_toNat_le, saturatingSub64, UInt64.toNat_ofNat']
  omega

theorem min_saturatingSub64 (tip maxFee baseFee : UInt64) :
    min tip (saturatingSub64 maxFee baseFee) =
      min (min tip maxFee) (saturatingSub64 maxFee baseFee) := by
  have hle := UInt64.le_iff_toNat_le.mp (saturatingSub64_le maxFee baseFee)
  apply UInt64.toNat_inj.mp
  rw [toNat_min64, toNat_min64, toNat_min64]
  omega

theorem effectiveGasPrice_iff (hcap : tx.maxFeePerGas = tx'.maxFeePerGas) :
    (∀ stx stx' : SignedTransaction, stx.tx = tx → stx'.tx = tx' →
      ∀ baseFee, stx.effectiveGasPrice baseFee = stx'.effectiveGasPrice baseFee) ↔
        tx.cappedTip = tx'.cappedTip := by
  constructor
  · intro h
    have hzero : ∀ x : UInt64, saturatingSub64 x 0 = x := by
      intro x
      rw [saturatingSub64]
      exact UInt64.ofNat_toNat
    have hprice := h ⟨tx,⟨0,0,0⟩,0,0⟩ ⟨tx',⟨0,0,0⟩,0,0⟩ rfl rfl 0
    simpa [SignedTransaction.effectiveGasPrice, hzero, Transaction.cappedTip] using hprice
  · rintro h stx stx' rfl rfl baseFee
    have htip : min stx.tx.maxPriorityFeePerGas (saturatingSub64 stx.tx.maxFeePerGas baseFee) =
        min stx'.tx.maxPriorityFeePerGas (saturatingSub64 stx'.tx.maxFeePerGas baseFee) := by
      unfold Transaction.cappedTip at h
      rw [min_saturatingSub64, h, hcap, ← min_saturatingSub64]
    rw [SignedTransaction.effectiveGasPrice, SignedTransaction.effectiveGasPrice, htip]

theorem intrinsicGas_iff (hto : tx.recipient = tx'.recipient) (hdata : tx.data = tx'.data) :
    tx.intrinsicGas = tx'.intrinsicGas ↔ tx.accessListGas = tx'.accessListGas := by
  have hsplit : ∀ t : Transaction, t.intrinsicGas =
      UInt64.ofNat ((if t.recipient.isNone then 53000 else 21000) +
        (t.data.map (fun b => if b = 0 then 4 else 16)).sum) + t.accessListGas := by
    intro t
    rw [Transaction.intrinsicGas, Transaction.accessListGas, ← UInt64.ofNat_add]
  rw [hsplit, hsplit, hto, hdata]
  exact UInt64.add_right_inj _

end Prices

theorem SignedAlike.executedAlike_iff (h : SignedAlike tx tx') :
    ExecutedAlike tx tx' ↔ UnsignedAlike tx tx' := by
  constructor
  · intro he
    exact ⟨fun _ => (effectiveGasPrice_iff h.maxFeePerGas).mp he.effectiveGasPrice,
      fun _ => (intrinsicGas_iff h.recipient h.data).mp he.intrinsicGas⟩
  · rintro ⟨htip,hgas⟩
    refine ⟨h.nonce,h.gasLimit,h.recipient,h.value,h.data,h.chainId,?_,?_⟩
    · rw [intrinsicGas_iff h.recipient h.data]
      by_cases htype : tx.txType = .legacy
      · exact hgas htype
      · rw [Transaction.accessListGas, Transaction.accessListGas, h.accessList htype]
    · rw [effectiveGasPrice_iff h.maxFeePerGas]
      by_cases htype : tx.txType = .dynamicFee
      · rw [Transaction.cappedTip, Transaction.cappedTip, h.maxPriorityFeePerGas htype, h.maxFeePerGas]
      · exact htip htype

theorem signedAlike_of_hash (hcrate : WritesRlp crateRlp) (hfits : tx.Fits) (hfits' : tx'.Fits)
    (hkeccak : Set.InjOn P.keccak256 {tx.signingBytes crateRlp,tx'.signingBytes crateRlp})
    (h : tx.signingHash crateRlp P = tx'.signingHash crateRlp P) : SignedAlike tx tx' :=
  (signingBytes_eq_iff hcrate hfits hfits').mp
    (hkeccak (Set.mem_insert _ _) (Set.mem_insert_of_mem _ rfl) h)

/-- With equal signing hashes the two transactions are executed alike exactly when the fields
that their type leaves unsigned cost the same. -/
theorem signature_covers_iff (hcrate : WritesRlp crateRlp) (hfits : tx.Fits) (hfits' : tx'.Fits)
    (hkeccak : Set.InjOn P.keccak256 {tx.signingBytes crateRlp,tx'.signingBytes crateRlp})
    (h : tx.signingHash crateRlp P = tx'.signingHash crateRlp P) :
    (ExecutedAlike tx tx' ↔ UnsignedAlike tx tx') ∧
      tx.nonce = tx'.nonce ∧ tx.gasLimit = tx'.gasLimit ∧ tx.recipient = tx'.recipient ∧
      tx.value = tx'.value ∧ tx.data = tx'.data ∧ tx.chainId = tx'.chainId := by
  have halike := signedAlike_of_hash hcrate hfits hfits' hkeccak h
  exact ⟨halike.executedAlike_iff,halike.nonce,halike.gasLimit,halike.recipient,halike.value,
    halike.data,halike.chainId⟩

def legacyTransfer (tip : UInt64) (accessList : List (Address × List H256)) : Transaction where
  txType := .legacy
  nonce := 0
  maxPriorityFeePerGas := tip
  maxFeePerGas := 20
  gasLimit := 30000
  recipient := some 7
  value := 5
  data := []
  accessList := accessList
  chainId := 8989

theorem writesRlp_rlp : WritesRlp RlpItem.rlp := fun _ _ => rfl

theorem fits_legacyTransfer (tip : UInt64) : (legacyTransfer tip []).Fits := by
  have hfits : (legacyTransfer 25 []).Fits := by
    unfold Transaction.Fits
    decide +kernel
  exact hfits

/-- Tips above the fee cap are one. -/
theorem signature_covers_iff_capped : ExecutedAlike (legacyTransfer 25 []) (legacyTransfer 30 []) :=
  (signature_covers_iff (P := .integers) writesRlp_rlp (fits_legacyTransfer 25) (fits_legacyTransfer 30)
    (fun _ ha _ hb _ => by
      rcases ha with rfl | rfl <;> rcases hb with rfl | rfl <;> rfl) rfl).1.mpr
    ⟨fun _ => rfl,fun _ => rfl⟩

/-- The tip and the access list of a legacy transaction can be changed under its signature. -/
theorem signature_covers_fails :
    (legacyTransfer 3 []).signingHash RlpItem.rlp .integers =
        (legacyTransfer 9 [(1,[2])]).signingHash RlpItem.rlp .integers ∧
      (legacyTransfer 3 []).signingBytes RlpItem.rlp =
        (legacyTransfer 9 [(1,[2])]).signingBytes RlpItem.rlp ∧
      (legacyTransfer 3 []).intrinsicGas ≠ (legacyTransfer 9 [(1,[2])]).intrinsicGas ∧
      (⟨legacyTransfer 3 [],⟨0,0,0⟩,0,0⟩ : SignedTransaction).effectiveGasPrice 10 ≠
        (⟨legacyTransfer 9 [(1,[2])],⟨0,0,0⟩,0,0⟩ : SignedTransaction).effectiveGasPrice 10 :=
  ⟨rfl,rfl,by decide,by decide⟩

end ZbxChain
