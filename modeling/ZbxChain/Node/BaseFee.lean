import ZbxChain.Node.BlockProducer

/-! # The base fee of a candidate against the one its verifier computes

Both sides move the parent's fee by `base * |used - target| / target`. The producer divides
that by 8, moves up by at least 1 and stops at 7; the verifier cuts it off at `base / 8`.
-/
namespace ZbxChain

/-- The fee that `build_candidate` writes: the parent's where the sum does not fit. -/
def producedBaseFee (parent : BlockHeader) : UInt64 :=
  (nextBaseFee parent.baseFeePerGas parent.gasUsed parent.gasLimit).getD
    (max parent.baseFeePerGas 1)

/-- When the two formulas give the same fee, over the numbers of the parent. -/
def BaseFeesAgree (base used limit : ℕ) : Prop :=
  let target := limit / 2
  if used = target then 7 ≤ base
  else if target < used then
    let excess := base * (used - target)
    8 ≤ base ∧
      (excess < 2 * target ∧ base + 1 < 2 ^ 64 ∨
        excess < 8 * (base / 8 + 1) * target ∧ (base < 16 ∨ 8 * (base / 8) * target ≤ excess) ∧
          base + base / 8 < 2 ^ 64)
  else
    let shortfall := base * (target - used)
    7 ≤ base ∧ (shortfall < target ∨ 8 * (base / 8) * target ≤ shortfall)

instance (base used limit : ℕ) : Decidable (BaseFeesAgree base used limit) := by
  unfold BaseFeesAgree
  infer_instance

section Arithmetic

theorem cut_eq_iff {base q : ℕ} (hq : q ≤ base) :
    max (base - q / 8) 7 = base - min q (base / 8) ↔ 7 ≤ base ∧ (q = 0 ∨ 8 * (base / 8) ≤ q) := by
  omega

theorem rise_eq_iff {base q : ℕ} :
    max (base + max (q / 8) 1) 7 = base + min (max q 1) (base / 8) ↔
      8 ≤ base ∧ (q ≤ 1 ∨ q < 8 * (base / 8 + 1) ∧ (base < 16 ∨ 8 * (base / 8) ≤ q)) := by
  omega

theorem rise_cast_eq_iff {base q : ℕ} (hbase : base < 2 ^ 64) (hfits : base + max (q / 8) 1 < 2 ^ 64) :
    max (base + max (q / 8) 1) 7 = (base + min (max q 1) (base / 8)) % 2 ^ 64 ↔
      8 ≤ base ∧ (q < 2 ∧ base + 1 < 2 ^ 64 ∨
        q < 8 * (base / 8 + 1) ∧ (base < 16 ∨ 8 * (base / 8) ≤ q) ∧ base + base / 8 < 2 ^ 64) := by
  by_cases hcast : base + min (max q 1) (base / 8) < 2 ^ 64
  · rw [Nat.mod_eq_of_lt hcast, rise_eq_iff]
    omega
  · have hmod : (base + min (max q 1) (base / 8)) % 2 ^ 64 =
        base + min (max q 1) (base / 8) - 2 ^ 64 := by
      omega
    refine iff_of_false ?_ ?_
    · rw [hmod]
      omega
    · omega

theorem wrapped_rise_ne {base q : ℕ} (hbase : base < 2 ^ 64) (h : 2 ^ 64 ≤ base + max (q / 8) 1)
    (hq : q ≤ 2 * base) : max base 1 ≠ (base + min (max q 1) (base / 8)) % 2 ^ 64 := by
  omega

theorem quotient_le {base delta target : ℕ} (hdelta : delta ≤ 2 * target) :
    base * delta / target ≤ 2 * base := by
  apply Nat.div_le_of_le_mul
  calc base * delta ≤ base * (2 * target) := Nat.mul_le_mul_left base hdelta
    _ = target * (2 * base) := by ring

end Arithmetic

section Words

variable {base used limit : UInt64}

theorem toNat_target : (limit / 2).toNat = limit.toNat / 2 := UInt64.toNat_div limit 2

theorem product_fits {x y : ℕ} (hx : x < 2 ^ 64) (hy : y < 2 ^ 64) :
    min (x * y) (2 ^ 128 - 1) = x * y := by
  apply Nat.min_eq_left
  calc x * y ≤ (2 ^ 64 - 1) * (2 ^ 64 - 1) :=
        Nat.mul_le_mul (Nat.le_sub_one_of_lt hx) (Nat.le_sub_one_of_lt hy)
    _ ≤ 2 ^ 128 - 1 := by decide

theorem toNat_sub_target (h : limit / 2 < used) :
    (used - limit / 2).toNat = used.toNat - limit.toNat / 2 := by
  rw [UInt64.toNat_sub_of_le _ _ (UInt64.le_of_lt h), toNat_target]

theorem toNat_target_sub (h : used < limit / 2) :
    (limit / 2 - used).toNat = limit.toNat / 2 - used.toNat := by
  rw [UInt64.toNat_sub_of_le _ _ (UInt64.le_of_lt h), toNat_target]

theorem nextBaseFee_at (h : used = limit / 2) : nextBaseFee base used limit = some (max base 7) := by
  simp only [nextBaseFee, h, ↓reduceIte, Option.map_some]

theorem nextBaseFee_above (h : limit / 2 < used) {q : ℕ}
    (hq : q = base.toNat * (used.toNat - limit.toNat / 2) / (limit.toNat / 2))
    (hle : q ≤ 2 * base.toNat) :
    ((nextBaseFee base used limit).getD (max base 1)).toNat =
      if base.toNat + max (q / 8) 1 < 2 ^ 64 then max (base.toNat + max (q / 8) 1) 7
      else max base.toNat 1 := by
  have hne : used ≠ limit / 2 := (UInt64.ne_of_lt h).symm
  have hbase : base.toNat < 2 ^ 64 := base.toNat_lt
  have hdelta : (UInt64.ofNat (max (q / 8) 1)).toNat = max (q / 8) 1 :=
    UInt64.toNat_ofNat_of_lt' (by change max (q / 8) 1 < 2 ^ 64; omega)
  have hproduct := product_fits hbase (lt_of_le_of_lt (Nat.sub_le _ (limit.toNat / 2)) used.toNat_lt)
  simp only [nextBaseFee, if_neg hne, if_pos h, toNat_sub_target h, toNat_target, hproduct, ← hq,
    hdelta]
  by_cases hfits : base.toNat + max (q / 8) 1 < 2 ^ 64
  · rw [if_pos hfits, if_pos hfits, Option.map_some, Option.getD_some, UInt64.toNat_max,
      UInt64.toNat_add, hdelta, Nat.mod_eq_of_lt hfits]
    rfl
  · rw [if_neg hfits, if_neg hfits, Option.map_none, Option.getD_none, UInt64.toNat_max]
    rfl

theorem nextBaseFee_below (h : used < limit / 2) {q : ℕ}
    (hq : q = base.toNat * (limit.toNat / 2 - used.toNat) / (limit.toNat / 2))
    (hle : q ≤ base.toNat) :
    ((nextBaseFee base used limit).getD (max base 1)).toNat = max (base.toNat - q / 8) 7 := by
  have hne : used ≠ limit / 2 := UInt64.ne_of_lt h
  have hnot : ¬ limit / 2 < used := UInt64.not_lt.mpr (UInt64.le_of_lt h)
  have hbase : base.toNat < 2 ^ 64 := base.toNat_lt
  have hdelta : (UInt64.ofNat (q / 8)).toNat = q / 8 :=
    UInt64.toNat_ofNat_of_lt' (by change q / 8 < 2 ^ 64; omega)
  have hcut : (UInt64.ofNat (base.toNat - q / 8)).toNat = base.toNat - q / 8 :=
    UInt64.toNat_ofNat_of_lt' (by change base.toNat - q / 8 < 2 ^ 64; omega)
  have htarget : limit.toNat / 2 - used.toNat < 2 ^ 64 :=
    lt_of_le_of_lt ((Nat.sub_le _ _).trans (Nat.div_le_self _ _)) limit.toNat_lt
  simp only [nextBaseFee, if_neg hne, if_neg hnot, toNat_target_sub h, toNat_target,
    product_fits hbase htarget, ← hq, Option.map_some, Option.getD_some, saturatingSub64, hdelta]
  rw [UInt64.toNat_max, hcut]
  rfl

theorem computeEip1559BaseFee_at (h : used = limit / 2) :
    computeEip1559BaseFee base used limit = base := by
  unfold computeEip1559BaseFee
  split
  · rfl
  · dsimp only
    rw [if_pos h]

theorem computeEip1559BaseFee_above (hlimit : limit ≠ 0) (h : limit / 2 < used) {q : ℕ}
    (hq : q = base.toNat * (used.toNat - limit.toNat / 2) / (limit.toNat / 2)) :
    (computeEip1559BaseFee base used limit).toNat =
      (base.toNat + min (max q 1) (base.toNat / 8)) % 2 ^ 64 := by
  have hne : used ≠ limit / 2 := (UInt64.ne_of_lt h).symm
  have hbase : base.toNat < 2 ^ 64 := base.toNat_lt
  have hsum : min (base.toNat + min (max q 1) (base.toNat / 8)) (2 ^ 128 - 1) =
      base.toNat + min (max q 1) (base.toNat / 8) := by
    apply Nat.min_eq_left
    omega
  simp only [computeEip1559BaseFee, if_neg hlimit, if_neg hne, if_pos h, toNat_sub_target h,
    toNat_target, ← hq, hsum]
  exact UInt64.toNat_ofNat'

theorem computeEip1559BaseFee_below (hlimit : limit ≠ 0) (h : used < limit / 2) {q : ℕ}
    (hq : q = base.toNat * (limit.toNat / 2 - used.toNat) / (limit.toNat / 2)) :
    (computeEip1559BaseFee base used limit).toNat =
      base.toNat - min q (base.toNat / 8) := by
  have hne : used ≠ limit / 2 := UInt64.ne_of_lt h
  have hnot : ¬ limit / 2 < used := UInt64.not_lt.mpr (UInt64.le_of_lt h)
  have hbase : base.toNat < 2 ^ 64 := base.toNat_lt
  simp only [computeEip1559BaseFee, if_neg hlimit, if_neg hne, if_neg hnot, toNat_target_sub h,
    toNat_target, ← hq]
  apply UInt64.toNat_ofNat_of_lt'
  change base.toNat - min q (base.toNat / 8) < 2 ^ 64
  omega

end Words

section Agreement

variable {parent : BlockHeader}

/-- The two formulas agree on exactly the parents that `BaseFeesAgree` names. -/
theorem producedBaseFee_eq_iff (hlimit : 2 ≤ parent.gasLimit) (hused : parent.gasUsed ≤ parent.gasLimit) :
    producedBaseFee parent =
        computeEip1559BaseFee parent.baseFeePerGas parent.gasUsed parent.gasLimit ↔
      BaseFeesAgree parent.baseFeePerGas.toNat parent.gasUsed.toNat parent.gasLimit.toNat := by
  obtain ⟨base,hbase⟩ : ∃ base, base = parent.baseFeePerGas := ⟨_,rfl⟩
  obtain ⟨used,huse⟩ : ∃ used, used = parent.gasUsed := ⟨_,rfl⟩
  obtain ⟨limit,hlim⟩ : ∃ limit, limit = parent.gasLimit := ⟨_,rfl⟩
  rw [producedBaseFee, ← hbase, ← huse, ← hlim]
  rw [← huse, ← hlim] at hused
  rw [← hlim] at hlimit
  have htwo : 2 ≤ limit.toNat := UInt64.le_iff_toNat_le.mp hlimit
  have hle : used.toNat ≤ limit.toNat := UInt64.le_iff_toNat_le.mp hused
  have hpos : 0 < limit.toNat / 2 := by omega
  have hzero : limit ≠ 0 := by
    rintro rfl
    exact absurd htwo (by decide)
  have hlt64 : base.toNat < 2 ^ 64 := base.toNat_lt
  unfold BaseFeesAgree
  dsimp only
  rw [← UInt64.toNat_inj]
  rcases Nat.lt_trichotomy used.toNat (limit.toNat / 2) with hnat | hnat | hnat
  · have h : used < limit / 2 := UInt64.lt_iff_toNat_lt.mpr (toNat_target ▸ hnat)
    obtain ⟨q,hq⟩ : ∃ q, q = base.toNat * (limit.toNat / 2 - used.toNat) / (limit.toNat / 2) :=
      ⟨_,rfl⟩
    have hqle : q ≤ base.toNat := by
      rw [hq]
      apply Nat.div_le_of_le_mul
      rw [Nat.mul_comm]
      exact Nat.mul_le_mul_right _ (Nat.sub_le _ _)
    rw [nextBaseFee_below h hq hqle, computeEip1559BaseFee_below hzero h hq, cut_eq_iff hqle,
      if_neg hnat.ne, if_neg hnat.not_gt, hq, Nat.le_div_iff_mul_le hpos, Nat.div_eq_zero_iff_lt hpos]
  · have h : used = limit / 2 := UInt64.toNat_inj.mp (hnat.trans toNat_target.symm)
    rw [nextBaseFee_at h, computeEip1559BaseFee_at h, if_pos hnat, Option.getD_some,
      UInt64.toNat_max]
    exact max_eq_left_iff
  · have h : limit / 2 < used := UInt64.lt_iff_toNat_lt.mpr (toNat_target ▸ hnat)
    obtain ⟨q,hq⟩ : ∃ q, q = base.toNat * (used.toNat - limit.toNat / 2) / (limit.toNat / 2) :=
      ⟨_,rfl⟩
    have hqle : q ≤ 2 * base.toNat := hq ▸ quotient_le (by omega)
    have hfew : base.toNat * (used.toNat - limit.toNat / 2) < 2 * (limit.toNat / 2) ↔ q < 2 := by
      rw [hq, Nat.div_lt_iff_lt_mul hpos]
    have hmore : base.toNat * (used.toNat - limit.toNat / 2) <
        8 * (base.toNat / 8 + 1) * (limit.toNat / 2) ↔ q < 8 * (base.toNat / 8 + 1) := by
      rw [hq, Nat.div_lt_iff_lt_mul hpos]
    have heighth : 8 * (base.toNat / 8) * (limit.toNat / 2) ≤
        base.toNat * (used.toNat - limit.toNat / 2) ↔ 8 * (base.toNat / 8) ≤ q := by
      rw [hq, Nat.le_div_iff_mul_le hpos]
    rw [nextBaseFee_above h hq hqle, computeEip1559BaseFee_above hzero h hq, if_neg hnat.ne',
      if_pos hnat, hfew, hmore, heighth]
    by_cases hfits : base.toNat + max (q / 8) 1 < 2 ^ 64
    · rw [if_pos hfits]
      exact rise_cast_eq_iff hlt64 hfits
    · rw [if_neg hfits]
      have hne := wrapped_rise_ne hlt64 (Nat.not_lt.mp hfits) hqle
      refine iff_of_false hne ?_
      omega

variable {P : Platform} {storage : ZbxDb} {cfg : ProducerConfig} {txs : List SignedTransaction}
  {clock : Option UInt64} {parentBlock child : Block}

theorem buildCandidate_header (hparent : storage.getBlockByNumber storage.head = some parentBlock)
    (hbuild : buildCandidate P storage cfg txs clock = .ok (some child)) :
    child.header.parentHash = parentBlock.header.hash P ∧
      child.header.number = parentBlock.header.number + 1 ∧ child.header.gasUsed = 0 ∧
      child.header.gasLimit = cfg.gasLimit ∧ child.header.extraData.length = 3 ∧
      child.header.baseFeePerGas = producedBaseFee parentBlock.header := by
  unfold buildCandidate at hbuild
  dsimp only at hbuild
  rw [hparent] at hbuild
  dsimp only at hbuild
  split at hbuild
  · cases hbuild
  · cases hbuild
    exact ⟨rfl,rfl,rfl,rfl,rfl,rfl⟩

theorem baseFeeValid_iff {child : BlockHeader} (hfee : child.baseFeePerGas = producedBaseFee parent)
    (hlimit : 2 ≤ parent.gasLimit) (hused : parent.gasUsed ≤ parent.gasLimit) :
    child.BaseFeeValid parent ↔ parent.number = 0 ∧ parent.baseFeePerGas = 0 ∨
      BaseFeesAgree parent.baseFeePerGas.toNat parent.gasUsed.toNat parent.gasLimit.toNat := by
  unfold BlockHeader.BaseFeeValid
  rw [hfee, producedBaseFee_eq_iff hlimit hused]
  by_cases hskip : parent.number = 0 ∧ parent.baseFeePerGas = 0
  · refine iff_of_true ?_ (Or.inl hskip)
    intro hcheck
    rw [hskip.1, hskip.2] at hcheck
    exact absurd hcheck (by decide)
  · have hcheck : 0 < parent.number ∨ 0 < parent.baseFeePerGas := by
      by_contra hnone
      obtain ⟨hnumber,hbase⟩ := not_or.mp hnone
      exact hskip ⟨UInt64.le_zero_iff.mp (UInt64.not_lt.mp hnumber),
        UInt64.le_zero_iff.mp (UInt64.not_lt.mp hbase)⟩
    rw [or_iff_right hskip]
    exact ⟨fun h => h hcheck,fun h _ => h⟩

/-- The verifier's check of the base fee passes on a candidate exactly where the formulas
agree, and then nothing but the clock and the configured gas limit can fail it. -/
theorem buildCandidate_baseFee_iff
    (hparent : storage.getBlockByNumber storage.head = some parentBlock)
    (hlimit : 2 ≤ parentBlock.header.gasLimit)
    (hused : parentBlock.header.gasUsed ≤ parentBlock.header.gasLimit)
    (hbuild : buildCandidate P storage cfg txs clock = .ok (some child)) :
    (child.header.BaseFeeValid parentBlock.header ↔
      parentBlock.header.number = 0 ∧ parentBlock.header.baseFeePerGas = 0 ∨
        BaseFeesAgree parentBlock.header.baseFeePerGas.toNat parentBlock.header.gasUsed.toNat
          parentBlock.header.gasLimit.toNat) ∧
    (child.header.validateAgainstParent P parentBlock.header = .ok () ↔
      parentBlock.header.timestamp < child.header.timestamp ∧ cfg.gasLimit ≤ BLOCK_GAS_LIMIT ∧
        (parentBlock.header.number = 0 ∧ parentBlock.header.baseFeePerGas = 0 ∨
          BaseFeesAgree parentBlock.header.baseFeePerGas.toNat parentBlock.header.gasUsed.toNat
            parentBlock.header.gasLimit.toNat)) := by
  obtain ⟨hhash,hnumber,hgas,hcfg,hextra,hfee⟩ := buildCandidate_header hparent hbuild
  have hvalid := baseFeeValid_iff hfee hlimit hused
  refine ⟨hvalid,?_⟩
  rw [BlockHeader.validateAgainstParent_ok_iff, hvalid, hcfg]
  constructor
  · rintro ⟨-,-,htime,-,hmax,-,hagree⟩
    exact ⟨htime,hmax,hagree⟩
  · rintro ⟨htime,hmax,hagree⟩
    refine ⟨hhash,hnumber,htime,?_,hmax,?_,hagree⟩
    · rw [hgas]
      exact UInt64.zero_le
    · rw [hextra]
      decide

end Agreement

section Parents

def demoParent (gasUsed : UInt64) : Block where
  header :=
    { parentHash := 0, uncleHash := 0, coinbase := 0, stateRoot := 0, transactionsRoot := 0
      receiptsRoot := 0, logsBloom := 0, difficulty := 0, number := 5, gasLimit := 30000000
      gasUsed := gasUsed, timestamp := 10, extraData := [], mixHash := 0, nonce := 0
      baseFeePerGas := 1000000000, committeeSignature := [], epoch := 0, epochSeed := none }
  body := ⟨[],[]⟩

def demoChain (gasUsed : UInt64) : ZbxDb := ZbxDb.empty.putBlock (demoParent gasUsed)

def demoProducer : ProducerConfig := ⟨7,30000000,true⟩

/-- A full parent: both formulas raise the fee by an eighth. -/
theorem buildCandidate_baseFee_full :
    ∃ child : Block, buildCandidate Platform.integers (demoChain 30000000) demoProducer [] none =
        .ok (some child) ∧
      child.header.validateAgainstParent Platform.integers (demoParent 30000000).header = .ok () := by
  have hparent : (demoChain 30000000).getBlockByNumber (demoChain 30000000).head =
      some (demoParent 30000000) := rfl
  have hbuild : buildCandidate Platform.integers (demoChain 30000000) demoProducer [] none =
      .ok (some _) := rfl
  refine ⟨_,hbuild,?_⟩
  apply (buildCandidate_baseFee_iff hparent (by decide) (by decide) hbuild).2.mpr
  exact ⟨by decide,by decide,Or.inr (by decide)⟩

/-- A parent at three quarters: the producer raises the fee by a sixteenth, the verifier
asks for an eighth. -/
theorem three_quarters_rejected :
    ¬ ∀ (P : Platform) (storage : ZbxDb) (cfg : ProducerConfig) (txs : List SignedTransaction)
      (clock : Option UInt64) (parent child : Block),
      storage.getBlockByNumber storage.head = some parent → 2 ≤ parent.header.gasLimit →
      parent.header.gasLimit ≤ BLOCK_GAS_LIMIT → parent.header.gasUsed ≤ parent.header.gasLimit →
      buildCandidate P storage cfg txs clock = .ok (some child) →
      child.header.BaseFeeValid parent.header := by
  intro hclaim
  have hvalid := hclaim Platform.integers (demoChain 22500000) demoProducer [] none
    (demoParent 22500000) _ rfl (by decide) (by decide) (by decide) rfl
  exact absurd (hvalid (Or.inl (by decide))) (by decide)

end Parents

end ZbxChain
