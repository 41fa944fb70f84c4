import ZbxChain.Evm.WordExact
import ZbxChain.Zvm.Dispatch
import Mathlib.Data.Rat.Floor

/-! # Signed words are numbers in two's complement

The signed opcodes work on magnitudes and put the sign back. What they give is the quotient, the
remainder, the order, the shift or the extension of the signed numbers, modulo `2^256`.
-/
namespace ZbxChain.Zvm
open Bytes

section Words
variable {a b x : U256} {s : U256}

theorem negate_eq (x : U256) : negate x = -x := (BitVec.neg_eq_not_add x).symm

theorem sdivU256_eq (a b : U256) : sdivU256 a b = BitVec.ofInt 256 (a.toInt.tdiv b.toInt) := by
  rw [Evm.ofInt_tdiv, BitVec.sdiv_eq]
  unfold sdivU256 isNegative
  simp only [negate_eq]
  by_cases hzero : b = 0
  · subst hzero
    cases a.msb with
    | true => simp
    | false => simp
  · rw [if_neg hzero]
    split
    · rename_i hspecial
      rw [hspecial.1, hspecial.2]
      decide +kernel
    · cases a.msb <;> cases b.msb <;> rfl

theorem smodU256_eq (a b : U256) :
    smodU256 a b = if b = 0 then 0 else BitVec.ofInt 256 (a.toInt.tmod b.toInt) := by
  rw [Evm.ofInt_tmod, BitVec.srem_eq]
  unfold smodU256 isNegative
  simp only [negate_eq]
  have hkeep : ∀ r : U256, (if r = 0 then 0 else -r) = -r := by
    intro r
    by_cases hr : r = 0
    · simp [hr]
    · rw [if_neg hr]
  have hself : ∀ r : U256, (if r = 0 then 0 else r) = r := by
    intro r
    by_cases hr : r = 0
    · simp [hr]
    · rw [if_neg hr]
  split
  · rfl
  · cases a.msb with
    | true => cases b.msb <;> exact hkeep _
    | false => cases b.msb <;> exact hself _

theorem signedLt_eq (a b : U256) : signedLt a b = decide (a.toInt < b.toInt) := by
  have ha := a.isLt
  have hb := b.isLt
  unfold signedLt isNegative
  rw [BitVec.toInt_eq_msb_cond, BitVec.toInt_eq_msb_cond]
  cases a.msb with
  | true =>
    cases b.msb with
    | true => simp [BitVec.lt_def]
    | false =>
      symm
      apply decide_eq_true
      simp only [if_true, Bool.false_eq_true, if_false]
      omega
  | false =>
    cases b.msb with
    | true =>
      symm
      apply decide_eq_false
      simp only [if_true, Bool.false_eq_true, if_false]
      omega
    | false => simp [BitVec.lt_def]

theorem getLsbD_fill (s : ℕ) {k : ℕ} (hk : k < 256) :
    (BitVec.allOnes 256 <<< (256 - s)).getLsbD k = decide (256 - s ≤ k) := by
  rw [BitVec.getLsbD_shiftLeft, BitVec.getLsbD_allOnes]
  by_cases hfill : 256 - s ≤ k
  · simp [hfill, hk]
    omega
  · simp [hfill]

theorem sarU256_eq (x s : U256) : sarU256 x s = BitVec.ofInt 256 (x.toInt / 2 ^ s.toNat) := by
  have hspec : BitVec.ofInt 256 (x.toInt / 2 ^ s.toNat) = x.sshiftRight s.toNat := by
    rw [BitVec.sshiftRight, Int.shiftRight_eq_div_pow]
    norm_cast
  rw [hspec]
  apply BitVec.eq_of_getLsbD_eq
  intro k hk
  have hout : ¬ 256 ≤ k := by omega
  rw [BitVec.getLsbD_sshiftRight, decide_eq_false hout, Bool.not_false, Bool.true_and]
  unfold sarU256 isNegative
  split
  · rename_i hfar
    have hbeyond : ¬ s.toNat + k < 256 := by omega
    cases x.msb with
    | true =>
      rw [if_pos rfl, if_neg hbeyond, BitVec.getLsbD_allOnes]
      exact decide_eq_true hk
    | false => simp [hbeyond]
  · rename_i hnear
    cases hsign : x.msb with
    | false =>
      simp only [Bool.not_false, if_true, BitVec.getLsbD_ushiftRight]
      split
      · rfl
      · exact BitVec.getLsbD_of_ge _ _ (by omega)
    | true =>
      simp only [Bool.not_true, Bool.false_eq_true, if_false]
      split
      · rename_i hzero
        rw [hzero, if_pos (by omega), BitVec.getLsbD_ushiftRight]
      · rw [BitVec.getLsbD_or, BitVec.getLsbD_ushiftRight, getLsbD_fill _ hk]
        split
        · rename_i hlow
          rw [decide_eq_false (by omega), Bool.or_false]
        · rename_i hhigh
          rw [decide_eq_true (by omega), Bool.or_true]

/-- The bytes in front of the sign byte get its sign. -/
theorem getLsbD_signExtend {b x : U256} {j : ℕ} (hb : b.toNat < 31) (hj : j < 256) :
    (signExtend b x).getLsbD j =
      if j < 8 * (b.toNat + 1) then x.getLsbD j else x.getLsbD (8 * b.toNat + 7) := by
  have hones : (0xFF : UInt8).toNat = 2 ^ 8 - 1 := rfl
  have hmod : j % 8 < 8 := Nat.mod_lt _ (by decide)
  have hlen : x.toBigEndian.length = 32 := length_bytesBE 32 _
  have hsign : decide (128 ≤ (x.toBigEndian[31 - b.toNat]?.getD 0).toNat) = x.getLsbD (8 * b.toNat + 7) := by
    have hbit : (Evm.Word.byte x (31 - b.toNat)).toNat.testBit 7 = x.getLsbD (8 * b.toNat + 7) := by
      rw [Evm.testBit_byte (by omega) (by decide)]
      congr 1
      omega
    rw [← hbit]
    cases hval : (Evm.Word.byte x (31 - b.toNat)).toNat.testBit 7 with
    | true =>
      apply decide_eq_true
      have hnot := (Evm.testBit_seven_iff (Evm.Word.byte x (31 - b.toNat))).not.mp (by simp [hval])
      exact Nat.le_of_not_lt hnot
    | false =>
      apply decide_eq_false
      exact Nat.not_le.mpr ((Evm.testBit_seven_iff _).mp hval)
  have hindex : ∀ fill : UInt8,
      ((List.replicate (31 - b.toNat) fill ++ x.toBigEndian.drop (31 - b.toNat)).reverse[j / 8]?).getD 0 =
        if j < 8 * (b.toNat + 1) then Evm.Word.byte x (31 - j / 8) else fill := by
    intro fill
    rw [List.getElem?_reverse (by simp [hlen]; omega)]
    have hpos : (List.replicate (31 - b.toNat) fill ++ x.toBigEndian.drop (31 - b.toNat)).length - 1 - j / 8 =
        31 - j / 8 := by
      simp [hlen]
      omega
    rw [hpos, List.getElem?_append]
    split
    · rename_i hlow
      rw [List.length_replicate] at hlow
      rw [if_neg (by omega), List.getElem?_replicate_of_lt hlow]
      rfl
    · rename_i hhigh
      rw [List.length_replicate] at hhigh
      rw [if_pos (by omega), List.length_replicate, List.getElem?_drop, Evm.Word.byte]
      congr 3
      omega
  unfold signExtend
  rw [if_neg (by omega)]
  change (Evm.Word.ofBytes _).getLsbD j = _
  rw [Evm.getLsbD_ofBytes (by simp [hlen]; omega), hindex, hsign]
  split
  · exact (Evm.getLsbD_byte hj).symm
  · cases x.getLsbD (8 * b.toNat + 7) with
    | true =>
      rw [if_pos rfl, hones, Nat.testBit_two_pow_sub_one]
      exact decide_eq_true hmod
    | false => simp

theorem signExtend_eq (b x : U256) :
    signExtend b x =
      if b.toNat < 31 then BitVec.ofInt 256 (x.setWidth (8 * (b.toNat + 1))).toInt else x := by
  split
  · rename_i hb
    apply BitVec.eq_of_getLsbD_eq
    intro j hj
    rw [getLsbD_signExtend hb hj, ← Evm.getLsbD_signextended x hj]
    rfl
  · rename_i hb
    rw [signExtend, if_pos (by omega)]

end Words

/-- The signed operations on two words, as integers modulo `2^256`. -/
structure TwosComplement (a b : U256) : Prop where
  sdiv : sdivU256 a b = BitVec.ofInt 256 (a.toInt.tdiv b.toInt)
  smod : smodU256 a b = if b = 0 then 0 else BitVec.ofInt 256 (a.toInt.tmod b.toInt)
  slt : signedLt a b = decide (a.toInt < b.toInt)
  sar : sarU256 a b = BitVec.ofInt 256 ⌊(a.toInt : ℚ) / 2 ^ b.toNat⌋
  signextend :
    signExtend b a =
      if b.toNat < 31 then BitVec.ofInt 256 (a.setWidth (8 * (b.toNat + 1))).toInt else a

/-- Signed arithmetic is two's complement, on all words and shifts. -/
theorem signed_twosComplement (a b : U256) : TwosComplement a b where
  sdiv := sdivU256_eq a b
  smod := smodU256_eq a b
  slt := signedLt_eq a b
  sar := by
    have hfloor : ⌊(a.toInt : ℚ) / 2 ^ b.toNat⌋ = a.toInt / 2 ^ b.toNat := by
      exact_mod_cast Rat.floor_intCast_div_natCast a.toInt (2 ^ b.toNat)
    rw [hfloor]
    exact sarU256_eq a b
  signextend := signExtend_eq b a

end ZbxChain.Zvm
