import ZbxChain.Evm.Word

/-! # Words, their bytes and their bits -/
namespace ZbxChain.Evm
open Bytes Word

section Bytes
variable {a b : Word}

theorem pow_width : (256 : ℕ) ^ 32 = 2 ^ 256 := by rw [← Nat.pow_mul 2 8 32]

theorem ofBytesBE_word (a : Word) : ofBytesBE a.toBigEndian = a.toNat := by
  rw [U256.toBigEndian, ofBytesBE_bytesBE, pow_width]
  exact Nat.mod_eq_of_lt a.isLt

theorem toNat_ofBytes {bytes : List UInt8} (h : bytes.length = 32) :
    (ofBytes bytes).toNat = ofBytesBE bytes := by
  have hlt := ofBytesBE_lt bytes
  rw [h, pow_width] at hlt
  rw [ofBytes, H256.fromSlice, BitVec.toNat_ofNat]
  exact Nat.mod_eq_of_lt hlt

/-- A bit of a word stands in the byte that covers it. -/
theorem getLsbD_ofBytes {bytes : List UInt8} (h : bytes.length = 32) (k : ℕ) :
    (ofBytes bytes).getLsbD k = ((bytes.reverse[k / 8]?).getD 0).toNat.testBit (k % 8) := by
  rw [← BitVec.testBit_toNat, toNat_ofBytes h, testBit_ofBytesBE]

theorem length_ofFn (f : ℕ → UInt8) : ((List.range 32).map f).length = 32 := by simp

theorem getLsbD_ofFn (f : ℕ → UInt8) {k : ℕ} (hk : k < 256) :
    (ofFn f).getLsbD k = (f (31 - k / 8)).toNat.testBit (k % 8) := by
  rw [ofFn, getLsbD_ofBytes (length_ofFn f), List.getElem?_reverse (by simp; omega)]
  have hindex : ((List.range 32).map f).length - 1 - k / 8 = 31 - k / 8 := by simp
  rw [hindex, List.getElem?_map, List.getElem?_range (by omega)]
  rfl

theorem toNat_byte {i : ℕ} (hi : i < 32) : (a.byte i).toNat = a.toNat / 256 ^ (31 - i) % 256 := by
  rw [byte, U256.toBigEndian, getElem?_bytesBE hi]
  simp

theorem testBit_byte {i j : ℕ} (hi : i < 32) (hj : j < 8) :
    (a.byte i).toNat.testBit j = a.getLsbD (8 * (31 - i) + j) := by
  have hpow : (256 : ℕ) ^ (31 - i) = 2 ^ (8 * (31 - i)) := (Nat.pow_mul 2 8 _).symm
  have hmod : ∀ n : ℕ, n % 256 = n % 2 ^ 8 := fun _ => rfl
  rw [toNat_byte hi, hpow, hmod, Nat.testBit_mod_two_pow, Nat.testBit_div_two_pow, BitVec.testBit_toNat]
  simp [hj, Nat.add_comm]

theorem testBit_not {x : UInt8} {j : ℕ} (hj : j < 8) : (~~~x).toNat.testBit j = !x.toNat.testBit j := by
  change (~~~x.toBitVec).toNat.testBit j = !x.toBitVec.toNat.testBit j
  rw [BitVec.testBit_toNat, BitVec.testBit_toNat, BitVec.getLsbD_not]
  simp [hj]

theorem testBit_shl {x : UInt8} {n j : ℕ} (hn : n < 8) (hj : j < 8) :
    (x <<< UInt8.ofNat n).toNat.testBit j = (decide (n ≤ j) && x.toNat.testBit (j - n)) := by
  have hamount : (UInt8.ofNat n).toNat % 8 = n := by
    rw [UInt8.toNat_ofNat']
    omega
  rw [UInt8.toNat_shiftLeft, hamount, Nat.testBit_mod_two_pow, Nat.testBit_shiftLeft]
  simp [hj]

theorem testBit_shr {x : UInt8} {n j : ℕ} (hn : n < 8) :
    (x >>> UInt8.ofNat n).toNat.testBit j = x.toNat.testBit (n + j) := by
  have hamount : (UInt8.ofNat n).toNat % 8 = n := by
    rw [UInt8.toNat_ofNat']
    omega
  rw [UInt8.toNat_shiftRight, hamount, Nat.testBit_shiftRight]

theorem testBit_toNat_lt {x : UInt8} {j : ℕ} (hj : 8 ≤ j) : x.toNat.testBit j = false :=
  Nat.testBit_lt_two_pow (Nat.lt_of_lt_of_le x.toNat_lt (Nat.pow_le_pow_right (by decide) hj))

/-- The bits of the bytes are the bits of the word. -/
theorem getLsbD_byte {k : ℕ} (hk : k < 256) : a.getLsbD k = (a.byte (31 - k / 8)).toNat.testBit (k % 8) := by
  rw [testBit_byte (by omega) (Nat.mod_lt _ (by decide))]
  congr 1
  omega

theorem signBit_eq (x : UInt8) : (x &&& 0x80 != 0) = x.toNat.testBit 7 := by
  have hmask : (x &&& 0x80).toNat = (x.toNat.testBit 7).toNat * 2 ^ 7 := by
    rw [UInt8.toNat_and]
    exact Nat.and_two_pow x.toNat 7
  cases hbit : x.toNat.testBit 7 with
  | false =>
    have hzero : x &&& 0x80 = 0 := UInt8.toNat_inj.mp (by rw [hmask, hbit]; rfl)
    rw [hzero]
    rfl
  | true =>
    apply bne_iff_ne.mpr
    intro hzero
    rw [hzero, hbit] at hmask
    cases hmask

/-- The sign of a word is its top bit. -/
theorem isNegative_eq (a : Word) : isNegative a = a.msb := by
  have hbit : (a.byte 0).toNat.testBit 7 = a.getLsbD 255 := testBit_byte (by decide) (by decide)
  have hmsb : a.msb = a.getLsbD 255 := by simp [BitVec.msb_eq_getLsbD_last]
  rw [hmsb, ← hbit, isNegative, signBit_eq]

end Bytes

section Conversions

theorem toNat_u256FromU64 (v : UInt64) : (u256FromU64 v).toNat = v.toNat := by
  have hlen : (List.replicate 24 (0 : UInt8) ++ beBytes64 v).length = 32 := by simp
  have hlt := v.toNat_lt
  have hwrite := bytesBE_replicate 24 (beBytes64 v)
  have hvalue : ofBytesBE (beBytes64 v) = v.toNat := by
    rw [beBytes64, ofBytesBE_bytesBE]
    exact Nat.mod_eq_of_lt hlt
  rw [u256FromU64, toNat_ofBytes hlen, ← hwrite, ofBytesBE_bytesBE, hvalue, length_beBytes64]
  exact Nat.mod_eq_of_lt (by omega)

/-- `u256_to_u64` keeps the low 64 bits. -/
theorem toNat_u256ToU64 (v : Word) : (u256ToU64 v).toNat = v.toNat % 2 ^ 64 := by
  have hsplit := congrArg ofBytesBE (List.take_append_drop 24 v.toBigEndian)
  have hlen : (v.toBigEndian.drop 24).length = 8 := by simp
  have hlt := ofBytesBE_lt (v.toBigEndian.drop 24)
  rw [ofBytesBE_append, ofBytesBE_word, hlen] at hsplit
  rw [hlen] at hlt
  rw [u256ToU64, UInt64.toNat_ofNat', ← hsplit]
  omega

end Conversions

section Bits
variable {a b : Word}

theorem u256Not_eq (a : Word) : u256Not a = ~~~a := by
  apply BitVec.eq_of_getLsbD_eq
  intro k hk
  have hmod : k % 8 < 8 := Nat.mod_lt _ (by decide)
  rw [u256Not, getLsbD_ofFn _ hk, BitVec.getLsbD_not, getLsbD_byte hk, testBit_not hmod]
  simp [hk]

theorem getLsbD_orByte (a : Word) {i k : ℕ} (x : UInt8) (hi : i < 32) (hk : k < 256) :
    (orByte a i x).getLsbD k = (a.getLsbD k || decide (k / 8 = 31 - i) && x.toNat.testBit (k % 8)) := by
  rw [orByte, getLsbD_ofFn _ hk, getLsbD_byte hk]
  split
  · rename_i h
    have hbyte : k / 8 = 31 - i := by omega
    rw [UInt8.toNat_or, Nat.testBit_or]
    simp [hbyte]
  · rename_i h
    have hbyte : k / 8 ≠ 31 - i := by omega
    simp [hbyte]

/-- `u256_byte` is exact for an index that is cut to 64 bits. -/
theorem u256Byte_eq (i x : Word) : u256Byte i x =
    if 32 ≤ i.toNat % 2 ^ 64 then 0 else BitVec.ofNat 256 (x.toNat / 256 ^ (31 - i.toNat % 2 ^ 64) % 256) := by
  unfold u256Byte
  rw [toNat_u256ToU64]
  dsimp only
  split
  · rfl
  · rename_i hi
    apply BitVec.eq_of_toNat_eq
    rw [toNat_u256FromU64, UInt8.toNat_toUInt64, toNat_byte (by omega), BitVec.toNat_ofNat]
    exact (Nat.mod_eq_of_lt (Nat.lt_of_lt_of_le (Nat.mod_lt _ (by decide)) (by decide))).symm

theorem testBit_shlByte (val : Word) {src n j : ℕ} (hsrc : src < 32) (hn : n < 8) (hj : j < 8) :
    (if 0 < n ∧ src + 1 < 32 then
      val.byte src <<< UInt8.ofNat n ||| val.byte (src + 1) >>> UInt8.ofNat (8 - n)
    else val.byte src <<< UInt8.ofNat n).toNat.testBit j =
      (decide (n ≤ 8 * (31 - src) + j) && val.getLsbD (8 * (31 - src) + j - n)) := by
  by_cases hown : n ≤ j
  · have hbit : (val.byte src <<< UInt8.ofNat n).toNat.testBit j = val.getLsbD (8 * (31 - src) + j - n) := by
      rw [testBit_shl hn hj, testBit_byte hsrc (by omega), Nat.add_sub_assoc hown]
      simp [hown]
    have hle : n ≤ 8 * (31 - src) + j := by omega
    split
    · rename_i hover
      rw [UInt8.toNat_or, Nat.testBit_or, hbit, testBit_shr (by omega), testBit_toNat_lt (by omega)]
      simp [hle]
    · rw [hbit]
      simp [hle]
  · have hbit : (val.byte src <<< UInt8.ofNat n).toNat.testBit j = false := by
      rw [testBit_shl hn hj]
      simp [hown]
    split
    · rename_i hover
      have hindex : 8 * (31 - (src + 1)) + (8 - n + j) = 8 * (31 - src) + j - n := by omega
      have hle : n ≤ 8 * (31 - src) + j := by omega
      rw [UInt8.toNat_or, Nat.testBit_or, hbit, testBit_shr (by omega), testBit_byte hover.2 (by omega), hindex]
      simp [hle]
    · rename_i hlast
      have hless : ¬ n ≤ 8 * (31 - src) + j := by omega
      rw [hbit]
      simp [hless]

theorem testBit_shrByte (val : Word) {src n j : ℕ} (hsrc : src < 32) (hn : n < 8) (hj : j < 8) :
    (if 0 < n ∧ 0 < src then
      val.byte src >>> UInt8.ofNat n ||| val.byte (src - 1) <<< UInt8.ofNat (8 - n)
    else val.byte src >>> UInt8.ofNat n).toNat.testBit j = val.getLsbD (8 * (31 - src) + j + n) := by
  by_cases hown : n + j < 8
  · have hbit : (val.byte src >>> UInt8.ofNat n).toNat.testBit j = val.getLsbD (8 * (31 - src) + j + n) := by
      have hindex : 8 * (31 - src) + (n + j) = 8 * (31 - src) + j + n := by omega
      rw [testBit_shr hn, testBit_byte hsrc hown, hindex]
    split
    · rename_i hover
      have hless : ¬ 8 - n ≤ j := by omega
      rw [UInt8.toNat_or, Nat.testBit_or, hbit, testBit_shl (by omega) hj]
      simp [hless]
    · exact hbit
  · have hbit : (val.byte src >>> UInt8.ofNat n).toNat.testBit j = false := by
      rw [testBit_shr hn, testBit_toNat_lt (by omega)]
    split
    · rename_i hover
      have hle : 8 - n ≤ j := by omega
      have hindex : 8 * (31 - (src - 1)) + (j - (8 - n)) = 8 * (31 - src) + j + n := by omega
      rw [UInt8.toNat_or, Nat.testBit_or, hbit, testBit_shl (by omega) hj, testBit_byte (by omega) (by omega), hindex]
      simp [hle]
    · rename_i hlast
      rw [hbit, BitVec.getLsbD_of_ge _ _ (by omega)]

theorem shl_of_le {val : Word} {s : ℕ} (h : 256 ≤ s) : val <<< s = 0 := by
  apply BitVec.eq_of_getLsbD_eq
  intro k hk
  simp [BitVec.getLsbD_shiftLeft]
  omega

theorem shr_of_le {val : Word} {s : ℕ} (h : 256 ≤ s) : val >>> s = 0 := by
  apply BitVec.eq_of_getLsbD_eq
  intro k hk
  rw [BitVec.getLsbD_ushiftRight, BitVec.getLsbD_of_ge _ _ (by omega)]
  simp

/-- The byte-wise left shift is the shift by the low 64 bits of the distance. -/
theorem u256Shl_eq (shift val : Word) : u256Shl shift val = val <<< (shift.toNat % 2 ^ 64) := by
  unfold u256Shl
  rw [toNat_u256ToU64]
  generalize shift.toNat % 2 ^ 64 = s
  dsimp only
  split
  · rename_i hs
    exact (shl_of_le hs).symm
  · split
    · rename_i hzero
      subst hzero
      simp
    · rename_i hs _
      apply BitVec.eq_of_getLsbD_eq
      intro k hk
      rw [getLsbD_ofFn _ hk, BitVec.getLsbD_shiftLeft]
      split
      · rename_i hsrc
        rw [testBit_shlByte val hsrc (Nat.mod_lt _ (by decide)) (Nat.mod_lt _ (by decide))]
        have hindex : 8 * (31 - (31 - k / 8 + s / 8)) + k % 8 - s % 8 = k - s := by omega
        have hbound : decide (s % 8 ≤ 8 * (31 - (31 - k / 8 + s / 8)) + k % 8) = !decide (k < s) := by
          rw [← decide_not]
          apply decide_eq_decide.mpr
          omega
        rw [hindex, hbound]
        simp [hk]
      · rename_i hsrc
        have hless : k < s := by omega
        simp [hless]

/-- The byte-wise right shift is the shift by the low 64 bits of the distance. -/
theorem u256Shr_eq (shift val : Word) : u256Shr shift val = val >>> (shift.toNat % 2 ^ 64) := by
  unfold u256Shr
  rw [toNat_u256ToU64]
  generalize shift.toNat % 2 ^ 64 = s
  dsimp only
  split
  · rename_i hs
    exact (shr_of_le hs).symm
  · split
    · rename_i hzero
      subst hzero
      simp
    · rename_i hs _
      apply BitVec.eq_of_getLsbD_eq
      intro k hk
      rw [getLsbD_ofFn _ hk, BitVec.getLsbD_ushiftRight]
      split
      · rename_i hsrc
        rw [testBit_shrByte val (by omega) (Nat.mod_lt _ (by decide)) (Nat.mod_lt _ (by decide))]
        congr 1
        omega
      · rename_i hsrc
        rw [BitVec.getLsbD_of_ge _ _ (by omega)]
        simp

theorem getLsbD_fill (out : Word) {s k : ℕ} (hs : s ≤ 256) (hk : k < 256) :
    ((List.range s).foldl (fun out bit => orByte out (bit / 8) (0x80 >>> UInt8.ofNat (bit % 8))) out).getLsbD k =
      (out.getLsbD k || decide (256 - s ≤ k)) := by
  induction s with
  | zero => simp [hk]
  | succ s ih =>
    rw [List.range_succ, List.foldl_append, List.foldl_cons, List.foldl_nil,
      getLsbD_orByte _ _ (by omega) hk, ih (by omega), testBit_shr (Nat.mod_lt _ (by decide))]
    have hbit : ∀ j, (0x80 : UInt8).toNat.testBit j = decide (j = 7) := by
      intro j
      have hpow : (0x80 : UInt8).toNat = 2 ^ 7 := rfl
      rw [hpow, Nat.testBit_two_pow]
      simp [eq_comm]
    rw [hbit, Bool.or_assoc]
    congr 1
    rw [← Bool.decide_and, ← Bool.decide_or]
    apply decide_eq_decide.mpr
    omega

/-- The arithmetic shift is exact for the low 64 bits of the distance. -/
theorem u256Sar_eq (shift val : Word) : u256Sar shift val = val.sshiftRight (shift.toNat % 2 ^ 64) := by
  unfold u256Sar
  rw [toNat_u256ToU64, u256Shr_eq, isNegative_eq]
  generalize shift.toNat % 2 ^ 64 = s
  dsimp only
  apply BitVec.eq_of_getLsbD_eq
  intro k hk
  rw [BitVec.getLsbD_sshiftRight]
  have hin : ¬ 256 ≤ k := by omega
  split
  · rename_i hs
    have hout : ¬ s + k < 256 := by omega
    cases val.msb with
    | false => simp [hin, hout]
    | true =>
      have hones : (0xFF : UInt8).toNat = 2 ^ 8 - 1 := rfl
      simp only [if_true]
      rw [getLsbD_ofFn _ hk, hones, Nat.testBit_two_pow_sub_one]
      simp [hin, hout, Nat.mod_lt]
  · rename_i hs
    split
    · rename_i hzero
      rw [hzero]
      simp [hin, hk]
    · cases hsign : val.msb with
      | false =>
        simp only [Bool.false_eq_true, if_false, BitVec.getLsbD_ushiftRight]
        split
        · simp [hin]
        · rw [BitVec.getLsbD_of_ge _ _ (by omega)]
          simp
      | true =>
        rw [if_pos rfl, getLsbD_fill _ (by omega) hk, BitVec.getLsbD_ushiftRight]
        split
        · rename_i hinside
          have hnot : ¬ 256 - s ≤ k := by omega
          simp [hin, hnot]
        · rename_i hbeyond
          have hle : 256 - s ≤ k := by omega
          simp [hin, hle]

end Bits

end ZbxChain.Evm
