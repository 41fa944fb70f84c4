import ZbxChain.Evm.WordArithmetic

/-! # The arithmetic of words is exact, and where it is not

A sum or product modulo a word can lose its top bit. The byte that is extended is
overwritten when it is negative, and a distance is read modulo `2^64`.
-/
namespace ZbxChain.Evm
open Bytes Word

section Powers

theorem toNat_shrOne (e : Word) : (ofBytes (shrOneBytes 0 e.toBigEndian)).toNat = e.toNat / 2 := by
  have hcarry : (0 : UInt8).toNat % 128 = 0 := rfl
  have hvalue := ofBytesBE_shrOneBytes hcarry e.toBigEndian
  have hzero : (0 : UInt8).toNat = 0 := rfl
  rw [toNat_ofBytes ((length_shrOneBytes _ _).trans (length_word e)), hvalue, ofBytesBE_word, hzero]
  simp

theorem lowBit_iff (e : Word) : e.byte 31 &&& 1 = 1 ↔ e.toNat % 2 = 1 := by
  have hone : (1 : UInt8).toNat = 1 := rfl
  rw [← UInt8.toNat_inj, UInt8.toNat_and, hone, Nat.and_one_is_mod, toNat_byte (by decide)]
  simp

/-- Square and multiply: the result times the power that is left. -/
theorem toNat_expLoop {fuel : ℕ} (result b e : Word) (he : e.toNat < 2 ^ fuel) :
    (expLoop fuel result b e).toNat = result.toNat * b.toNat ^ e.toNat % 2 ^ 256 := by
  induction fuel generalizing result b e with
  | zero =>
    have hzero : e.toNat = 0 := by simpa using he
    rw [hzero, pow_zero, Nat.mul_one]
    exact (Nat.mod_eq_of_lt result.isLt).symm
  | succ fuel ih =>
    unfold expLoop u256IsZero
    by_cases hzero : e = 0
    · subst hzero
      have hexp : (0 : Word).toNat = 0 := rfl
      simp only [decide_true, if_true]
      rw [hexp, pow_zero, Nat.mul_one]
      exact (Nat.mod_eq_of_lt result.isLt).symm
    · have hhalf : (ofBytes (shrOneBytes 0 e.toBigEndian)).toNat < 2 ^ fuel := by
        rw [toNat_shrOne]
        rw [pow_succ] at he
        omega
      have hsquare : (b.toNat * b.toNat % 2 ^ 256) ^ (e.toNat / 2) ≡ b.toNat ^ (2 * (e.toNat / 2)) [MOD 2 ^ 256] := by
        rw [pow_mul, pow_two]
        exact (Nat.mod_modEq _ _).pow _
      simp only [hzero, decide_false, Bool.false_eq_true, if_false]
      rw [ih _ _ _ hhalf, toNat_shrOne, u256Mul_eq b b, BitVec.toNat_mul]
      split
      · rename_i hodd
        have hexp : e.toNat = 2 * (e.toNat / 2) + 1 := by
          have hmod := (lowBit_iff e).mp hodd
          omega
        have hproduct := ((Nat.mod_modEq (result.toNat * b.toNat) (2 ^ 256)).mul hsquare)
        rw [u256Mul_eq, BitVec.toNat_mul]
        refine hproduct.trans ?_
        conv_rhs => rw [hexp, pow_succ]
        have hcomm : result.toNat * b.toNat * b.toNat ^ (2 * (e.toNat / 2)) =
            result.toNat * (b.toNat ^ (2 * (e.toNat / 2)) * b.toNat) := by ring
        rw [hcomm]
      · rename_i heven
        have hexp : e.toNat = 2 * (e.toNat / 2) := by
          have hmod := mt (lowBit_iff e).mpr heven
          omega
        refine (hsquare.mul_left result.toNat).trans ?_
        rw [← hexp]

theorem u256Exp_eq (a b : Word) : u256Exp a b = BitVec.ofNat 256 (a.toNat ^ b.toNat) := by
  apply BitVec.eq_of_toNat_eq
  have hone : (u256FromU64 1).toNat = 1 := toNat_u256FromU64 1
  unfold u256Exp u256IsZero
  rw [BitVec.toNat_ofNat]
  by_cases hzero : b = 0
  · subst hzero
    have hexp : (0 : Word).toNat = 0 := rfl
    simp only [decide_true, if_true]
    rw [hone, hexp, pow_zero]
    rfl
  · simp only [hzero, decide_false, Bool.false_eq_true, if_false]
    rw [toNat_expLoop _ _ _ b.isLt, hone, Nat.one_mul]

end Powers

section Signed
variable {a b : Word}

theorem minInt_eq : ofFn (fun i => if i = 0 then 0x80 else 0) = BitVec.intMin 256 := by decide +kernel

theorem oneWord_eq : ofFn (fun i => if i = 31 then 1 else 0) = 1 := by decide +kernel

theorem ofInt_tdiv (a b : Word) : BitVec.ofInt 256 (a.toInt.tdiv b.toInt) = a.sdiv b := by
  apply BitVec.eq_of_toInt_eq
  rw [BitVec.toInt_ofInt, BitVec.toInt_sdiv]

theorem ofInt_tmod (a b : Word) : BitVec.ofInt 256 (a.toInt.tmod b.toInt) = a.srem b := by
  rw [← BitVec.toInt_srem, BitVec.ofInt_toInt]

theorem u256Sdiv_eq (a b : Word) : u256Sdiv a b = BitVec.ofInt 256 (a.toInt.tdiv b.toInt) := by
  rw [ofInt_tdiv, BitVec.sdiv_eq]
  unfold u256Sdiv u256IsZero
  simp only [isNegative_eq, negate_eq, u256Div_eq, minInt_eq, oneWord_eq, BitVec.udiv_eq]
  by_cases hzero : b = 0
  · subst hzero
    cases a.msb <;> simp
  · simp only [hzero, decide_false, Bool.false_eq_true, if_false]
    split
    · rename_i hspecial
      rw [hspecial.1, hspecial.2]
      decide +kernel
    · cases a.msb <;> cases b.msb <;> rfl

theorem u256Smod_eq (a b : Word) :
    u256Smod a b = if b = 0 then 0 else BitVec.ofInt 256 (a.toInt.tmod b.toInt) := by
  rw [ofInt_tmod, BitVec.srem_eq]
  unfold u256Smod u256IsZero
  simp only [isNegative_eq, negate_eq, u256Mod_eq]
  by_cases hzero : b = 0
  · simp [hzero]
  · have hnegated : -b ≠ 0 := fun h => hzero (BitVec.neg_eq_zero_iff.mp h)
    simp only [hzero, decide_false, Bool.false_eq_true, if_false]
    have hkeep : ∀ r : Word, (if (true && !decide (r = 0)) = true then -r else r) = -r := by
      intro r
      by_cases hr : r = 0
      · simp [hr]
      · simp only [hr, decide_false, Bool.not_false, Bool.and_self, if_true]
    cases a.msb with
    | false =>
      cases b.msb <;> simp only [Bool.false_and, Bool.false_eq_true, if_false, if_true, hzero, hnegated]
    | true =>
      cases b.msb with
      | false =>
        simp only [Bool.false_eq_true, if_false, if_true, hzero]
        exact hkeep _
      | true =>
        simp only [if_true, hnegated, if_false]
        exact hkeep _

end Signed

section Positions
variable {a b : Word}

/-- SIGNEXTEND: the byte numbered `b` from the last one on is the sign byte. -/
def signextended (b x : Word) : Word :=
  if 31 ≤ b.toNat then x else (x.setWidth (8 * (b.toNat + 1))).signExtend 256

/-- BYTE: the bytes are numbered from the first one on. -/
def byteOf (i x : Word) : Word := if 32 ≤ i.toNat then 0 else BitVec.ofNat 256 (x.toNat / 256 ^ (31 - i.toNat) % 256)

theorem getLsbD_signextended {k j : ℕ} (x : Word) (hj : j < 256) :
    ((x.setWidth (8 * (k + 1))).signExtend 256).getLsbD j =
      if j < 8 * (k + 1) then x.getLsbD j else x.getLsbD (8 * k + 7) := by
  rw [BitVec.getLsbD_signExtend]
  split
  · rename_i hlow
    simp [hj, hlow]
  · have hlast : 8 * (k + 1) - 1 = 8 * k + 7 := by omega
    have hpositive : 0 < 8 * (k + 1) := by omega
    rw [BitVec.msb_setWidth]
    simp [hj, hlast]

/-- A negative byte becomes `0xFF`; the bytes in front of it get its sign. -/
theorem getLsbD_u256Signextend {k j : ℕ} {b x : Word} (hb : (u256ToU64 b).toNat = k) (hk : k < 31) (hj : j < 256) :
    (u256Signextend b x).getLsbD j =
      if j < 8 * k then x.getLsbD j else if j < 8 * (k + 1) then x.getLsbD (8 * k + 7) || x.getLsbD j
      else x.getLsbD (8 * k + 7) := by
  have hsign : (x.byte (31 - k) &&& 0x80 != 0) = x.getLsbD (8 * k + 7) := by
    rw [signBit_eq, testBit_byte (by omega) (by decide)]
    congr 1
    omega
  have hmod : j % 8 < 8 := Nat.mod_lt _ (by decide)
  have hones : (0xFF : UInt8).toNat = 2 ^ 8 - 1 := rfl
  have hmask : (0x7F : UInt8).toNat = 2 ^ 7 - 1 := rfl
  unfold u256Signextend
  rw [hb]
  dsimp only
  rw [if_neg (by omega), getLsbD_ofFn _ hj, hsign]
  by_cases hlow : j < 8 * k
  · rw [if_neg (by omega), if_neg (by omega), if_pos hlow, ← getLsbD_byte hj]
  · rw [if_neg hlow]
    by_cases hown : j < 8 * (k + 1)
    · have hindex : 31 - j / 8 = 31 - k := by omega
      rw [if_neg (by omega), if_pos hindex, if_pos hown]
      cases hbit : x.getLsbD (8 * k + 7) with
      | true =>
        rw [if_pos rfl, UInt8.toNat_or, Nat.testBit_or, hones, Nat.testBit_two_pow_sub_one]
        simp [hmod]
      | false =>
        rw [if_neg (by decide), UInt8.toNat_and, Nat.testBit_and, hmask, Nat.testBit_two_pow_sub_one, ← getLsbD_byte hj]
        by_cases hlast : j % 8 < 7
        · simp [hlast]
        · have htop : j = 8 * k + 7 := by omega
          rw [htop, hbit]
          rfl
    · rw [if_pos (by omega), if_neg hown]
      cases x.getLsbD (8 * k + 7) with
      | true =>
        rw [if_pos rfl, hones, Nat.testBit_two_pow_sub_one]
        simp [hmod]
      | false => simp

theorem toNat_eq_ones_iff (x : UInt8) : x.toNat = 255 ↔ ∀ j < 8, x.toNat.testBit j = true := by
  have hones : 255 = 2 ^ 8 - 1 := rfl
  constructor
  · intro h j hj
    rw [h, hones, Nat.testBit_two_pow_sub_one]
    exact decide_eq_true hj
  · intro h
    apply Nat.eq_of_testBit_eq
    intro j
    rw [hones, Nat.testBit_two_pow_sub_one]
    by_cases hj : j < 8
    · rw [h j hj, decide_eq_true hj]
    · rw [testBit_toNat_lt (by omega), decide_eq_false hj]

theorem testBit_seven_iff (x : UInt8) : x.toNat.testBit 7 = false ↔ x.toNat < 128 := by
  have hlt := x.toNat_lt
  rw [Nat.testBit_eq_decide_div_mod_eq]
  simp
  omega

/-- The extension is right when the sign byte is not negative, or all ones already. -/
theorem u256Signextend_eq_iff {b x : Word} (hb : b.toNat < 31) :
    u256Signextend b x = signextended b x ↔
      (x.byte (31 - b.toNat)).toNat < 128 ∨ (x.byte (31 - b.toNat)).toNat = 255 := by
  have hindex : (u256ToU64 b).toNat = b.toNat := by
    rw [toNat_u256ToU64]
    exact Nat.mod_eq_of_lt (by omega)
  have hbits : ∀ j < 8, (x.byte (31 - b.toNat)).toNat.testBit j = x.getLsbD (8 * b.toNat + j) := by
    intro j hj
    rw [testBit_byte (by omega) hj]
    congr 2
    omega
  rw [signextended, if_neg (by omega), ← testBit_seven_iff, toNat_eq_ones_iff, hbits 7 (by decide)]
  constructor
  · intro h
    cases hsign : x.getLsbD (8 * b.toNat + 7) with
    | false => exact Or.inl rfl
    | true =>
      right
      intro j hj
      have hbit := congrArg (fun word => BitVec.getLsbD word (8 * b.toNat + j)) h
      rw [getLsbD_u256Signextend hindex hb (by omega), getLsbD_signextended x (by omega), if_neg (by omega),
        if_pos (by omega), if_pos (by omega), hsign] at hbit
      rw [hbits j hj, ← hbit]
      rfl
  · intro h
    apply BitVec.eq_of_getLsbD_eq
    intro j hj
    rw [getLsbD_u256Signextend hindex hb hj, getLsbD_signextended x hj]
    by_cases hlow : j < 8 * b.toNat
    · rw [if_pos hlow, if_pos (by omega)]
    · rw [if_neg hlow]
      split
      · rename_i hown
        rcases h with hpositive | hones
        · rw [hpositive]
          rfl
        · have hbit := hones (j - 8 * b.toNat) (by omega)
          rw [hbits _ (by omega), Nat.add_sub_cancel' (by omega)] at hbit
          rw [hbit, Bool.or_true]
      · rfl

theorem u256Signextend_of_le {b x : Word} (hb : 31 ≤ b.toNat) (hsmall : b.toNat < 2 ^ 64) :
    u256Signextend b x = signextended b x := by
  have hindex : (u256ToU64 b).toNat = b.toNat := by
    rw [toNat_u256ToU64]
    exact Nat.mod_eq_of_lt hsmall
  rw [u256Signextend, signextended, hindex, if_pos hb, if_pos hb]

theorem u256Signextend_zero (b : Word) : u256Signextend b 0 = 0 := by
  by_cases hk : (u256ToU64 b).toNat < 31
  · apply BitVec.eq_of_getLsbD_eq
    intro j hj
    rw [getLsbD_u256Signextend rfl hk hj]
    simp
  · rw [u256Signextend, if_pos (by omega)]

theorem shl_eq_zero_iff {val : Word} {s : ℕ} : val <<< s = 0 ↔ 2 ^ (256 - s) ∣ val.toNat := by
  by_cases hs : 256 ≤ s
  · have hexp : 256 - s = 0 := by omega
    rw [hexp, pow_zero]
    exact iff_of_true (shl_of_le hs) (one_dvd _)
  · have hwidth : 2 ^ 256 = 2 ^ (256 - s) * 2 ^ s := by
      rw [← pow_add]
      congr 1
      omega
    have hzero : (0 : Word).toNat = 0 := rfl
    rw [← BitVec.toNat_inj, BitVec.toNat_shiftLeft, hzero, Nat.shiftLeft_eq, ← Nat.dvd_iff_mod_eq_zero, hwidth]
    exact Nat.mul_dvd_mul_iff_right (Nat.two_pow_pos s)

theorem shr_eq_zero_iff {val : Word} {s : ℕ} : val >>> s = 0 ↔ val.toNat < 2 ^ s := by
  have hzero : (0 : Word).toNat = 0 := rfl
  rw [← BitVec.toNat_inj, BitVec.toNat_ushiftRight, hzero, Nat.shiftRight_eq_div_pow, Nat.div_eq_zero_iff]
  have hpow := Nat.two_pow_pos s
  omega

theorem sar_of_lt {val : Word} {s d : ℕ} (hd : 256 ≤ d) (h : val.toNat < 2 ^ s) :
    val.sshiftRight s = val.sshiftRight d := by
  by_cases hs : 256 ≤ s
  · apply BitVec.eq_of_getLsbD_eq
    intro k hk
    have hnear : ¬ s + k < 256 := by omega
    have hfar : ¬ d + k < 256 := by omega
    rw [BitVec.getLsbD_sshiftRight, BitVec.getLsbD_sshiftRight, if_neg hnear, if_neg hfar]
  · have hsign : val.msb = false := by
      have hpow : 2 ^ s ≤ 2 ^ 255 := Nat.pow_le_pow_right (by decide) (by omega)
      rw [BitVec.msb_eq_decide]
      apply decide_eq_false
      omega
    rw [BitVec.sshiftRight_eq_of_msb_false hsign, BitVec.sshiftRight_eq_of_msb_false hsign, shr_of_le hd]
    exact shr_eq_zero_iff.mpr h

end Positions

section Exactness

/-- What the specification of the machine defines, operation by operation: sums and products
modulo `2^256`, quotients rounded toward zero, and zero for a division by zero. -/
structure WordsExact (a b n : Word) : Prop where
  add : u256Add a b = a + b
  sub : u256Sub a b = a - b
  mul : u256Mul a b = a * b
  div : u256Div a b = a / b
  mod : u256Mod a b = if b = 0 then 0 else a % b
  sdiv : u256Sdiv a b = BitVec.ofInt 256 (a.toInt.tdiv b.toInt)
  smod : u256Smod a b = if b = 0 then 0 else BitVec.ofInt 256 (a.toInt.tmod b.toInt)
  addmod : u256Addmod a b n = if n = 0 then 0 else BitVec.ofNat 256 ((a.toNat + b.toNat) % n.toNat)
  mulmod : u256Mulmod a b n = if n = 0 then 0 else BitVec.ofNat 256 (a.toNat * b.toNat % n.toNat)
  exp : u256Exp a b = BitVec.ofNat 256 (a.toNat ^ b.toNat)
  signextend : u256Signextend a b = signextended a b
  byte : u256Byte a b = byteOf a b
  shl : u256Shl a b = b <<< a.toNat
  shr : u256Shr a b = b >>> a.toNat
  sar : u256Sar a b = b.sshiftRight a.toNat

/-- The sign byte is not negative, or all ones; a distance of `2^64` or more moves nothing
out of the word that its low 64 bits do not move out; and the modular sums keep their top bit. -/
structure WordsFit (a b n : Word) : Prop where
  signByte : a.toNat < 31 → b.toNat / 256 ^ a.toNat % 256 < 128 ∨ b.toNat / 256 ^ a.toNat % 256 = 255
  distance : 2 ^ 64 ≤ a.toNat →
    b.toNat < 2 ^ (a.toNat % 2 ^ 64) ∧ 2 ^ (256 - a.toNat % 2 ^ 64) ∣ b.toNat
  sum : ¬ (2 ^ 256 ≤ a.toNat + b.toNat ∧ a.toNat + b.toNat < 2 * n.toNat)
  product : n ≠ 0 → n.toNat ∣ 2 ^ 256 * mulmodLost a b n

variable {a b n : Word}

/-- Words that fit by their size alone. -/
theorem WordsFit.of_small (ha : a.toNat < 2 ^ 64)
    (hsign : a.toNat < 31 → b.toNat / 256 ^ a.toNat % 256 < 128) (hn : n.toNat ≤ 2 ^ 255) : WordsFit a b n where
  signByte := fun h => Or.inl (hsign h)
  distance := fun h => absurd h (by omega)
  sum := not_truncated hn
  product := fun _ => by
    rw [mulmodLost_of_le a b hn]
    exact Nat.dvd_zero _

theorem toNat_residue (hn : n ≠ 0) (x : ℕ) : (BitVec.ofNat 256 (x % n.toNat)).toNat = x % n.toNat := by
  rw [BitVec.toNat_ofNat]
  exact Nat.mod_eq_of_lt (Nat.lt_trans (Nat.mod_lt _ (toNat_pos hn)) n.isLt)

theorem addmod_exact_iff :
    u256Addmod a b n = (if n = 0 then 0 else BitVec.ofNat 256 ((a.toNat + b.toNat) % n.toNat)) ↔
      ¬ Truncated a.toNat b.toNat n.toNat := by
  by_cases hn : n = 0
  · subst hn
    rw [if_pos rfl]
    exact iff_of_true (by simp [u256Addmod, u256IsZero]) (fun h => by
      have hlow := h.1
      have hhigh := h.2
      have hzero : (0 : Word).toNat = 0 := rfl
      omega)
  · rw [if_neg hn, ← BitVec.toNat_inj, toNat_residue hn, toNat_u256Addmod (toNat_pos hn)]
    exact addmodWrapped_eq_iff n.isLt

theorem mulmod_exact_iff :
    u256Mulmod a b n = (if n = 0 then 0 else BitVec.ofNat 256 (a.toNat * b.toNat % n.toNat)) ↔
      (n ≠ 0 → n.toNat ∣ 2 ^ 256 * mulmodLost a b n) := by
  by_cases hn : n = 0
  · subst hn
    rw [if_pos rfl]
    exact iff_of_true (by simp [u256Mulmod, u256IsZero]) (fun h => absurd rfl h)
  · rw [if_neg hn, ← BitVec.toNat_inj, toNat_residue hn, u256Mulmod_eq_iff hn]
    exact ⟨fun h _ => h,fun h => h hn⟩

theorem word_of_shifted {s : ℕ} (hs : s < 32) (hlow : b.toNat < 2 ^ s) (hdvd : 2 ^ (256 - s) ∣ b.toNat) : b = 0 := by
  apply BitVec.eq_of_toNat_eq
  apply Nat.eq_zero_of_dvd_of_lt hdvd
  exact Nat.lt_of_lt_of_le hlow (Nat.pow_le_pow_right (by decide) (by omega))

theorem signextend_exact_iff (hsmall : a.toNat < 2 ^ 64) :
    u256Signextend a b = signextended a b ↔
      (a.toNat < 31 → b.toNat / 256 ^ a.toNat % 256 < 128 ∨ b.toNat / 256 ^ a.toNat % 256 = 255) := by
  by_cases hindex : a.toNat < 31
  · have hexp : 31 - (31 - a.toNat) = a.toNat := by omega
    rw [u256Signextend_eq_iff hindex, toNat_byte (by omega), hexp]
    exact ⟨fun h _ => h,fun h => h hindex⟩
  · exact iff_of_true (u256Signextend_of_le (by omega) hsmall) (fun h => absurd h hindex)

/-- The arithmetic of words is what the specification defines exactly on the operands that
fit. -/
theorem words_exact_iff (a b n : Word) : WordsExact a b n ↔ WordsFit a b n := by
  constructor
  · intro h
    refine ⟨?_,?_,addmod_exact_iff.mp h.addmod,mulmod_exact_iff.mp h.mulmod⟩
    · intro hindex
      exact (signextend_exact_iff (by omega)).mp h.signextend hindex
    · intro hlarge
      have hleft := h.shl
      have hright := h.shr
      rw [u256Shl_eq, shl_of_le (s := a.toNat) (by omega)] at hleft
      rw [u256Shr_eq, shr_of_le (s := a.toNat) (by omega)] at hright
      exact ⟨shr_eq_zero_iff.mp hright,shl_eq_zero_iff.mp hleft⟩
  · rintro ⟨hsign,hdistance,hsum,hproduct⟩
    have hadd := addmod_exact_iff.mpr hsum
    have hmul := mulmod_exact_iff.mpr hproduct
    have hring := And.intro (u256Add_eq a b) (And.intro (u256Sub_eq a b) (u256Mul_eq a b))
    by_cases hsmall : a.toNat < 2 ^ 64
    · have hlow : a.toNat % 2 ^ 64 = a.toNat := Nat.mod_eq_of_lt hsmall
      refine ⟨hring.1,hring.2.1,hring.2.2,u256Div_eq a b,u256Mod_eq a b,u256Sdiv_eq a b,u256Smod_eq a b,hadd,hmul,
        u256Exp_eq a b,(signextend_exact_iff hsmall).mpr hsign,?_,?_,?_,?_⟩
      · rw [u256Byte_eq, hlow]
        rfl
      · rw [u256Shl_eq, hlow]
      · rw [u256Shr_eq, hlow]
      · rw [u256Sar_eq, hlow]
    · obtain ⟨hlow,hdvd⟩ := hdistance (by omega)
      have hempty : ∀ {s : ℕ}, a.toNat % 2 ^ 64 = s → s < 32 → b = 0 := by
        rintro s rfl hs
        exact word_of_shifted hs hlow hdvd
      refine ⟨hring.1,hring.2.1,hring.2.2,u256Div_eq a b,u256Mod_eq a b,u256Sdiv_eq a b,u256Smod_eq a b,hadd,hmul,
        u256Exp_eq a b,?_,?_,?_,?_,?_⟩
      · rw [signextended, if_pos (by omega)]
        by_cases hs : a.toNat % 2 ^ 64 < 31
        · rw [hempty rfl (by omega)]
          exact u256Signextend_zero a
        · rw [u256Signextend, toNat_u256ToU64, if_pos (by omega)]
      · rw [u256Byte_eq, byteOf, if_pos (show 32 ≤ a.toNat by omega)]
        split
        · rfl
        · rename_i hs
          rw [hempty rfl (by omega)]
          simp
      · rw [u256Shl_eq, shl_of_le (s := a.toNat) (by omega)]
        exact shl_eq_zero_iff.mpr hdvd
      · rw [u256Shr_eq, shr_of_le (s := a.toNat) (by omega)]
        exact shr_eq_zero_iff.mpr hlow
      · rw [u256Sar_eq]
        exact sar_of_lt (by omega) hlow

/-- The sum of two halves modulo one more than a half comes out zero. -/
theorem words_lose_top_bit :
    ¬ WordsExact (BitVec.ofNat 256 (2 ^ 255)) (BitVec.ofNat 256 (2 ^ 255)) (BitVec.ofNat 256 (2 ^ 255 + 1)) := by
  intro h
  have hlost : Truncated (BitVec.ofNat 256 (2 ^ 255)).toNat (BitVec.ofNat 256 (2 ^ 255)).toNat
      (BitVec.ofNat 256 (2 ^ 255 + 1)).toNat := by decide +kernel
  exact addmod_exact_iff.mp h.addmod hlost

end Exactness

end ZbxChain.Evm
