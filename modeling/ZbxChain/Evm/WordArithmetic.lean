import ZbxChain.Evm.WordBits

/-! # The arithmetic of words, against that of numbers

Sums, differences and products are exact, and so is long division while its remainder stays
within a word: it leaves one only in the last step of a sum that is longer than a word.

A sum that is longer than a word, and less than twice the modulus, comes out reduced by `2^256`
instead of by the modulus. A product is such a sum in every round, and what its rounds lose adds
up.
-/
namespace ZbxChain.Evm
open Bytes Word

section Ring
variable {a b : Word}

theorem length_word (a : Word) : a.toBigEndian.length = 32 := U256.length_toBigEndian a

theorem addBytes_word (a b : Word) :
    (ofBytes (addBytes a.toBigEndian b.toBigEndian).1).toNat +
      (addBytes a.toBigEndian b.toBigEndian).2 * 2 ^ 256 = a.toNat + b.toNat := by
  have hlen : a.toBigEndian.length = b.toBigEndian.length := by simp
  have hsum := ofBytesBE_addBytes hlen
  rw [toNat_ofBytes ((length_addBytes hlen).trans (length_word a))]
  rwa [ofBytesBE_word, ofBytesBE_word, length_word, pow_width] at hsum

theorem u256Add_eq (a b : Word) : u256Add a b = a + b := by
  apply BitVec.eq_of_toNat_eq
  have hsum := addBytes_word a b
  have hlt := (ofBytes (addBytes a.toBigEndian b.toBigEndian).1).isLt
  rw [BitVec.toNat_add, ← hsum, u256Add, Nat.add_mul_mod_self_right]
  exact (Nat.mod_eq_of_lt hlt).symm

theorem u256Sub_eq (a b : Word) : u256Sub a b = a - b := by
  apply BitVec.eq_of_toNat_eq
  have hlen : a.toBigEndian.length = b.toBigEndian.length := by simp
  obtain ⟨hborrow,hdiff⟩ := ofBytesBE_subBytes hlen
  have hlt := (u256Sub a b).isLt
  have ha := a.isLt
  have hb := b.isLt
  have hout := toNat_ofBytes ((length_subBytes hlen).trans (length_word a))
  rw [ofBytesBE_word, ofBytesBE_word, length_word, ← hout] at hdiff
  change ((u256Sub a b).toNat : ℤ) - _ = _ at hdiff
  rw [BitVec.toNat_sub]
  norm_num at hdiff hlt ha hb ⊢
  omega

theorem negate_eq (a : Word) : negate a = -a := by
  have hone : u256FromU64 1 = 1 := BitVec.eq_of_toNat_eq (toNat_u256FromU64 1)
  rw [negate, u256Add_eq, u256Not_eq, hone, BitVec.neg_eq_not_add]
  rfl

theorem toNat_u256ShlOne (a : Word) : (u256ShlOne a).toNat = 2 * a.toNat % 2 ^ 256 := by
  obtain ⟨-,hvalue⟩ := ofBytesBE_shlOneBytes a.toBigEndian
  have hlt := (u256ShlOne a).isLt
  rw [ofBytesBE_word, length_word, pow_width, ← toNat_ofBytes ((length_shlOneBytes _).trans (length_word a))] at hvalue
  change (u256ShlOne a).toNat + _ = _ at hvalue
  rw [← hvalue, Nat.add_mul_mod_self_right]
  exact (Nat.mod_eq_of_lt hlt).symm

theorem toNat_limb (a : Word) {i : ℕ} (hi : i ≤ 24) :
    (UInt64.ofNat (ofBytesBE ((a.toBigEndian.drop i).take 8))).toNat =
      a.toNat / 256 ^ (24 - i) % 2 ^ 64 := by
  have hlen : (a.toBigEndian.drop i).length = 32 - i := by simp
  have hexp : 32 - i - 8 = 24 - i := by omega
  have hwidth : (256 : ℕ) ^ (32 - i) = 256 ^ (24 - i) * 2 ^ 64 := by
    have hpow : (2 : ℕ) ^ 64 = 256 ^ 8 := rfl
    rw [hpow, ← pow_add]
    congr 1
    omega
  rw [ofBytesBE_take, ofBytesBE_drop, hlen, length_word, ofBytesBE_word, hexp, hwidth,
    Nat.mod_mul_right_div_self, UInt64.toNat_ofNat', Nat.mod_mod]

theorem ofLimbs_toLeLimbs (a : Word) : ofLimbs (toLeLimbs a) = a.toNat := by
  have ha := a.isLt
  simp only [toLeLimbs, List.map_cons, List.map_nil, ofLimbs, toNat_limb a (le_refl 24),
    toNat_limb a (show 16 ≤ 24 by decide), toNat_limb a (show 8 ≤ 24 by decide), toNat_limb a (Nat.zero_le 24)]
  norm_num
  omega

theorem toNat_fromLeLimbs {limbs : List UInt64} (h : limbs.length = 4) :
    (fromLeLimbs limbs).toNat = ofLimbs limbs := by
  have hlen : (limbs.reverse.flatMap beBytes64).length = 32 := by
    simp [List.length_flatMap, List.map_const', h]
  rw [fromLeLimbs, toNat_ofBytes hlen]
  exact ofBytesBE_flatMap limbs

theorem u256Mul_eq (a b : Word) : u256Mul a b = a * b := by
  apply BitVec.eq_of_toNat_eq
  have hrows : ofLimbs (mulRows (toLeLimbs a) (toLeLimbs b) [0,0,0,0]) ≡ _ [MOD _] := ofLimbs_mulRows (by simp [toLeLimbs])
  have hlen : (mulRows (toLeLimbs a) (toLeLimbs b) [0,0,0,0]).length = 4 := length_mulRows _ _ _
  have hzero : ofLimbs [0,0,0,0] = 0 := rfl
  have hwidth : 64 * [(0 : UInt64),0,0,0].length = 256 := rfl
  have hlt := (u256Mul a b).isLt
  rw [ofLimbs_toLeLimbs, ofLimbs_toLeLimbs, hzero, Nat.add_zero, hwidth, ← toNat_fromLeLimbs hlen] at hrows
  change (u256Mul a b).toNat ≡ _ [MOD _] at hrows
  rw [BitVec.toNat_mul, ← hrows]
  exact (Nat.mod_eq_of_lt hlt).symm

end Ring

section Division
variable {a b n r : Word}

def bitOf (a : Word) (i : ℕ) : ℕ := (a.getLsbD (255 - i)).toNat

theorem mod_two_eq (x : ℕ) : x % 2 = (x.testBit 0).toNat := by
  rw [Nat.testBit_zero]
  rcases Nat.mod_two_eq_zero_or_one x with h | h
  · simp [h]
  · simp [h]

theorem toNat_bitAt {i : ℕ} (hi : i < 256) : (bitAt a i).toNat = bitOf a i := by
  have hone : (1 : UInt8).toNat = 1 := rfl
  have hmod : i % 8 < 8 := Nat.mod_lt _ (by decide)
  have hindex : 8 * (31 - i / 8) + (7 - i % 8 + 0) = 255 - i := by omega
  rw [bitAt, UInt8.toNat_and, hone, Nat.and_one_is_mod, mod_two_eq, testBit_shr (by omega),
    testBit_byte (by omega) (by omega), hindex, bitOf]

theorem bitOf_le (a : Word) (i : ℕ) : bitOf a i ≤ 1 := Bool.toNat_le _

theorem toNat_bringDown {bit : UInt8} (hbit : bit.toNat ≤ 1) (r : Word) :
    (bringDown r bit).toNat = 2 * r.toNat % 2 ^ 256 + bit.toNat := by
  have hbits : bringDown r bit = u256ShlOne r ||| BitVec.ofNat 256 bit.toNat := by
    apply BitVec.eq_of_getLsbD_eq
    intro k hk
    rw [bringDown, getLsbD_orByte _ _ (by decide) hk, BitVec.getLsbD_or, BitVec.getLsbD_ofNat]
    by_cases hlow : k < 8
    · have hbyte : k / 8 = 0 := by omega
      have hmod : k % 8 = k := Nat.mod_eq_of_lt hlow
      simp [hbyte, hmod, hk]
    · have hbyte : ¬ k / 8 = 0 := by omega
      have hzero : bit.toNat.testBit k = false := testBit_toNat_lt (by omega)
      simp [hbyte, hzero]
  have heven : 2 * r.toNat % 2 ^ 256 = (r.toNat % 2 ^ 255) <<< 1 := by
    rw [Nat.shiftLeft_eq]
    omega
  have hlow : (BitVec.ofNat 256 bit.toNat).toNat = bit.toNat := by
    rw [BitVec.toNat_ofNat]
    omega
  rw [hbits, BitVec.toNat_or, toNat_u256ShlOne, hlow, heven, ← Nat.shiftLeft_add_eq_or_of_lt (by omega)]

theorem toNat_subtractOnce (r n : Word) :
    (subtractOnce r n).toNat = if r.toNat < n.toNat then r.toNat else r.toNat - n.toNat := by
  unfold subtractOnce u256Lt
  by_cases hlt : r < n
  · have hless : r.toNat < n.toNat := hlt
    simp [hlt, hless]
  · have hle : n.toNat ≤ r.toNat := Nat.not_lt.mp hlt
    have hless : ¬ r.toNat < n.toNat := hlt
    rw [u256Sub_eq]
    simp only [hlt, hless, decide_false, Bool.false_eq_true, if_false]
    exact BitVec.toNat_sub_of_le hle

/-- One round of the division is exact as long as the shifted remainder fits the word. -/
theorem toNat_modStep {bit : UInt8} (hbit : bit.toNat ≤ 1) (hr : r.toNat < n.toNat) :
    (subtractOnce (bringDown r bit) n).toNat =
      if 2 * r.toNat + bit.toNat < 2 ^ 256 then (2 * r.toNat + bit.toNat) % n.toNat
      else 2 * r.toNat + bit.toNat - 2 ^ 256 := by
  have hn := n.isLt
  rw [toNat_subtractOnce, toNat_bringDown hbit]
  split
  · rename_i hless
    split
    · rename_i hin
      rw [Nat.mod_eq_of_lt (b := 2 ^ 256) (by omega), Nat.mod_eq_of_lt (by omega)]
    · omega
  · rename_i hless
    split
    · rename_i hin
      rw [Nat.mod_eq_of_lt (b := 2 ^ 256) (by omega), Nat.mod_eq_sub_mod (by omega), Nat.mod_eq_of_lt (by omega)]
    · omega

def front (a : Word) (k : ℕ) : ℕ := a.toNat / 2 ^ (256 - k)

theorem front_zero (a : Word) : front a 0 = 0 := Nat.div_eq_of_lt a.isLt

theorem front_all (a : Word) : front a 256 = a.toNat := by simp [front]

theorem front_succ (a : Word) {k : ℕ} (hk : k < 256) : front a (k + 1) = 2 * front a k + bitOf a k := by
  have hbit : bitOf a k = a.toNat / 2 ^ (255 - k) % 2 := by
    rw [bitOf, ← BitVec.testBit_toNat, mod_two_eq, Nat.testBit_div_two_pow, Nat.zero_add]
  have hexp : 256 - k = (255 - k) + 1 := by omega
  have hnext : 256 - (k + 1) = 255 - k := by omega
  rw [front, front, hbit, hexp, hnext, pow_succ, ← Nat.div_div_eq_div_mul]
  omega

/-- The rounds over the first bits, in a word that holds them all. -/
theorem toNat_modPrefix {c k : ℕ} (hn : 0 < n.toNat) (hr : r.toNat = c % n.toNat) (hk : k ≤ 256)
    (hword : c * 2 ^ k + front a k < 2 ^ 256) :
    ((List.range k).foldl (fun r i => subtractOnce (bringDown r (bitAt a i)) n) r).toNat =
      (c * 2 ^ k + front a k) % n.toNat := by
  induction k with
  | zero => simp [front_zero, hr]
  | succ k ih =>
    have hfront := front_succ a (k := k) (by omega)
    have hbit := toNat_bitAt (a := a) (i := k) (by omega)
    have hle := bitOf_le a k
    have hdouble : c * (2 ^ k * 2) + (2 * front a k + bitOf a k) =
        2 * (c * 2 ^ k + front a k) + bitOf a k := by ring
    rw [hfront, pow_succ, hdouble] at hword ⊢
    have hprev := ih (by omega) (by omega)
    rw [List.range_succ, List.foldl_append, List.foldl_cons, List.foldl_nil]
    generalize (List.range k).foldl (fun r i => subtractOnce (bringDown r (bitAt a i)) n) r = rem at hprev ⊢
    have hrem : rem.toNat < n.toNat := hprev ▸ Nat.mod_lt _ hn
    have hsmall := Nat.mod_le (c * 2 ^ k + front a k) n.toNat
    rw [toNat_modStep (by omega) hrem, hbit, hprev, if_pos (by omega)]
    rw [Nat.add_mod, Nat.mul_mod_mod, ← Nat.add_mod]

theorem u256Mod_eq (a b : Word) : u256Mod a b = if b = 0 then 0 else a % b := by
  unfold u256Mod u256IsZero modLoop
  by_cases hb : b = 0
  · simp [hb]
  · have hpositive : 0 < b.toNat := Nat.pos_of_ne_zero fun h => hb (BitVec.eq_of_toNat_eq h)
    have hall := toNat_modPrefix (a := a) (n := b) (r := 0) (c := 0) (k := 256) hpositive (by simp) le_rfl
      (by rw [front_all, Nat.zero_mul, Nat.zero_add]; exact a.isLt)
    simp only [hb, decide_false, Bool.false_eq_true, if_false]
    apply BitVec.eq_of_toNat_eq
    rw [hall, front_all, BitVec.toNat_umod, Nat.zero_mul, Nat.zero_add]

theorem toNat_quotientBit {q : Word} {k Q : ℕ} (hk : k < 256) (hq : q.toNat = Q * 2 ^ (256 - k)) :
    (orByte q (k / 8) (1 <<< UInt8.ofNat (7 - k % 8))).toNat = (2 * Q + 1) * 2 ^ (255 - k) := by
  have hexp : 256 - k = (255 - k) + 1 := by omega
  have hbits : orByte q (k / 8) (1 <<< UInt8.ofNat (7 - k % 8)) = q ||| BitVec.ofNat 256 (2 ^ (255 - k)) := by
    apply BitVec.eq_of_getLsbD_eq
    intro j hj
    have hone : (1 : UInt8).toNat = 2 ^ 0 := rfl
    rw [getLsbD_orByte _ _ (by omega) hj, BitVec.getLsbD_or, BitVec.getLsbD_ofNat,
      testBit_shl (by omega) (Nat.mod_lt _ (by decide)), hone, Nat.testBit_two_pow, Nat.testBit_two_pow]
    congr 1
    rw [← Bool.decide_and, ← Bool.decide_and, ← Bool.decide_and]
    apply decide_eq_decide.mpr
    omega
  have hlow : (BitVec.ofNat 256 (2 ^ (255 - k))).toNat = 2 ^ (255 - k) := by
    rw [BitVec.toNat_ofNat]
    exact Nat.mod_eq_of_lt (Nat.pow_lt_pow_right (by decide) (by omega))
  have hlt : 2 ^ (255 - k) < 2 ^ (256 - k) := Nat.pow_lt_pow_right (by decide) (by omega)
  rw [hbits, BitVec.toNat_or, hlow, hq, ← Nat.shiftLeft_eq, ← Nat.shiftLeft_add_eq_or_of_lt hlt, Nat.shiftLeft_eq,
    hexp, pow_succ]
  ring

theorem toNat_divPrefix {k : ℕ} (hb : 0 < b.toNat) (hk : k ≤ 256) :
    let state := (List.range k).foldl (fun (quotient,remainder) i =>
      let remainder := bringDown remainder (bitAt a i)
      if u256Lt remainder b then (quotient,remainder)
      else (orByte quotient (i / 8) (1 <<< UInt8.ofNat (7 - i % 8)),u256Sub remainder b)) ((0,0) : Word × Word)
    state.1.toNat = front a k / b.toNat * 2 ^ (256 - k) ∧ state.2.toNat = front a k % b.toNat := by
  induction k with
  | zero => simp [front_zero]
  | succ k ih =>
    have hprev := ih (by omega)
    have hfront := front_succ a (k := k) (by omega)
    have hbit := toNat_bitAt (a := a) (i := k) (by omega)
    have hle := bitOf_le a k
    have hword : front a (k + 1) < 2 ^ 256 := Nat.lt_of_le_of_lt (Nat.div_le_self _ _) a.isLt
    have hexp : 256 - k = (255 - k) + 1 := by omega
    have hnext : 256 - (k + 1) = 255 - k := by omega
    rw [List.range_succ, List.foldl_append, List.foldl_cons, List.foldl_nil, hfront, hnext]
    obtain ⟨hquotient,hremainder⟩ := hprev
    generalize List.foldl _ ((0,0) : Word × Word) (List.range k) = state at hquotient hremainder ⊢
    obtain ⟨quotient,remainder⟩ := state
    dsimp only at hquotient hremainder ⊢
    have hdown : (bringDown remainder (bitAt a k)).toNat = 2 * remainder.toNat + bitOf a k := by
      have hsmall := Nat.mod_le (front a k) b.toNat
      rw [toNat_bringDown (by omega), hbit, Nat.mod_eq_of_lt (by omega)]
    have hsplit := Nat.div_add_mod (front a k) b.toNat
    have hrem := Nat.mod_lt (front a k) hb
    have hvalue : 2 * front a k + bitOf a k =
        b.toNat * (2 * (front a k / b.toNat)) + (2 * (front a k % b.toNat) + bitOf a k) := by
      have hdouble : 2 * (b.toNat * (front a k / b.toNat) + front a k % b.toNat) = 2 * front a k := by rw [hsplit]
      linarith
    rw [hvalue, Nat.mul_add_div hb, Nat.mul_add_mod]
    unfold u256Lt
    by_cases hless : bringDown remainder (bitAt a k) < b
    · have hlt : 2 * (front a k % b.toNat) + bitOf a k < b.toNat := by
        have hbound : (bringDown remainder (bitAt a k)).toNat < b.toNat := hless
        omega
      rw [if_pos (by simpa using hless), Nat.div_eq_of_lt hlt, Nat.mod_eq_of_lt hlt]
      refine ⟨?_,by rw [hdown, hremainder]⟩
      rw [hquotient, hexp, pow_succ]
      ring
    · have hge : b.toNat ≤ 2 * (front a k % b.toNat) + bitOf a k := by
        have hbound : ¬ (bringDown remainder (bitAt a k)).toNat < b.toNat := hless
        omega
      have hone : (2 * (front a k % b.toNat) + bitOf a k) / b.toNat = 1 :=
        Nat.div_eq_of_lt_le (by omega) (by omega)
      rw [if_neg (by simpa using hless), hone]
      refine ⟨toNat_quotientBit (by omega) hquotient,?_⟩
      have hsub : b ≤ bringDown remainder (bitAt a k) := BitVec.not_lt.mp hless
      have hlast : 2 * (front a k % b.toNat) + bitOf a k - b.toNat < b.toNat := by omega
      rw [u256Sub_eq, BitVec.toNat_sub_of_le hsub, hdown, hremainder, Nat.mod_eq_sub_mod hge, Nat.mod_eq_of_lt hlast]

theorem u256Div_eq (a b : Word) : u256Div a b = a / b := by
  unfold u256Div u256IsZero
  by_cases hb : b = 0
  · simp [hb]
  · have hpositive : 0 < b.toNat := Nat.pos_of_ne_zero fun h => hb (BitVec.eq_of_toNat_eq h)
    have hall := (toNat_divPrefix (a := a) (b := b) hpositive le_rfl).1
    simp only [hb, decide_false, Bool.false_eq_true, if_false]
    apply BitVec.eq_of_toNat_eq
    rw [hall, front_all, BitVec.toNat_udiv]
    simp

end Division

section Modular

/-- The last step of the long division loses the top bit of the sum. -/
def Truncated (x y n : ℕ) : Prop := 2 ^ 256 ≤ x + y ∧ x + y < 2 * n

instance (x y n : ℕ) : Decidable (Truncated x y n) := inferInstanceAs (Decidable (_ ∧ _))

/-- `u256_addmod` on numbers. -/
def addmodWrapped (x y n : ℕ) : ℕ := if Truncated x y n then x + y - 2 ^ 256 else (x + y) % n

variable {a b n : Word}

theorem toNat_pos (h : n ≠ 0) : 0 < n.toNat := Nat.pos_of_ne_zero fun hzero => h (BitVec.eq_of_toNat_eq hzero)

theorem toNat_modWrap (hn : 0 < n.toNat) (s : Word) :
    (modLoop (subtractOnce (bringDown 0 1) n) s n).toNat =
      if 2 ^ 256 + s.toNat < 2 * n.toNat then s.toNat else (2 ^ 256 + s.toNat) % n.toNat := by
  have hone : (1 : UInt8).toNat = 1 := rfl
  have hzero : (0 : Word).toNat = 0 := rfl
  have hstart : (subtractOnce (bringDown 0 1) n).toNat = 1 % n.toNat := by
    rw [toNat_modStep (by decide) (by rw [hzero]; exact hn), hone, hzero]
    rfl
  have hs := s.isLt
  have hfront := front_succ s (k := 255) (by decide)
  have hbit := toNat_bitAt (a := s) (i := 255) (by decide)
  have hle := bitOf_le s 255
  rw [front_all] at hfront
  have hprev := toNat_modPrefix (a := s) (c := 1) (k := 255) hn hstart (by decide) (by omega)
  have hrange : List.range 256 = List.range 255 ++ [255] := List.range_succ
  rw [modLoop, hrange, List.foldl_append, List.foldl_cons, List.foldl_nil]
  generalize (List.range 255).foldl _ (subtractOnce (bringDown 0 1) n) = r at hprev ⊢
  have hr : r.toNat < n.toNat := hprev ▸ Nat.mod_lt _ hn
  have hn' := n.isLt
  rw [toNat_modStep (by omega) hr, hbit]
  by_cases hlow : 1 * 2 ^ 255 + front s 255 < n.toNat
  · rw [Nat.mod_eq_of_lt hlow] at hprev
    rw [if_neg (by omega), if_pos (by omega)]
    omega
  · have hsmall : (1 * 2 ^ 255 + front s 255) % n.toNat ≤ 1 * 2 ^ 255 + front s 255 - n.toNat := by
      rw [Nat.mod_eq_sub_mod (by omega)]
      exact Nat.mod_le _ _
    have hvalue : 2 ^ 256 + s.toNat = 2 * (1 * 2 ^ 255 + front s 255) + bitOf s 255 := by omega
    rw [if_pos (by omega), if_neg (by omega), hprev, hvalue, Nat.add_mod, Nat.mul_mod_mod, ← Nat.add_mod]

theorem toNat_u256Addmod (hn : 0 < n.toNat) (a b : Word) :
    (u256Addmod a b n).toNat = addmodWrapped a.toNat b.toNat n.toNat := by
  have hne : n ≠ 0 := by
    rintro rfl
    cases hn
  have hsum := addBytes_word a b
  have hcarry : (addBytes a.toBigEndian b.toBigEndian).2 ≤ 1 := by
    have ha := a.isLt
    have hb := b.isLt
    omega
  have hs := (ofBytes (addBytes a.toBigEndian b.toBigEndian).1).isLt
  have hn' := n.isLt
  unfold u256Addmod u256IsZero addmodWrapped
  simp only [hne, decide_false, Bool.false_eq_true, if_false]
  split
  · rename_i hone
    rw [toNat_modWrap hn]
    rw [hone] at hsum
    by_cases hless : a.toNat + b.toNat < 2 * n.toNat
    · have htruncated : Truncated a.toNat b.toNat n.toNat := ⟨by omega,hless⟩
      rw [if_pos (by omega), if_pos htruncated]
      omega
    · have hwhole : ¬ Truncated a.toNat b.toNat n.toNat := fun h => hless h.2
      rw [if_neg (by omega), if_neg hwhole]
      congr 1
      omega
  · rename_i hnone
    have hwhole : ¬ Truncated a.toNat b.toNat n.toNat := fun h => by
      have hlow := h.1
      omega
    rw [u256Mod_eq, if_neg hne, BitVec.toNat_umod, if_neg hwhole]
    congr 1
    omega

theorem addmodWrapped_lt {x y m : ℕ} (hm : 0 < m) (hword : m < 2 ^ 256) : addmodWrapped x y m < m := by
  unfold addmodWrapped
  split
  · rename_i h
    obtain ⟨hlow,hhigh⟩ := h
    omega
  · exact Nat.mod_lt _ hm

theorem addmodWrapped_modEq (x y m : ℕ) :
    addmodWrapped x y m + 2 ^ 256 * (decide (Truncated x y m)).toNat ≡ x + y [MOD m] := by
  unfold addmodWrapped
  by_cases h : Truncated x y m
  · rw [if_pos h]
    simp only [h, decide_true, Bool.toNat_true, Nat.mul_one]
    rw [Nat.sub_add_cancel h.1]
  · rw [if_neg h]
    simp only [h, decide_false, Bool.toNat_false, Nat.mul_zero, Nat.add_zero]
    exact Nat.mod_modEq _ _

theorem addmodWrapped_eq_iff {x y m : ℕ} (hword : m < 2 ^ 256) :
    addmodWrapped x y m = (x + y) % m ↔ ¬ Truncated x y m := by
  unfold addmodWrapped
  constructor
  · intro h htruncated
    rw [if_pos htruncated] at h
    obtain ⟨hlow,hhigh⟩ := htruncated
    rw [Nat.mod_eq_sub_mod (by omega), Nat.mod_eq_of_lt (by omega)] at h
    omega
  · intro h
    rw [if_neg h]

/-- A round of `u256_mulmod` on numbers, and what the rounds have lost so far. -/
def mulmodRound (a n : ℕ) (state : ℕ × ℕ) (bit : ℕ) : ℕ × ℕ :=
  let doubled := addmodWrapped state.1 state.1 n
  let lost := 2 * state.2 + (decide (Truncated state.1 state.1 n)).toNat
  if bit = 1 then (addmodWrapped doubled a n,lost + (decide (Truncated doubled a n)).toNat) else (doubled,lost)

def mulmodRounds (a b : Word) (n k : ℕ) : ℕ × ℕ :=
  (List.range k).foldl (fun state i => mulmodRound a.toNat n state (bitOf b i)) (0,0)

/-- How often the sums of `u256_mulmod` are truncated, each time counted twice in every later
round. -/
def mulmodLost (a b n : Word) : ℕ := (mulmodRounds a b n.toNat 256).2

theorem not_truncated {x y m : ℕ} (hm : m ≤ 2 ^ 255) : ¬ Truncated x y m := by
  rintro ⟨hlow,hhigh⟩
  omega

theorem mulmodRound_of_le {x m bit : ℕ} {state : ℕ × ℕ} (hm : m ≤ 2 ^ 255) (hstate : state.2 = 0) :
    (mulmodRound x m state bit).2 = 0 := by
  have hlost : ∀ x y, (decide (Truncated x y m)).toNat = 0 := fun x y => by
    rw [decide_eq_false (not_truncated hm)]
    rfl
  unfold mulmodRound
  dsimp only
  rw [hlost, hstate]
  split
  · dsimp only
    rw [hlost]
  · rfl

/-- Below half a word no sum of a product is truncated. -/
theorem mulmodLost_of_le (a b : Word) (hn : n.toNat ≤ 2 ^ 255) : mulmodLost a b n = 0 := by
  have hrounds : ∀ k, (mulmodRounds a b n.toNat k).2 = 0 := by
    intro k
    induction k with
    | zero => rfl
    | succ k ih =>
      simp only [mulmodRounds, List.range_succ, List.foldl_append, List.foldl_cons, List.foldl_nil] at ih ⊢
      exact mulmodRound_of_le hn ih
  exact hrounds 256

theorem mulmodRound_spec {x m bit acc lost F : ℕ} (hm : 0 < m) (hword : m < 2 ^ 256) (hbit : bit ≤ 1)
    (h : acc + 2 ^ 256 * lost ≡ x * F [MOD m]) :
    (mulmodRound x m (acc,lost) bit).1 < m ∧
      (mulmodRound x m (acc,lost) bit).1 + 2 ^ 256 * (mulmodRound x m (acc,lost) bit).2 ≡
        x * (2 * F + bit) [MOD m] := by
  have hdouble := addmodWrapped_modEq acc acc m
  unfold mulmodRound
  dsimp only
  generalize (decide (Truncated acc acc m)).toNat = first at hdouble ⊢
  have hlt := addmodWrapped_lt (x := acc) (y := acc) hm hword
  generalize addmodWrapped acc acc m = doubled at hdouble hlt ⊢
  have hshifted : doubled + 2 ^ 256 * (2 * lost + first) ≡ x * (2 * F) [MOD m] := by
    have hsum := (hdouble.add_right (2 ^ 256 * (2 * lost))).trans
      (show acc + acc + 2 ^ 256 * (2 * lost) ≡ x * (2 * F) [MOD m] by
        have htwice := h.mul_left 2
        have hl : 2 * (acc + 2 ^ 256 * lost) = acc + acc + 2 ^ 256 * (2 * lost) := by ring
        have hr : 2 * (x * F) = x * (2 * F) := by ring
        rwa [hl, hr] at htwice)
    have hl : doubled + 2 ^ 256 * first + 2 ^ 256 * (2 * lost) = doubled + 2 ^ 256 * (2 * lost + first) := by ring
    rwa [hl] at hsum
  split
  · rename_i hone
    refine ⟨addmodWrapped_lt hm hword,?_⟩
    have hadd := addmodWrapped_modEq doubled x m
    generalize (decide (Truncated doubled x m)).toNat = second at hadd ⊢
    generalize addmodWrapped doubled x m = out at hadd ⊢
    have hsum := (hadd.add_right (2 ^ 256 * (2 * lost + first))).trans
      (show doubled + x + 2 ^ 256 * (2 * lost + first) ≡ x * (2 * F + bit) [MOD m] by
        have hmore := hshifted.add_right x
        have hl : doubled + 2 ^ 256 * (2 * lost + first) + x = doubled + x + 2 ^ 256 * (2 * lost + first) := by ring
        have hr : x * (2 * F) + x = x * (2 * F + bit) := by rw [hone]; ring
        rwa [hl, hr] at hmore)
    have hl : out + 2 ^ 256 * second + 2 ^ 256 * (2 * lost + first) = out + 2 ^ 256 * (2 * lost + first + second) := by
      ring
    rwa [hl] at hsum
  · rename_i hnone
    have hzero : bit = 0 := by omega
    rw [hzero]
    exact ⟨hlt,hshifted⟩

theorem mulmodRounds_spec (hn : 0 < n.toNat) (a b : Word) {k : ℕ} (hk : k ≤ 256) :
    (mulmodRounds a b n.toNat k).1 < n.toNat ∧
      (mulmodRounds a b n.toNat k).1 + 2 ^ 256 * (mulmodRounds a b n.toNat k).2 ≡
        a.toNat * front b k [MOD n.toNat] := by
  induction k with
  | zero => exact ⟨hn,by simp [mulmodRounds, front_zero, Nat.ModEq.refl]⟩
  | succ k ih =>
    obtain ⟨-,hprev⟩ := ih (by omega)
    have hround := mulmodRound_spec hn n.isLt (bitOf_le b k) hprev
    rw [← front_succ b (by omega)] at hround
    simpa only [mulmodRounds, List.range_succ, List.foldl_append, List.foldl_cons, List.foldl_nil] using hround

theorem toNat_mulmodPrefix (hn : 0 < n.toNat) (a b : Word) {k : ℕ} (hk : k ≤ 256) :
    ((List.range k).foldl (fun acc i =>
      let acc := u256Addmod acc acc n
      if bitAt b i = 1 then u256Addmod acc a n else acc) 0).toNat = (mulmodRounds a b n.toNat k).1 := by
  induction k with
  | zero => rfl
  | succ k ih =>
    have hprev := ih (by omega)
    have hbit := toNat_bitAt (a := b) (i := k) (by omega)
    simp only [mulmodRounds, List.range_succ, List.foldl_append, List.foldl_cons, List.foldl_nil] at hprev ⊢
    generalize (List.range k).foldl _ (0 : Word) = acc at hprev ⊢
    generalize (List.range k).foldl _ ((0,0) : ℕ × ℕ) = state at hprev ⊢
    have hiff : bitAt b k = 1 ↔ bitOf b k = 1 := by
      rw [← hbit]
      exact UInt8.toNat_inj.symm
    simp only [mulmodRound, hiff, ← hprev]
    split
    · rw [toNat_u256Addmod hn, toNat_u256Addmod hn]
    · rw [toNat_u256Addmod hn]

theorem u256Mulmod_eq_iff (hne : n ≠ 0) (a b : Word) :
    (u256Mulmod a b n).toNat = a.toNat * b.toNat % n.toNat ↔ n.toNat ∣ 2 ^ 256 * mulmodLost a b n := by
  have hn := toNat_pos hne
  have hvalue := toNat_mulmodPrefix hn a b (k := 256) le_rfl
  obtain ⟨hlt,hsum⟩ := mulmodRounds_spec hn a b (k := 256) le_rfl
  rw [front_all] at hsum
  have hcode : (u256Mulmod a b n).toNat = (mulmodRounds a b n.toNat 256).1 := by
    unfold u256Mulmod u256IsZero
    simp only [hne, decide_false, Bool.false_eq_true, if_false]
    exact hvalue
  rw [hcode, mulmodLost]
  generalize mulmodRounds a b n.toNat 256 = state at hlt hsum ⊢
  constructor
  · intro h
    have hexact : state.1 ≡ a.toNat * b.toNat [MOD n.toNat] := by
      rw [h]
      exact Nat.mod_modEq _ _
    have hlost := hsum.trans hexact.symm
    have hcancel := Nat.ModEq.add_left_cancel' state.1 (hlost.trans (by rw [Nat.add_zero]))
    exact (Nat.modEq_zero_iff_dvd).mp hcancel
  · intro h
    have hzero : 2 ^ 256 * state.2 ≡ 0 [MOD n.toNat] := (Nat.modEq_zero_iff_dvd).mpr h
    have hexact : state.1 ≡ a.toNat * b.toNat [MOD n.toNat] := by
      have hadd := hzero.add_left state.1
      rw [Nat.add_zero] at hadd
      exact hadd.symm.trans hsum
    rw [← hexact, Nat.mod_eq_of_lt hlt]

end Modular

end ZbxChain.Evm
