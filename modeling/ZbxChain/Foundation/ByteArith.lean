import ZbxChain.Foundation.Bytes
import Mathlib.Data.Nat.Bitwise
import Mathlib.Data.Nat.ModEq
import Mathlib.Tactic.Linarith
import Mathlib.Tactic.LinearCombination

/-! # Arithmetic on digits

Sums, differences and doublings of big-endian bytes with a carry, products of little-endian
limbs, and division bit by bit. Each loop is read off the end of its operands, where the
carry comes from.
-/
namespace ZbxChain.Bytes

section Carries

/-- The sum of bytes of one width, and its carry. -/
def addBytes : List UInt8 → List UInt8 → List UInt8 × ℕ
  | x :: xs, y :: ys =>
    let (out,carry) := addBytes xs ys
    let sum := x.toNat + y.toNat + carry
    (UInt8.ofNat sum :: out,sum / 256)
  | _, _ => ([],0)

/-- The difference of bytes of one width, and its borrow. -/
def subBytes : List UInt8 → List UInt8 → List UInt8 × ℤ
  | x :: xs, y :: ys =>
    let (out,borrow) := subBytes xs ys
    let diff := (x.toNat : ℤ) - y.toNat - borrow
    (UInt8.ofNat (diff % 256).toNat :: out,if diff < 0 then 1 else 0)
  | _, _ => ([],0)

/-- Bytes shifted left by one bit, and the bit shifted out. -/
def shlOneBytes : List UInt8 → List UInt8 × UInt8
  | [] => ([],0)
  | x :: xs =>
    let (out,carry) := shlOneBytes xs
    ((x <<< 1 ||| carry) :: out,x >>> 7)

/-- Bytes shifted right by one bit, under a bit that comes in from the left. -/
def shrOneBytes (carry : UInt8) : List UInt8 → List UInt8
  | [] => []
  | x :: xs => (x >>> 1 ||| carry) :: shrOneBytes (x <<< 7) xs

variable {xs ys : List UInt8}

theorem length_addBytes (h : xs.length = ys.length) : (addBytes xs ys).1.length = xs.length := by
  induction xs generalizing ys with
  | nil => rfl
  | cons x xs ih =>
    cases ys with
    | nil => cases h
    | cons y ys => exact congrArg (· + 1) (ih (Nat.succ.inj h))

theorem ofBytesBE_addBytes (h : xs.length = ys.length) :
    ofBytesBE (addBytes xs ys).1 + (addBytes xs ys).2 * 256 ^ xs.length = ofBytesBE xs + ofBytesBE ys := by
  induction xs generalizing ys with
  | nil =>
    cases ys with
    | nil => rfl
    | cons y ys => cases h
  | cons x xs ih =>
    cases ys with
    | nil => cases h
    | cons y ys =>
      have hlen : xs.length = ys.length := Nat.succ.inj h
      have hrest := ih hlen
      have hout := length_addBytes hlen
      simp only [addBytes, ofBytesBE_cons, hout, List.length_cons, UInt8.toNat_ofNat', Nat.reducePow, ← hlen]
      generalize (addBytes xs ys).2 = carry at hrest ⊢
      generalize ofBytesBE (addBytes xs ys).1 = out at hrest ⊢
      have hsplit := Nat.mod_add_div (x.toNat + y.toNat + carry) 256
      rw [pow_succ 256 xs.length]
      generalize 256 ^ xs.length = width at hrest ⊢
      have hscaled := congrArg (· * width) hsplit
      linarith

theorem length_subBytes (h : xs.length = ys.length) : (subBytes xs ys).1.length = xs.length := by
  induction xs generalizing ys with
  | nil => rfl
  | cons x xs ih =>
    cases ys with
    | nil => cases h
    | cons y ys => exact congrArg (· + 1) (ih (Nat.succ.inj h))

/-- The subtraction of bytes, with the borrow that is left. -/
theorem ofBytesBE_subBytes (h : xs.length = ys.length) :
    ((subBytes xs ys).2 = 0 ∨ (subBytes xs ys).2 = 1) ∧
      (ofBytesBE (subBytes xs ys).1 : ℤ) - (subBytes xs ys).2 * 256 ^ xs.length =
        ofBytesBE xs - ofBytesBE ys := by
  induction xs generalizing ys with
  | nil =>
    cases ys with
    | nil => exact ⟨Or.inl rfl,rfl⟩
    | cons y ys => cases h
  | cons x xs ih =>
    cases ys with
    | nil => cases h
    | cons y ys =>
      have hlen : xs.length = ys.length := Nat.succ.inj h
      obtain ⟨hborrow,hrest⟩ := ih hlen
      have hout := length_subBytes hlen
      have hx := x.toNat_lt
      have hy := y.toNat_lt
      simp only [subBytes, ofBytesBE_cons, hout, List.length_cons, UInt8.toNat_ofNat', ← hlen]
      generalize (subBytes xs ys).2 = borrow at hborrow hrest ⊢
      generalize ofBytesBE (subBytes xs ys).1 = out at hrest ⊢
      constructor
      · split
        · exact Or.inr rfl
        · exact Or.inl rfl
      · have hdigit : ((((x.toNat : ℤ) - y.toNat - borrow) % 256).toNat % 2 ^ 8 : ℕ) =
            ((x.toNat : ℤ) - y.toNat - borrow) +
              (if (x.toNat : ℤ) - y.toNat - borrow < 0 then 1 else 0) * 256 := by
          split
          · omega
          · omega
        push_cast at hdigit ⊢
        rw [hdigit, pow_succ (256 : ℤ) xs.length]
        generalize (256 : ℤ) ^ xs.length = width at hrest ⊢
        linear_combination hrest

theorem length_shlOneBytes (xs : List UInt8) : (shlOneBytes xs).1.length = xs.length := by
  induction xs with
  | nil => rfl
  | cons x xs ih => exact congrArg (· + 1) ih

theorem toNat_shl_or {x carry : UInt8} (h : carry.toNat ≤ 1) :
    (x <<< 1 ||| carry).toNat = 2 * x.toNat % 256 + carry.toNat := by
  have hx : x.toNat <<< 1 % 2 ^ 8 = (x.toNat % 128) <<< 1 := by
    simp only [Nat.shiftLeft_eq]
    omega
  have hone : (1 : UInt8).toNat % 8 = 1 := rfl
  rw [UInt8.toNat_or, UInt8.toNat_shiftLeft, hone, hx, ← Nat.shiftLeft_add_eq_or_of_lt (by omega), Nat.shiftLeft_eq]
  omega

theorem toNat_shr_or {x carry : UInt8} (h : carry.toNat % 128 = 0) :
    (x >>> 1 ||| carry).toNat = x.toNat / 2 + carry.toNat := by
  have hx := x.toNat_lt
  have hone : (1 : UInt8).toNat % 8 = 1 := rfl
  have hcarry : carry.toNat = (carry.toNat / 128) <<< 7 := by
    rw [Nat.shiftLeft_eq]
    omega
  rw [UInt8.toNat_or, UInt8.toNat_shiftRight, hone, Nat.shiftRight_eq_div_pow, pow_one, Nat.or_comm, hcarry,
    ← Nat.shiftLeft_add_eq_or_of_lt (by omega), Nat.shiftLeft_eq]
  omega

theorem ofBytesBE_shlOneBytes (xs : List UInt8) : (shlOneBytes xs).2.toNat ≤ 1 ∧
    ofBytesBE (shlOneBytes xs).1 + (shlOneBytes xs).2.toNat * 256 ^ xs.length = 2 * ofBytesBE xs := by
  induction xs with
  | nil => exact ⟨Nat.zero_le _,rfl⟩
  | cons x xs ih =>
    obtain ⟨hcarry,hrest⟩ := ih
    have hx := x.toNat_lt
    have hout : (x >>> 7).toNat = x.toNat / 128 := by
      simp [UInt8.toNat_shiftRight, Nat.shiftRight_eq_div_pow]
    simp only [shlOneBytes, ofBytesBE_cons, length_shlOneBytes, List.length_cons, hout]
    generalize (shlOneBytes xs).2 = carry at hcarry hrest ⊢
    generalize ofBytesBE (shlOneBytes xs).1 = out at hrest ⊢
    rw [toNat_shl_or hcarry, pow_succ 256 xs.length]
    generalize 256 ^ xs.length = width at hrest ⊢
    refine ⟨by omega,?_⟩
    have hsplit : 2 * x.toNat % 256 + x.toNat / 128 * 256 = 2 * x.toNat := by omega
    have hscaled := congrArg (· * width) hsplit
    linarith

theorem length_shrOneBytes (carry : UInt8) (xs : List UInt8) : (shrOneBytes carry xs).length = xs.length := by
  induction xs generalizing carry with
  | nil => rfl
  | cons x xs ih => exact congrArg (· + 1) (ih _)

theorem ofBytesBE_shrOneBytes {carry : UInt8} (hcarry : carry.toNat % 128 = 0) (xs : List UInt8) :
    ofBytesBE (shrOneBytes carry xs) = (carry.toNat / 128 * 256 ^ xs.length + ofBytesBE xs) / 2 := by
  induction xs generalizing carry with
  | nil =>
    have hlt := carry.toNat_lt
    have hempty : ofBytesBE [] = 0 := rfl
    simp only [shrOneBytes, hempty, List.length_nil, pow_zero]
    omega
  | cons x xs ih =>
    have hseven : (7 : UInt8).toNat % 8 = 7 := rfl
    have hnext : (x <<< 7).toNat = x.toNat % 2 * 128 := by
      rw [UInt8.toNat_shiftLeft, hseven, Nat.shiftLeft_eq]
      omega
    have hcarried : (x <<< 7).toNat % 128 = 0 := by
      rw [hnext]
      omega
    have hrest := ih hcarried
    have hbit : x.toNat % 2 * 128 / 128 = x.toNat % 2 := Nat.mul_div_cancel _ (by omega)
    simp only [shrOneBytes, ofBytesBE_cons, length_shrOneBytes, List.length_cons, hrest, hnext, hbit,
      toNat_shr_or hcarry]
    rw [pow_succ 256 xs.length]
    generalize 256 ^ xs.length = width
    generalize ofBytesBE xs = low
    have hsplit : (carry.toNat / 128 * (width * 256) + (x.toNat * width + low)) =
        2 * ((x.toNat / 2 + carry.toNat) * width) + (x.toNat % 2 * width + low) := by
      have hx := Nat.mod_add_div x.toNat 2
      have hc := Nat.mod_add_div carry.toNat 128
      rw [hcarry, Nat.zero_add] at hc
      have hxw := congrArg (· * width) hx
      have hcw := congrArg (· * width) hc
      ring_nf at hxw hcw ⊢
      omega
    rw [hsplit]
    omega

end Carries

section Bits

theorem testBit_ofBytesBE (bytes : List UInt8) (k : ℕ) :
    (ofBytesBE bytes).testBit k = ((bytes.reverse[k / 8]?).getD 0).toNat.testBit (k % 8) := by
  induction bytes with
  | nil => simp [ofBytesBE]
  | cons b bytes ih =>
    have hlt : ofBytesBE bytes < 2 ^ (8 * bytes.length) := by
      rw [Nat.pow_mul]
      exact ofBytesBE_lt bytes
    have hpow : (256 : ℕ) ^ bytes.length = 2 ^ (8 * bytes.length) := (Nat.pow_mul 2 8 _).symm
    rw [ofBytesBE_cons, hpow, Nat.mul_comm, Nat.testBit_two_pow_mul_add _ hlt, List.reverse_cons]
    split
    · rename_i hk
      rw [ih, List.getElem?_append_left (by rw [List.length_reverse]; omega)]
    · rename_i hk
      rw [List.getElem?_append_right (by rw [List.length_reverse]; omega), List.length_reverse]
      by_cases hlast : k / 8 = bytes.length
      · rw [hlast, Nat.sub_self]
        have hbit : k - 8 * bytes.length = k % 8 := by omega
        rw [hbit]
        rfl
      · have hbeyond : k / 8 - bytes.length = (k / 8 - bytes.length - 1) + 1 := by omega
        have hb := b.toNat_lt
        rw [hbeyond]
        simp only [List.getElem?_cons_succ, List.getElem?_nil, Option.getD_none]
        rw [Nat.testBit_lt_two_pow (Nat.lt_of_lt_of_le hb (Nat.pow_le_pow_right (by decide) (by omega)))]
        simp

theorem getElem?_bytesBE {k i n : ℕ} (hi : i < k) :
    (bytesBE k n)[i]? = some (UInt8.ofNat (n / 256 ^ (k - 1 - i))) := by
  induction k generalizing n with
  | zero => omega
  | succ k ih =>
    rw [bytesBE_succ]
    by_cases hlast : i = k
    · subst hlast
      rw [List.getElem?_append_right (by simp), length_bytesBE]
      simp
    · rw [List.getElem?_append_left (by rw [length_bytesBE]; omega), ih (by omega), Nat.div_div_eq_div_mul]
      have hexp : k + 1 - 1 - i = (k - 1 - i) + 1 := by omega
      rw [hexp, pow_succ, Nat.mul_comm]

theorem ofBytesBE_take (n : ℕ) (bytes : List UInt8) :
    ofBytesBE (bytes.take n) = ofBytesBE bytes / 256 ^ (bytes.length - n) := by
  have hsplit := congrArg ofBytesBE (List.take_append_drop n bytes)
  have hlt := ofBytesBE_lt (bytes.drop n)
  rw [ofBytesBE_append, List.length_drop] at hsplit
  rw [List.length_drop] at hlt
  rw [← hsplit, Nat.mul_comm, Nat.mul_add_div (Nat.pow_pos (by decide)), Nat.div_eq_of_lt hlt, Nat.add_zero]

theorem ofBytesBE_drop (n : ℕ) (bytes : List UInt8) :
    ofBytesBE (bytes.drop n) = ofBytesBE bytes % 256 ^ (bytes.length - n) := by
  have hsplit := congrArg ofBytesBE (List.take_append_drop n bytes)
  have hlt := ofBytesBE_lt (bytes.drop n)
  rw [ofBytesBE_append, List.length_drop] at hsplit
  rw [List.length_drop] at hlt
  rw [← hsplit, Nat.mul_comm, Nat.mul_add_mod, Nat.mod_eq_of_lt hlt]

end Bits

section Limbs

def ofLimbs : List UInt64 → ℕ
  | [] => 0
  | x :: xs => x.toNat + 2 ^ 64 * ofLimbs xs

def mulRow (x : UInt64) : List UInt64 → List UInt64 → UInt64 → List UInt64
  | y :: ys, r :: rs, carry =>
    let prod := x.toNat * y.toNat + r.toNat + carry.toNat
    UInt64.ofNat prod :: mulRow x ys rs (UInt64.ofNat (prod / 2 ^ 64))
  | _, rs, _ => rs

/-- The rows of a product, each one limb further up. -/
def mulRows : List UInt64 → List UInt64 → List UInt64 → List UInt64
  | x :: xs, ys, rs =>
    match mulRow x ys rs 0 with
    | r :: rest => r :: mulRows xs ys rest
    | [] => []
  | [], _, rs => rs

variable {xs ys rs : List UInt64}

theorem ofBytesBE_flatMap (limbs : List UInt64) :
    ofBytesBE (limbs.reverse.flatMap (fun x => bytesBE 8 x.toNat)) = ofLimbs limbs := by
  induction limbs with
  | nil => rfl
  | cons x xs ih =>
    have hx := x.toNat_lt
    have hvalue : ofBytesBE (bytesBE 8 x.toNat) = x.toNat := by
      rw [ofBytesBE_bytesBE]
      exact Nat.mod_eq_of_lt hx
    rw [List.reverse_cons, List.flatMap_append, ofBytesBE_append, ih]
    simp only [List.flatMap_cons, List.flatMap_nil, List.append_nil, hvalue, length_bytesBE, ofLimbs]
    omega

theorem length_mulRow (x carry : UInt64) (ys rs : List UInt64) : (mulRow x ys rs carry).length = rs.length := by
  induction ys generalizing rs carry with
  | nil => cases rs <;> rfl
  | cons y ys ih =>
    cases rs with
    | nil => rfl
    | cons r rs => exact congrArg (· + 1) (ih _ rs)

theorem length_mulRows (xs ys rs : List UInt64) : (mulRows xs ys rs).length = rs.length := by
  induction xs generalizing rs with
  | nil => rfl
  | cons x xs ih =>
    have hlen := length_mulRow x 0 ys rs
    rw [mulRows]
    cases hrow : mulRow x ys rs 0 with
    | nil =>
      rw [hrow] at hlen
      exact hlen
    | cons r rest =>
      rw [hrow] at hlen
      rw [← hlen]
      exact congrArg (· + 1) (ih rest)

theorem toNat_carry {x y r carry : UInt64} :
    (UInt64.ofNat ((x.toNat * y.toNat + r.toNat + carry.toNat) / 2 ^ 64)).toNat =
      (x.toNat * y.toNat + r.toNat + carry.toNat) / 2 ^ 64 := by
  have hx := x.toNat_lt
  have hy := y.toNat_lt
  have hr := r.toNat_lt
  have hcarry := carry.toNat_lt
  have hprod : x.toNat * y.toNat ≤ (2 ^ 64 - 1) * (2 ^ 64 - 1) := Nat.mul_le_mul (by omega) (by omega)
  rw [UInt64.toNat_ofNat']
  apply Nat.mod_eq_of_lt
  omega

theorem ofLimbs_mulRow (x carry : UInt64) (h : rs.length ≤ ys.length) :
    ofLimbs (mulRow x ys rs carry) ≡ x.toNat * ofLimbs ys + ofLimbs rs + carry.toNat [MOD 2 ^ (64 * rs.length)] := by
  induction rs generalizing ys carry with
  | nil => simp [Nat.modEq_one]
  | cons r rs ih =>
    cases ys with
    | nil => simp at h
    | cons y ys =>
      have hlen : rs.length ≤ ys.length := Nat.le_of_succ_le_succ h
      have hrest := ih (UInt64.ofNat ((x.toNat * y.toNat + r.toNat + carry.toNat) / 2 ^ 64)) hlen
      rw [toNat_carry] at hrest
      have hshifted := (hrest.mul_left' (2 ^ 64)).add_left ((x.toNat * y.toNat + r.toNat + carry.toNat) % 2 ^ 64)
      have hsplit := Nat.mod_add_div (x.toNat * y.toNat + r.toNat + carry.toNat) (2 ^ 64)
      have hwidth : 2 ^ (64 * (r :: rs).length) = 2 ^ 64 * 2 ^ (64 * rs.length) := by
        rw [← Nat.pow_add, List.length_cons]
        congr 1
        omega
      have hvalue : x.toNat * ofLimbs (y :: ys) + ofLimbs (r :: rs) + carry.toNat =
          (x.toNat * y.toNat + r.toNat + carry.toNat) % 2 ^ 64 + 2 ^ 64 * (x.toNat * ofLimbs ys + ofLimbs rs +
            (x.toNat * y.toNat + r.toNat + carry.toNat) / 2 ^ 64) := by
        simp only [ofLimbs]
        linarith
      rw [hvalue, hwidth]
      simpa only [mulRow, ofLimbs, UInt64.toNat_ofNat'] using hshifted

/-- A product of limbs, up to the limbs there are. -/
theorem ofLimbs_mulRows (h : rs.length ≤ ys.length) :
    ofLimbs (mulRows xs ys rs) ≡ ofLimbs xs * ofLimbs ys + ofLimbs rs [MOD 2 ^ (64 * rs.length)] := by
  induction xs generalizing rs with
  | nil => simp [mulRows, ofLimbs, Nat.ModEq.refl]
  | cons x xs ih =>
    have hrow := ofLimbs_mulRow x 0 h
    have hlen := length_mulRow x 0 ys rs
    rw [mulRows]
    cases hcase : mulRow x ys rs 0 with
    | nil =>
      rw [hcase] at hlen
      rw [← hlen]
      simp [Nat.modEq_one]
    | cons r rest =>
      rw [hcase] at hrow hlen
      have hshort : rest.length ≤ ys.length := by
        simp only [List.length_cons] at hlen
        omega
      have hrest := ih hshort
      have hwidth : 2 ^ (64 * rs.length) = 2 ^ 64 * 2 ^ (64 * rest.length) := by
        rw [← Nat.pow_add, ← hlen, List.length_cons]
        congr 1
        omega
      have hshifted := (hrest.mul_left' (2 ^ 64)).add_left r.toNat
      rw [← hwidth] at hshifted
      have hsum := hrow.add_right (2 ^ 64 * (ofLimbs xs * ofLimbs ys))
      have hzero : (0 : UInt64).toNat = 0 := rfl
      rw [hzero] at hsum
      simp only [ofLimbs] at hshifted hsum ⊢
      refine hshifted.trans ?_
      have hleft : r.toNat + 2 ^ 64 * (ofLimbs xs * ofLimbs ys + ofLimbs rest) =
          r.toNat + 2 ^ 64 * ofLimbs rest + 2 ^ 64 * (ofLimbs xs * ofLimbs ys) := by ring
      have hright : (x.toNat + 2 ^ 64 * ofLimbs xs) * ofLimbs ys + ofLimbs rs =
          x.toNat * ofLimbs ys + ofLimbs rs + 0 + 2 ^ 64 * (ofLimbs xs * ofLimbs ys) := by ring
      rw [hleft, hright]
      exact hsum

end Limbs

end ZbxChain.Bytes
