import Mathlib.Data.List.Induction
import Mathlib.Tactic.Ring

/-! # Big-endian bytes

`bytesBE k n` writes the low `8 * k` bits of `n` as `k` bytes, most significant
first. Writing loses nothing below `256 ^ k`, so concatenations of fixed-width
fields can be read apart again field by field. `ofBytesBE` reads bytes back.
-/
namespace ZbxChain.Bytes

def bytesBEAux : ℕ → ℕ → List UInt8 → List UInt8
  | 0, _, rest => rest
  | k + 1, n, rest => bytesBEAux k (n / 256) (UInt8.ofNat n :: rest)

def bytesBE (k n : ℕ) : List UInt8 := bytesBEAux k n []

theorem bytesBEAux_eq (k n : ℕ) (rest : List UInt8) : bytesBEAux k n rest = bytesBE k n ++ rest := by
  induction k generalizing n rest with
  | zero => rfl
  | succ k ih =>
    have hlast : bytesBE (k + 1) n = bytesBEAux k (n / 256) [UInt8.ofNat n] := rfl
    rw [hlast, bytesBEAux, ih, ih (n / 256) [UInt8.ofNat n], List.append_assoc]
    rfl

theorem bytesBE_succ (k n : ℕ) : bytesBE (k + 1) n = bytesBE k (n / 256) ++ [UInt8.ofNat n] :=
  bytesBEAux_eq k (n / 256) [UInt8.ofNat n]

@[simp] theorem length_bytesBE (k n : ℕ) : (bytesBE k n).length = k := by
  induction k generalizing n with
  | zero => rfl
  | succ k ih => simp [bytesBE_succ, ih]

theorem bytesBE_mod {k m n : ℕ} (h : bytesBE k m = bytesBE k n) : m % 256 ^ k = n % 256 ^ k := by
  induction k generalizing m n with
  | zero => simp [Nat.mod_one]
  | succ k ih =>
    rw [bytesBE_succ, bytesBE_succ] at h
    obtain ⟨hhigh,hlow⟩ := List.append_inj' h rfl
    have hdiv := ih hhigh
    have hmod : m % 256 = n % 256 := by
      have := congrArg UInt8.toNat (List.cons.inj hlow).1
      simpa using this
    rw [Nat.pow_succ', Nat.mod_mul, Nat.mod_mul, hdiv, hmod]

/-- Fixed-width bytes determine the number, up to the width. -/
theorem bytesBE_inj {k m n : ℕ} (hm : m < 256 ^ k) (hn : n < 256 ^ k)
    (h : bytesBE k m = bytesBE k n) : m = n := by
  have := bytesBE_mod h
  rwa [Nat.mod_eq_of_lt hm, Nat.mod_eq_of_lt hn] at this

theorem bytesBE_bitVec_inj {k : ℕ} {x y : BitVec (8 * k)}
    (h : bytesBE k x.toNat = bytesBE k y.toNat) : x = y := by
  have hpow : 2 ^ (8 * k) = 256 ^ k := by rw [Nat.pow_mul]
  exact BitVec.eq_of_toNat_eq (bytesBE_inj (hpow ▸ x.isLt) (hpow ▸ y.isLt) h)

theorem bytesBE_uint64_inj {x y : UInt64} (h : bytesBE 8 x.toNat = bytesBE 8 y.toNat) : x = y :=
  UInt64.toNat_inj.mp (bytesBE_inj x.toNat_lt y.toNat_lt h)

theorem bytesBE_append_inj {k m n : ℕ} {xs ys : List UInt8}
    (h : bytesBE k m ++ xs = bytesBE k n ++ ys) : bytesBE k m = bytesBE k n ∧ xs = ys :=
  List.append_inj h (by simp)

/-- The number that bytes spell, most significant first. -/
def ofBytesBE (bytes : List UInt8) : ℕ := bytes.foldl (fun value b => value * 256 + b.toNat) 0

theorem foldl_bytes (bytes : List UInt8) (value : ℕ) :
    bytes.foldl (fun value b => value * 256 + b.toNat) value =
      value * 256 ^ bytes.length + ofBytesBE bytes := by
  induction bytes generalizing value with
  | nil => simp [ofBytesBE]
  | cons b bytes ih =>
    have hhead : ofBytesBE (b :: bytes) = (0 * 256 + b.toNat) * 256 ^ bytes.length + ofBytesBE bytes :=
      ih _
    rw [List.foldl_cons, ih, hhead, List.length_cons]
    ring

theorem ofBytesBE_cons (b : UInt8) (bytes : List UInt8) :
    ofBytesBE (b :: bytes) = b.toNat * 256 ^ bytes.length + ofBytesBE bytes := by
  have hfold := foldl_bytes bytes (0 * 256 + b.toNat)
  rw [Nat.zero_mul, Nat.zero_add] at hfold
  rw [← hfold, ofBytesBE, List.foldl_cons, Nat.zero_mul, Nat.zero_add]

theorem ofBytesBE_append (xs ys : List UInt8) :
    ofBytesBE (xs ++ ys) = ofBytesBE xs * 256 ^ ys.length + ofBytesBE ys := by
  rw [ofBytesBE, List.foldl_append, foldl_bytes]
  rfl

/-- What is written reads back, up to the width. -/
theorem ofBytesBE_bytesBE (k n : ℕ) : ofBytesBE (bytesBE k n) = n % 256 ^ k := by
  induction k generalizing n with
  | zero => simp [bytesBE, bytesBEAux, ofBytesBE, Nat.mod_one]
  | succ k ih =>
    have hlow : (UInt8.ofNat n).toNat = n % 256 := by simp
    have hlast : ofBytesBE [UInt8.ofNat n] = n % 256 := by
      rw [ofBytesBE_cons, hlow]
      simp [ofBytesBE]
    rw [bytesBE_succ, ofBytesBE_append, ih, hlast, Nat.pow_succ', Nat.mod_mul]
    simp only [List.length_singleton, pow_one]
    ring

theorem bytesBE_ofBytesBE (bytes : List UInt8) : bytesBE bytes.length (ofBytesBE bytes) = bytes := by
  induction bytes using List.reverseRecOn with
  | nil => rfl
  | append_singleton bytes b ih =>
    have hb : b.toNat < 256 := b.toNat_lt
    have hlast : ofBytesBE [b] = b.toNat := by simp [ofBytesBE]
    have hvalue : ofBytesBE (bytes ++ [b]) = ofBytesBE bytes * 256 + b.toNat := by
      rw [ofBytesBE_append, hlast, List.length_singleton, pow_one]
    have hhigh : (ofBytesBE bytes * 256 + b.toNat) / 256 = ofBytesBE bytes := by omega
    have hlow : UInt8.ofNat (ofBytesBE bytes * 256 + b.toNat) = b := by
      apply UInt8.toNat_inj.mp
      rw [UInt8.toNat_ofNat']
      omega
    rw [hvalue, List.length_append, List.length_singleton, bytesBE_succ, hhigh, hlow, ih]

theorem ofBytesBE_inj {xs ys : List UInt8} (hlen : xs.length = ys.length)
    (h : ofBytesBE xs = ofBytesBE ys) : xs = ys := by
  rw [← bytesBE_ofBytesBE xs, ← bytesBE_ofBytesBE ys, hlen, h]

theorem ofBytesBE_lt (bytes : List UInt8) : ofBytesBE bytes < 256 ^ bytes.length := by
  have hwrite := ofBytesBE_bytesBE bytes.length (ofBytesBE bytes)
  rw [bytesBE_ofBytesBE] at hwrite
  rw [hwrite]
  exact Nat.mod_lt _ (Nat.pow_pos (by decide))

theorem bytesBE_replicate (k : ℕ) (bytes : List UInt8) :
    bytesBE (k + bytes.length) (ofBytesBE bytes) = List.replicate k 0 ++ bytes := by
  have hzeros : ofBytesBE (List.replicate k 0) = 0 := by
    induction k with
    | zero => rfl
    | succ k ih =>
      rw [List.replicate_succ, ofBytesBE_cons, ih]
      simp
  have hwrite := bytesBE_ofBytesBE (List.replicate k 0 ++ bytes)
  rwa [ofBytesBE_append, hzeros, Nat.zero_mul, Nat.zero_add, List.length_append,
    List.length_replicate] at hwrite

theorem ofBytesBE_dropWhile (bytes : List UInt8) :
    ofBytesBE (bytes.dropWhile (· == 0)) = ofBytesBE bytes := by
  induction bytes with
  | nil => rfl
  | cons b bytes ih =>
    by_cases hb : b = 0
    · rw [List.dropWhile_cons, if_pos (by simp [hb]), ih, ofBytesBE_cons, hb]
      simp
    · rw [List.dropWhile_cons, if_neg (by simp [hb])]

end ZbxChain.Bytes
