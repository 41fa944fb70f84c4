import ZbxChain.Foundation.Bytes

/-! # Fixed-size words of the chain

The byte arrays of the source are bit vectors read big-endian, so that equality,
byte order and the numeric order of addresses and hashes are those of the source.
-/
namespace ZbxChain

abbrev H256 := BitVec 256
abbrev U256 := BitVec 256
abbrev Address := BitVec 160

instance : LawfulBEq Address := inferInstance

/-- `hex::encode`. -/
def hexEncode (bytes : List UInt8) : String :=
  String.ofList (bytes.flatMap (fun b => [Nat.digitChar (b.toNat / 16),Nat.digitChar (b.toNat % 16)]))

namespace H256
def zero : H256 := 0
def asBytes (h : H256) : List UInt8 := Bytes.bytesBE 32 h.toNat

/-- `H256::from_slice`; the source panics unless there are 32 bytes. -/
def fromSlice (bytes : List UInt8) : H256 := BitVec.ofNat 256 (Bytes.ofBytesBE bytes)

/-- `{:?}` of a hash. -/
def debug (h : H256) : String :=
  "0x" ++ String.ofList ((h.asBytes.flatMap (fun b => [b.toNat / 16, b.toNat % 16])).map
    Nat.digitChar)
end H256

/-- `U256::to_big_endian` into a 32-byte buffer. -/
def U256.toBigEndian (x : U256) : List UInt8 := Bytes.bytesBE 32 x.toNat

namespace Address
/-- `Address::ZERO`. -/
def zero : Address := 0
def asBytes (a : Address) : List UInt8 := Bytes.bytesBE 20 a.toNat
end Address

/-- `u64::to_be_bytes`. -/
def beBytes64 (x : UInt64) : List UInt8 := Bytes.bytesBE 8 x.toNat

/-- `u64::saturating_add`. -/
def saturatingAdd64 (x y : UInt64) : UInt64 := UInt64.ofNat (min (x.toNat + y.toNat) (2 ^ 64 - 1))

/-- `u64::saturating_sub`. -/
def saturatingSub64 (x y : UInt64) : UInt64 := UInt64.ofNat (x.toNat - y.toNat)

theorem toNat_min64 (x y : UInt64) : (min x y).toNat = min x.toNat y.toNat := by
  have hcases : min x y = if x ≤ y then x else y := rfl
  rw [hcases]
  split
  · rename_i hle
    rw [UInt64.le_iff_toNat_le] at hle
    omega
  · rename_i hlt
    rw [UInt64.le_iff_toNat_le] at hlt
    omega

theorem toNat_max64 (x y : UInt64) : (max x y).toNat = max x.toNat y.toNat := by
  have hcases : max x y = if x ≤ y then y else x := rfl
  rw [hcases]
  split
  · rename_i hle
    rw [UInt64.le_iff_toNat_le] at hle
    omega
  · rename_i hlt
    rw [UInt64.le_iff_toNat_le] at hlt
    omega

theorem toNat_saturatingAdd64 (x y : UInt64) : (saturatingAdd64 x y).toNat = min (x.toNat + y.toNat) (2 ^ 64 - 1) := by
  rw [saturatingAdd64, UInt64.toNat_ofNat']
  exact Nat.mod_eq_of_lt (by omega)

theorem toNat_saturatingSub64 (x y : UInt64) : (saturatingSub64 x y).toNat = x.toNat - y.toNat := by
  have hx := x.toNat_lt
  rw [saturatingSub64, UInt64.toNat_ofNat']
  exact Nat.mod_eq_of_lt (by omega)

theorem toNat_add_one {x : UInt64} (h : x.toNat + 1 < 2 ^ 64) : (x + 1).toNat = x.toNat + 1 := by
  have hone : (1 : UInt64).toNat = 1 := rfl
  rw [UInt64.toNat_add, hone]
  exact Nat.mod_eq_of_lt h

@[simp] theorem H256.fromSlice_asBytes (h : H256) : H256.fromSlice h.asBytes = h := by
  have hpow : (256 : ℕ) ^ 32 = 2 ^ 256 := by rw [← Nat.pow_mul 2 8 32]
  rw [H256.fromSlice, H256.asBytes, Bytes.ofBytesBE_bytesBE, hpow, Nat.mod_eq_of_lt h.isLt,
    BitVec.ofNat_toNat, BitVec.setWidth_eq]

@[simp] theorem H256.length_asBytes (h : H256) : h.asBytes.length = 32 := Bytes.length_bytesBE _ _
@[simp] theorem U256.length_toBigEndian (x : U256) : x.toBigEndian.length = 32 :=
  Bytes.length_bytesBE _ _
@[simp] theorem Address.length_asBytes (a : Address) : a.asBytes.length = 20 := Bytes.length_bytesBE _ _
@[simp] theorem length_beBytes64 (x : UInt64) : (beBytes64 x).length = 8 := Bytes.length_bytesBE _ _

end ZbxChain
