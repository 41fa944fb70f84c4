import ZbxChain.Foundation.ByteArith
import ZbxChain.Types.Primitives

/-! # `zbx_evm::stack`: the arithmetic of 256-bit words

A word is an array of 32 bytes, most significant first; the functions work on its bytes, or
on its four 64-bit limbs.
-/
namespace ZbxChain.Evm
open Bytes

/-- `[u8; 32]`. -/
abbrev Word := U256

namespace Word

/-- `a[i]`. -/
def byte (a : Word) (i : ℕ) : UInt8 := (a.toBigEndian[i]?).getD 0

def ofBytes (bytes : List UInt8) : Word := H256.fromSlice bytes

/-- The array with the given bytes. -/
def ofFn (f : ℕ → UInt8) : Word := ofBytes ((List.range 32).map f)

/-- `a[i] |= x`. -/
def orByte (a : Word) (i : ℕ) (x : UInt8) : Word := ofFn (fun j => if j = i then a.byte j ||| x else a.byte j)

def toLeLimbs (a : Word) : List UInt64 :=
  [24,16,8,0].map (fun i => UInt64.ofNat (ofBytesBE ((a.toBigEndian.drop i).take 8)))

def fromLeLimbs (limbs : List UInt64) : Word := ofBytes (limbs.reverse.flatMap beBytes64)

def isNegative (a : Word) : Bool := a.byte 0 &&& 0x80 != 0

end Word

open Word

def u256FromU64 (v : UInt64) : Word := ofBytes (List.replicate 24 0 ++ beBytes64 v)

/-- The low 64 bits. -/
def u256ToU64 (v : Word) : UInt64 := UInt64.ofNat (ofBytesBE (v.toBigEndian.drop 24))

def u256Add (a b : Word) : Word := ofBytes (addBytes a.toBigEndian b.toBigEndian).1

def u256Sub (a b : Word) : Word := ofBytes (subBytes a.toBigEndian b.toBigEndian).1

def u256Not (a : Word) : Word := ofFn (fun i => ~~~ a.byte i)

def negate (a : Word) : Word := u256Add (u256Not a) (u256FromU64 1)

def u256Mul (a b : Word) : Word := fromLeLimbs (mulRows (toLeLimbs a) (toLeLimbs b) [0,0,0,0])

/-- Arrays are compared byte by byte. -/
def u256Lt (a b : Word) : Bool := decide (a < b)

def u256Gt (a b : Word) : Bool := decide (b < a)

def u256Eq (a b : Word) : Bool := decide (a = b)

def u256IsZero (a : Word) : Bool := decide (a = 0)

def u256ShlOne (a : Word) : Word := ofBytes (shlOneBytes a.toBigEndian).1

/-- Bit number `i` of an array, from the first one on. -/
def bitAt (a : Word) (i : ℕ) : UInt8 := (a.byte (i / 8) >>> UInt8.ofNat (7 - i % 8)) &&& 1

def bringDown (remainder : Word) (bit : UInt8) : Word := orByte (u256ShlOne remainder) 31 bit

def subtractOnce (remainder b : Word) : Word :=
  if u256Lt remainder b then remainder else u256Sub remainder b

def u256Div (a b : Word) : Word :=
  if u256IsZero b then 0
  else ((List.range 256).foldl (fun (quotient,remainder) i =>
    let remainder := bringDown remainder (bitAt a i)
    if u256Lt remainder b then (quotient,remainder)
    else (orByte quotient (i / 8) (1 <<< UInt8.ofNat (7 - i % 8)),u256Sub remainder b)) (0,0)).1

/-- The loop of `u256_mod`, and of `u256_addmod` under a carry. -/
def modLoop (remainder a b : Word) : Word :=
  (List.range 256).foldl (fun remainder i => subtractOnce (bringDown remainder (bitAt a i)) b) remainder

def u256Mod (a b : Word) : Word := if u256IsZero b then 0 else modLoop 0 a b

def u256Sdiv (a b : Word) : Word :=
  if u256IsZero b then 0
  else
    let negA := isNegative a
    let negB := isNegative b
    let minInt := ofFn (fun i => if i = 0 then 0x80 else 0)
    if a = minInt ∧ b = ofFn (fun i => if i = 31 then 1 else 0) then minInt
    else
      let absA := if negA then negate a else a
      let absB := if negB then negate b else b
      let q := u256Div absA absB
      if negA != negB then negate q else q

def u256Smod (a b : Word) : Word :=
  if u256IsZero b then 0
  else
    let negA := isNegative a
    let negB := isNegative b
    let absA := if negA then negate a else a
    let absB := if negB then negate b else b
    let r := u256Mod absA absB
    if negA && !u256IsZero r then negate r else r

def u256Addmod (a b n : Word) : Word :=
  if u256IsZero n then 0
  else
    let (sum,carry) := addBytes a.toBigEndian b.toBigEndian
    if carry = 1 then modLoop (subtractOnce (bringDown 0 1) n) (ofBytes sum) n
    else u256Mod (ofBytes sum) n

def u256Mulmod (a b n : Word) : Word :=
  if u256IsZero n then 0
  else (List.range 256).foldl (fun acc i =>
    let acc := u256Addmod acc acc n
    if bitAt b i = 1 then u256Addmod acc a n else acc) 0

/-- The loop of `u256_exp`; the exponent is zero after 256 rounds. -/
def expLoop : ℕ → Word → Word → Word → Word
  | 0, result, _, _ => result
  | fuel + 1, result, b, e =>
    if u256IsZero e then result
    else
      let result := if e.byte 31 &&& 1 = 1 then u256Mul result b else result
      expLoop fuel result (u256Mul b b) (ofBytes (shrOneBytes 0 e.toBigEndian))

def u256Exp (base exp : Word) : Word :=
  if u256IsZero exp then u256FromU64 1 else expLoop 256 (u256FromU64 1) base exp

def u256ByteLen (a : Word) : UInt64 :=
  match (List.range 32).find? (fun i => a.byte i != 0) with
  | some i => UInt64.ofNat (32 - i)
  | none => 0

def u256Signextend (b x : Word) : Word :=
  let bVal := (u256ToU64 b).toNat
  if 31 ≤ bVal then x
  else
    let byteIndex := 31 - bVal
    let signBit := x.byte byteIndex &&& 0x80 != 0
    ofFn (fun i =>
      if i < byteIndex then (if signBit then 0xFF else 0)
      else if i = byteIndex then (if signBit then x.byte i ||| 0xFF else x.byte i &&& 0x7F)
      else x.byte i)

def u256Slt (a b : Word) : Bool :=
  if isNegative a != isNegative b then isNegative a else decide (a < b)

def u256Sgt (a b : Word) : Bool :=
  if isNegative a != isNegative b then isNegative b else decide (b < a)

def u256And (a b : Word) : Word := ofFn (fun i => a.byte i &&& b.byte i)

def u256Or (a b : Word) : Word := ofFn (fun i => a.byte i ||| b.byte i)

def u256Xor (a b : Word) : Word := ofFn (fun i => a.byte i ^^^ b.byte i)

def u256Byte (i x : Word) : Word :=
  let idx := (u256ToU64 i).toNat
  if 32 ≤ idx then 0 else u256FromU64 (x.byte idx).toUInt64

def u256Shl (shift val : Word) : Word :=
  let s := (u256ToU64 shift).toNat
  if 256 ≤ s then 0
  else if s = 0 then val
  else
    let byteShift := s / 8
    let bitShift := s % 8
    ofFn (fun i =>
      let src := i + byteShift
      if src < 32 then
        let out := val.byte src <<< UInt8.ofNat bitShift
        if 0 < bitShift ∧ src + 1 < 32 then out ||| val.byte (src + 1) >>> UInt8.ofNat (8 - bitShift) else out
      else 0)

def u256Shr (shift val : Word) : Word :=
  let s := (u256ToU64 shift).toNat
  if 256 ≤ s then 0
  else if s = 0 then val
  else
    let byteShift := s / 8
    let bitShift := s % 8
    ofFn (fun i =>
      if byteShift ≤ i then
        let src := i - byteShift
        let out := val.byte src >>> UInt8.ofNat bitShift
        if 0 < bitShift ∧ 0 < src then out ||| val.byte (src - 1) <<< UInt8.ofNat (8 - bitShift) else out
      else 0)

def u256Sar (shift val : Word) : Word :=
  let sign := isNegative val
  let s := (u256ToU64 shift).toNat
  if 256 ≤ s then (if sign then ofFn (fun _ => 0xFF) else 0)
  else if s = 0 then val
  else
    let out := u256Shr shift val
    if sign then (List.range s).foldl (fun out bit => orByte out (bit / 8) (0x80 >>> UInt8.ofNat (bit % 8))) out
    else out

end ZbxChain.Evm
