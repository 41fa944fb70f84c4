import ZbxChain.Evm.Frame

/-! # The arithmetic of the precompiles

The offsets and prices that `precompiles.rs` works out in machine words, without a check. The
lengths of `MODEXP` come from its input, at most 32 bits each, and the product that prices it
is the one that can leave 64 bits; `ECRECOVER` takes 27 off a byte. The other precompiles read
fixed offsets at fixed prices, or add with a check.
-/
namespace ZbxChain.Evm
open Bytes (ofBytesBE)

/-- `60 + 12 * ((input.len() as u64 + 31) / 32)` and its like. -/
def wordPriceSums (base perWord len : ℕ) : List ℕ :=
  let words := (len + 31) / 32
  [len + 31,perWord * words,base + perWord * words]

def padRight (input : List UInt8) (len : ℕ) : List UInt8 :=
  input.take len ++ List.replicate (len - input.length) 0

/-- The low four bytes of 32, the others being zero. -/
def readU256AsUsize (b : List UInt8) : Option ℕ :=
  if (b.take 28).all (· == 0) then some (ofBytesBE ((b.drop 28).take 4)) else none

/-- What `modexp` takes its price from. -/
structure ModexpInput where
  baseLen : ℕ
  expLen : ℕ
  modLen : ℕ
  exp : List UInt8

/-- `none` for a length that is refused, and without a modulus. -/
def ModexpInput.ofBytes (input : List UInt8) : Option ModexpInput := do
  let padded := padRight input (max 96 input.length)
  let baseLen ← readU256AsUsize (padded.take 32)
  let expLen ← readU256AsUsize ((padded.drop 32).take 32)
  let modLen ← readU256AsUsize ((padded.drop 64).take 32)
  if modLen = 0 then none
  else some ⟨baseLen,expLen,modLen,((padRight padded (96 + baseLen + expLen + modLen)).drop (96 + baseLen)).take expLen⟩

namespace ModexpInput

def words (m : ModexpInput) : ℕ := (max m.baseLen m.modLen + 7) / 8

/-- An exponent of more than 32 bytes counts by its length and its first 32 bytes from the
first that is not zero. -/
def iterationCount (m : ModexpInput) : ℕ :=
  if m.expLen ≤ 32 then (ofBytesBE m.exp).size - 1
  else
    let eb := m.exp.dropWhile (· == 0)
    (8 * (m.expLen - 32) - 1) + ((ofBytesBE (eb.take 32)).size - 1)

/-- `multiplication_complexity * iteration_count.max(1)`. -/
def work (m : ModexpInput) : ℕ := m.words * m.words * max m.iterationCount 1

def sums (m : ModexpInput) : List ℕ :=
  [96 + m.baseLen,96 + m.baseLen + m.expLen,96 + m.baseLen + m.expLen + m.modLen,
    max m.baseLen m.modLen + 7,m.words * m.words,8 * (m.expLen - 32),m.work]

end ModexpInput

/-- The unchecked sums and products of a precompile. -/
def precompileSums (target : Address) (input : List UInt8) : List ℕ :=
  match target.toNat with
  | 2 => wordPriceSums 60 12 input.length
  | 3 => wordPriceSums 600 120 input.length
  | 4 => wordPriceSums 15 3 input.length
  | 5 => (ModexpInput.ofBytes input).elim [] ModexpInput.sums
  | 8 => [input.length,34000 * (input.length / 192),45000 + 34000 * (input.length / 192)]
  | 0x0A => [96 + ofBytesBE ((input.drop 92).take 4)]
  | _ => []

/-- `ecrecover` takes 27 off a recovery byte that is above 1. -/
def TakesOff (input : List UInt8) (gas : UInt64) (v : UInt8) : Prop :=
  3000 ≤ gas ∧ 128 ≤ input.length ∧ input[63]? = some v ∧ 1 < v

/-- Nothing that the precompile works out leaves its type. -/
structure PrecompileInRange (target : Address) (input : List UInt8) (gas : UInt64) : Prop where
  sums : ∀ n ∈ precompileSums target input, n < 2 ^ 64
  recovery : target = 1 → ∀ v, TakesOff input gas v → 27 ≤ v

/-- A `MODEXP` whose squared words times its iterations are beyond 64 bits, or an `ECRECOVER`
whose recovery byte is between 1 and 27. -/
def Overruns (target : Address) (input : List UInt8) (gas : UInt64) : Prop :=
  (target = 5 ∧ ∃ m, ModexpInput.ofBytes input = some m ∧ 2 ^ 64 ≤ m.work) ∨
    (target = 1 ∧ ∃ v, TakesOff input gas v ∧ v < 27)

section Bounds
variable {input : List UInt8} {target : Address} {gas : UInt64}

theorem readU256AsUsize_lt {b : List UInt8} {n : ℕ} (hread : readU256AsUsize b = some n) : n < 2 ^ 32 := by
  unfold readU256AsUsize at hread
  split at hread
  · cases hread
    have hlt := Bytes.ofBytesBE_lt ((b.drop 28).take 4)
    have hlen : ((b.drop 28).take 4).length ≤ 4 := List.length_take_le 4 _
    exact hlt.trans_le (Nat.pow_le_pow_right (by decide) hlen)
  · cases hread

theorem ModexpInput.ofBytes_lt {m : ModexpInput} (hm : ModexpInput.ofBytes input = some m) :
    m.baseLen < 2 ^ 32 ∧ m.expLen < 2 ^ 32 ∧ m.modLen < 2 ^ 32 := by
  simp only [ModexpInput.ofBytes, Option.bind_eq_bind, Option.bind_eq_some_iff] at hm
  obtain ⟨baseLen,hbase,expLen,hexp,modLen,hmod,hm⟩ := hm
  split at hm
  · cases hm
  · cases hm
    exact ⟨readU256AsUsize_lt hbase,readU256AsUsize_lt hexp,readU256AsUsize_lt hmod⟩

/-- Of the numbers of a `MODEXP`, the last alone can be too large. -/
theorem ModexpInput.sums_lt_iff {m : ModexpInput} (hm : ModexpInput.ofBytes input = some m) :
    (∀ n ∈ m.sums, n < 2 ^ 64) ↔ m.work < 2 ^ 64 := by
  obtain ⟨hbase,hexp,hmod⟩ := ModexpInput.ofBytes_lt hm
  have hwords : m.words ≤ 2 ^ 29 := by
    unfold ModexpInput.words
    omega
  have hsquare : m.words * m.words ≤ 2 ^ 29 * 2 ^ 29 := Nat.mul_le_mul hwords hwords
  constructor
  · exact fun h => h m.work (by simp [ModexpInput.sums])
  · intro hwork n hn
    simp only [ModexpInput.sums, List.mem_cons, List.not_mem_nil, or_false] at hn
    rcases hn with rfl | rfl | rfl | rfl | rfl | rfl | rfl
    all_goals omega

theorem wordPriceSums_lt {base perWord len : ℕ} (hbase : base ≤ 600) (hper : perWord ≤ 120)
    (hlen : len ≤ maxMemory) : ∀ n ∈ wordPriceSums base perWord len, n < 2 ^ 64 := by
  have hmax : maxMemory = 2 ^ 25 := rfl
  have hwords : (len + 31) / 32 ≤ 2 ^ 20 := by omega
  have hprice : perWord * ((len + 31) / 32) ≤ 120 * 2 ^ 20 := Nat.mul_le_mul hper hwords
  intro n hn
  simp only [wordPriceSums, List.mem_cons, List.not_mem_nil, or_false] at hn
  omega

theorem precompileSums_lt_iff (hlen : input.length ≤ maxMemory) :
    (∀ n ∈ precompileSums target input, n < 2 ^ 64) ↔
      ¬ (target = 5 ∧ ∃ m, ModexpInput.ofBytes input = some m ∧ 2 ^ 64 ≤ m.work) := by
  have hmax : maxMemory = 2 ^ 25 := rfl
  have hother : target.toNat ≠ 5 → target ≠ 5 := by
    rintro h rfl
    exact h rfl
  unfold precompileSums
  split
  · rename_i h
    exact iff_of_true (wordPriceSums_lt (by omega) (by omega) hlen) fun hbad => hother (by omega) hbad.1
  · rename_i h
    exact iff_of_true (wordPriceSums_lt (by omega) (by omega) hlen) fun hbad => hother (by omega) hbad.1
  · rename_i h
    exact iff_of_true (wordPriceSums_lt (by omega) (by omega) hlen) fun hbad => hother (by omega) hbad.1
  · rename_i h
    have htarget : target = 5 := BitVec.eq_of_toNat_eq h
    rcases hm : ModexpInput.ofBytes input with _ | m
    · simp
    · have hsums := ModexpInput.sums_lt_iff hm
      simpa only [Option.elim_some, htarget, true_and, Option.some.injEq, exists_eq_left', Nat.not_le] using hsums
  · rename_i h
    refine iff_of_true (fun n hn => ?_) fun hbad => hother (by omega) hbad.1
    simp only [List.mem_cons, List.not_mem_nil, or_false] at hn
    omega
  · rename_i h
    refine iff_of_true (fun n hn => ?_) fun hbad => hother (by omega) hbad.1
    have hlt := Bytes.ofBytesBE_lt ((input.drop 92).take 4)
    have hsmall : ((input.drop 92).take 4).length ≤ 4 := List.length_take_le 4 _
    have hpow : 256 ^ ((input.drop 92).take 4).length ≤ 256 ^ 4 := Nat.pow_le_pow_right (by decide) hsmall
    simp only [List.mem_cons, List.not_mem_nil, or_false] at hn
    omega
  · exact iff_of_true (by simp) fun hbad => absurd (congrArg BitVec.toNat hbad.1) ‹_›

/-- For an input that memory can hold, two precompiles leave their types, and when. -/
theorem precompileInRange_iff (hlen : input.length ≤ maxMemory) :
    PrecompileInRange target input gas ↔ ¬ Overruns target input gas := by
  have hsums : (∀ n ∈ precompileSums target input, n < 2 ^ 64) ↔
      ¬ (target = 5 ∧ ∃ m, ModexpInput.ofBytes input = some m ∧ 2 ^ 64 ≤ m.work) := precompileSums_lt_iff hlen
  constructor
  · rintro ⟨hin,hrecovery⟩ (hwork | ⟨htarget,v,htakes,hv⟩)
    · exact hsums.mp hin hwork
    · exact absurd (hrecovery htarget v htakes) (UInt8.not_le.mpr hv)
  · intro hnot
    refine ⟨hsums.mpr fun hwork => hnot (Or.inl hwork),fun htarget v htakes => ?_⟩
    exact UInt8.not_lt.mp fun hv => hnot (Or.inr ⟨htarget,v,htakes,hv⟩)

end Bounds

end ZbxChain.Evm
