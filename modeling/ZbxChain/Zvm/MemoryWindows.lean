import ZbxChain.Zvm.Frame

/-! # The windows of the memory

A window that ends at `n` is there, or can be made, where its rounded end is the length of a
vector. Elsewhere the size wraps, or the vector cannot be had, and the access panics.
-/
namespace ZbxChain.Zvm

section Sizes

theorem toNat_add_of_lt {x y : UInt64} (h : x.toNat + y.toNat < 2 ^ 64) :
    (x + y).toNat = x.toNat + y.toNat := by
  rw [UInt64.toNat_add]
  exact Nat.mod_eq_of_lt h

theorem toNat_add_wraps {x y : UInt64} (h : 2 ^ 64 ≤ x.toNat + y.toNat) : (x + y).toNat < x.toNat := by
  have hx := x.toNat_lt
  have hy := y.toNat_lt
  rw [UInt64.toNat_add]
  omega

theorem slice_of_le (data : List UInt8) {start stop : UInt64} (h : start.toNat ≤ stop.toNat)
    (hstop : stop.toNat ≤ data.length) :
    slice data start stop = some ((data.drop start.toNat).take (stop.toNat - start.toNat)) :=
  if_pos ⟨h,hstop⟩

/-- Where a slice of the source panics. -/
theorem slice_eq_none {data : List UInt8} {start stop : UInt64}
    (h : stop.toNat < start.toNat ∨ data.length < stop.toNat) : slice data start stop = none :=
  if_neg (by omega)

theorem slice_some {data bytes : List UInt8} {start stop : UInt64} (h : slice data start stop = some bytes) :
    start.toNat ≤ stop.toNat ∧ stop.toNat ≤ data.length ∧ bytes.length = stop.toNat - start.toNat := by
  unfold slice at h
  split at h
  · rename_i hrange
    cases h
    refine ⟨hrange.1,hrange.2,?_⟩
    simp only [List.length_take, List.length_drop]
    omega
  · cases h

end Sizes

namespace ZvmMemory

def Bounded (m : ZvmMemory) : Prop := m.data.length ≤ maxVecLen

/-- The window up to `n` is there or can be made. -/
def Fits (m : ZvmMemory) (n : ℕ) : Prop := n ≤ m.data.length ∨ (n + 31) / 32 * 32 ≤ maxVecLen

instance (m : ZvmMemory) (n : ℕ) : Decidable (m.Fits n) := inferInstanceAs (Decidable (_ ∨ _))

variable {m m' : ZvmMemory} {n k : ℕ}

theorem bounded_new : new.Bounded := Nat.zero_le _

theorem Fits.le (h : m.Fits n) (hm : m.Bounded) : n ≤ maxVecLen := by
  rcases h with h | h
  · exact h.trans hm
  · unfold maxVecLen at h ⊢
    omega

theorem toNat_roundUp {size : UInt64} (h : size.toNat + 31 < 2 ^ 64) :
    (wordsOf size * 32).toNat = (size.toNat + 31) / 32 * 32 := by
  have hthirtyone : (31 : UInt64).toNat = 31 := rfl
  have hthirtytwo : (32 : UInt64).toNat = 32 := rfl
  rw [wordsOf, UInt64.toNat_mul, UInt64.toNat_div, UInt64.toNat_add, hthirtyone, hthirtytwo]
  omega

theorem toNat_roundUp_wraps {size : UInt64} (h : 2 ^ 64 ≤ size.toNat + 31) :
    (wordsOf size * 32).toNat = 0 := by
  have hthirtyone : (31 : UInt64).toNat = 31 := rfl
  have hthirtytwo : (32 : UInt64).toNat = 32 := rfl
  have hsize := size.toNat_lt
  rw [wordsOf, UInt64.toNat_mul, UInt64.toNat_div, UInt64.toNat_add, hthirtyone, hthirtytwo]
  omega

/-- What `resize` makes of a memory in which the window fits. -/
def widened (m : ZvmMemory) (n : ℕ) : ZvmMemory :=
  if m.data.length < n then
    ⟨m.data.take ((n + 31) / 32 * 32) ++ List.replicate ((n + 31) / 32 * 32 - m.data.length) 0⟩
  else m

theorem length_widened (m : ZvmMemory) (n : ℕ) : (m.widened n).data.length =
    if m.data.length < n then (n + 31) / 32 * 32 else m.data.length := by
  unfold widened
  split
  · simp only [List.length_append, List.length_take, List.length_replicate]
    omega
  · rfl

theorem le_length_widened (m : ZvmMemory) (n : ℕ) : n ≤ (m.widened n).data.length := by
  rw [length_widened]
  split
  · omega
  · omega

theorem bounded_widened (hm : m.Bounded) (h : m.Fits n) : (m.widened n).Bounded := by
  unfold Bounded
  rw [length_widened]
  split
  · rcases h with h | h
    · omega
    · exact h
  · exact hm

theorem resize_of_fits {size : UInt64} (h : m.Fits size.toNat) : m.resize size = some (m.widened size.toNat) := by
  unfold resize widened
  split
  · rename_i hgrows
    have hround : (size.toNat + 31) / 32 * 32 ≤ maxVecLen := by
      rcases h with h | h
      · omega
      · exact h
    have hsize : size.toNat + 31 < 2 ^ 64 := by
      unfold maxVecLen at hround
      omega
    rw [toNat_roundUp hsize, if_neg (by omega)]
  · rfl

theorem resize_short {size : UInt64} (h : ¬ m.Fits size.toNat) (hm : m.resize size = some m') :
    m'.data.length < size.toNat := by
  unfold Fits at h
  have hsize := size.toNat_lt
  unfold resize at hm
  split at hm
  · rename_i hgrows
    by_cases hwraps : size.toNat + 31 < 2 ^ 64
    · rw [toNat_roundUp hwraps, if_pos (by omega)] at hm
      cases hm
    · rw [toNat_roundUp_wraps (by omega), if_neg (by unfold maxVecLen; omega)] at hm
      cases hm
      simp
      omega
  · omega

theorem bounded_resize {size : UInt64} (hm : m.Bounded) (h : m.resize size = some m') : m'.Bounded := by
  unfold resize at h
  split at h
  · dsimp only at h
    split at h
    · cases h
    · rename_i hround
      cases h
      unfold Bounded at hm ⊢
      simp only [List.length_append, List.length_take, List.length_replicate]
      omega
  · cases h
    exact hm

/-- A window that is inside does not change what else is. -/
theorem fits_widened (hfits : m.Fits k) : (m.widened k).Fits n ↔ m.Fits n := by
  unfold Fits at hfits ⊢
  rw [length_widened]
  unfold maxVecLen at hfits ⊢
  split
  · omega
  · omega

theorem window_of_fits {offset len : UInt64} (hm : m.Bounded) (h : m.Fits (offset.toNat + len.toNat)) :
    (offset + len).toNat = offset.toNat + len.toNat ∧
      m.resize (offset + len) = some (m.widened (offset.toNat + len.toNat)) := by
  have hle := h.le hm
  have hstop : (offset + len).toNat = offset.toNat + len.toNat := by
    apply toNat_add_of_lt
    unfold maxVecLen at hle
    omega
  refine ⟨hstop,?_⟩
  rw [← hstop] at h ⊢
  exact resize_of_fits h

theorem slice_of_not_fits {offset len : UInt64} (h : ¬ m.Fits (offset.toNat + len.toNat))
    (hresize : m.resize (offset + len) = some m') : slice m'.data offset (offset + len) = none := by
  apply slice_eq_none
  by_cases hwraps : 2 ^ 64 ≤ offset.toNat + len.toNat
  · exact Or.inl (toNat_add_wraps hwraps)
  · rw [← toNat_add_of_lt (by omega)] at h
    exact Or.inr (resize_short h hresize)

theorem readSlice_of_fits {offset len : UInt64} (hm : m.Bounded) (h : m.Fits (offset.toNat + len.toNat)) :
    ∃ bytes, m.readSlice offset len = some (bytes,m.widened (offset.toNat + len.toNat)) := by
  obtain ⟨hstop,hresize⟩ := window_of_fits hm h
  have hreaches := le_length_widened m (offset.toNat + len.toNat)
  have hslice : slice (m.widened (offset.toNat + len.toNat)).data offset (offset + len) = _ :=
    slice_of_le _ (by omega) (by omega)
  exact ⟨_,by simp only [readSlice, hresize, Option.bind_eq_bind, Option.bind_some, hslice]; rfl⟩

theorem readSlice_of_not_fits {offset len : UInt64} (h : ¬ m.Fits (offset.toNat + len.toNat)) :
    m.readSlice offset len = none := by
  unfold readSlice
  rw [Option.bind_eq_bind, Option.bind_eq_none_iff]
  intro m' hresize
  rw [slice_of_not_fits h hresize]
  rfl

theorem bounded_readSlice {offset len : UInt64} {bytes : List UInt8} (hm : m.Bounded)
    (h : m.readSlice offset len = some (bytes,m')) : m'.Bounded := by
  unfold readSlice at h
  obtain ⟨m₁,hresize,h⟩ := Option.bind_eq_some_iff.mp h
  obtain ⟨bytes',-,h⟩ := Option.bind_eq_some_iff.mp h
  cases h
  exact bounded_resize hm hresize

theorem bounded_load {offset : UInt64} {word : U256} (hm : m.Bounded)
    (h : m.load offset = some (word,m')) : m'.Bounded := by
  unfold load at h
  obtain ⟨⟨bytes,m₁⟩,hread,h⟩ := Option.bind_eq_some_iff.mp h
  cases h
  exact bounded_readSlice hm hread

theorem length_overwrite {data bytes : List UInt8} {start : ℕ} (h : start + bytes.length ≤ data.length) :
    (overwrite data start bytes).length = data.length := by
  simp only [overwrite, List.length_append, List.length_take, List.length_drop]
  omega

theorem bounded_writeSlice {offset : UInt64} {src : List UInt8} (hm : m.Bounded) (hlen : src.length < 2 ^ 64)
    (h : m.writeSlice offset src = some m') : m'.Bounded := by
  have hsize : (UInt64.ofNat src.length).toNat = src.length := UInt64.toNat_ofNat_of_lt' hlen
  unfold writeSlice at h
  split at h
  · cases h
    exact hm
  · obtain ⟨m₁,hresize,h⟩ := Option.bind_eq_some_iff.mp h
    obtain ⟨bytes,hslice,h⟩ := Option.bind_eq_some_iff.mp h
    cases h
    obtain ⟨hstart,hstop,-⟩ := slice_some hslice
    have hm₁ := bounded_resize hm hresize
    have hoffset := offset.toNat_lt
    rw [UInt64.toNat_add, hsize] at hstart hstop
    unfold Bounded at hm₁ ⊢
    rw [length_overwrite (by omega)]
    exact hm₁

def byteStored (m : ZvmMemory) (offset : UInt64) (byte : UInt8) : ZvmMemory :=
  ⟨(m.widened (offset.toNat + 1)).data.set offset.toNat byte⟩

theorem store8_of_fits {offset : UInt64} {byte : UInt8} (hm : m.Bounded) (h : m.Fits (offset.toNat + 1)) :
    m.store8 offset byte = some (m.byteStored offset byte) := by
  obtain ⟨hstop,hresize⟩ : (offset + 1).toNat = offset.toNat + 1 ∧ m.resize (offset + 1) = some (m.widened (offset.toNat + 1)) :=
    window_of_fits hm h
  have hreaches := le_length_widened m (offset.toNat + 1)
  simp only [store8, hresize, Option.bind_eq_bind, Option.bind_some]
  exact if_pos hreaches

theorem store8_of_not_fits {offset : UInt64} {byte : UInt8} (hm : m.Bounded)
    (h : ¬ m.Fits (offset.toNat + 1)) : m.store8 offset byte = none := by
  have hone : (1 : UInt64).toNat = 1 := rfl
  unfold store8
  rw [Option.bind_eq_bind, Option.bind_eq_none_iff]
  intro m' hresize
  apply if_neg
  by_cases hwraps : 2 ^ 64 ≤ offset.toNat + (1 : UInt64).toNat
  · have hlen := bounded_resize hm hresize
    unfold Bounded maxVecLen at hlen
    omega
  · have hstop : (offset + 1).toNat = offset.toNat + 1 := toNat_add_of_lt (by omega)
    rw [← hstop] at h
    have hshort := resize_short h hresize
    omega

theorem bounded_byteStored {offset : UInt64} {byte : UInt8} (hm : m.Bounded)
    (h : m.Fits (offset.toNat + 1)) : (m.byteStored offset byte).Bounded := by
  have hwide := bounded_widened hm h
  unfold Bounded at hwide ⊢
  simpa [byteStored] using hwide

theorem bounded_store8 {offset : UInt64} {byte : UInt8} (hm : m.Bounded)
    (h : m.store8 offset byte = some m') : m'.Bounded := by
  by_cases hfits : m.Fits (offset.toNat + 1)
  · rw [store8_of_fits hm hfits] at h
    cases h
    exact bounded_byteStored hm hfits
  · rw [store8_of_not_fits hm hfits] at h
    cases h

theorem bounded_copy {dst src len : UInt64} (hm : m.Bounded) (h : m.copy dst src len = some m') : m'.Bounded := by
  unfold copy at h
  split at h
  · cases h
    exact hm
  · obtain ⟨m₁,hresize,h⟩ := Option.bind_eq_some_iff.mp h
    obtain ⟨bytes,-,h⟩ := Option.bind_eq_some_iff.mp h
    split at h
    · rename_i hroom
      cases h
      have hm₁ := bounded_resize hm hresize
      unfold Bounded at hm₁ ⊢
      rw [length_overwrite hroom]
      exact hm₁
    · cases h

end ZvmMemory

theorem length_zeroPadded {data bytes : List UInt8} {off len : UInt64}
    (h : zeroPadded data off len = some bytes) : bytes.length = len.toNat := by
  unfold zeroPadded at h
  split at h
  · cases h
  · cases h
    simp only [List.length_append, List.length_take, List.length_drop, List.length_replicate]
    omega

end ZbxChain.Zvm
