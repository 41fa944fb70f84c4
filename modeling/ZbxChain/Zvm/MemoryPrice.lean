import ZbxChain.Zvm.StaticFrames

/-! # The price of the memory

A memory of `w` words is worth `3w + w²/512` of gas. What a frame has been charged covers the
memory that it has, and the windows that it was charged for before it comes to them.
-/
namespace ZbxChain.Zvm
open FrameOp FrameM

section Prices

def memoryPrice (w : ℕ) : ℕ := 3 * w + w * w / 512

/-- The price as it is counted in 64 bits. -/
def cappedPrice (w : ℕ) : ℕ :=
  min (min (3 * w) (2 ^ 64 - 1) + min (w * w) (2 ^ 64 - 1) / 512) (2 ^ 64 - 1)

variable {v w : ℕ}

theorem toNat_saturatingMul64 (x y : UInt64) :
    (saturatingMul64 x y).toNat = min (x.toNat * y.toNat) (2 ^ 64 - 1) := by
  unfold saturatingMul64
  rw [UInt64.toNat_ofNat']
  omega

theorem toNat_memoryCost (x : UInt64) : (memoryCost x).toNat = cappedPrice x.toNat := by
  have hthree : (3 : UInt64).toNat = 3 := rfl
  have hdivisor : (512 : UInt64).toNat = 512 := rfl
  unfold memoryCost cappedPrice
  rw [toNat_saturatingAdd64, UInt64.toNat_div, toNat_saturatingMul64, toNat_saturatingMul64, hthree, hdivisor]

theorem cappedPrice_mono (h : v ≤ w) : cappedPrice v ≤ cappedPrice w := by
  have hsquare : v * v ≤ w * w := Nat.mul_le_mul h h
  unfold cappedPrice
  omega

/-- Below 2^32 words the saturating price is the plain one. -/
theorem cappedPrice_eq (h : w < 2 ^ 32) : cappedPrice w = memoryPrice w := by
  have hsquare : w * w < 2 ^ 32 * 2 ^ 32 := Nat.mul_lt_mul'' h h
  unfold cappedPrice memoryPrice
  omega

theorem lt_of_cappedPrice (h : cappedPrice w < 2 ^ 55) : w < 2 ^ 32 := by
  by_contra hmany
  have hprice := cappedPrice_mono (not_lt.mp hmany)
  have hstart : 2 ^ 55 ≤ cappedPrice (2 ^ 32) := by decide
  omega

/-- An expansion costs the difference of the two prices. -/
theorem toNat_memoryGasDelta (old new : UInt64) : (memoryGasDelta old new).toNat =
    cappedPrice (max old.toNat new.toNat) - cappedPrice old.toNat := by
  unfold memoryGasDelta
  split
  · rename_i hle
    rw [max_eq_left (UInt64.le_iff_toNat_le.mp hle), Nat.sub_self]
    rfl
  · rename_i hlt
    have hnew : old.toNat ≤ new.toNat := (UInt64.lt_iff_toNat_lt.mp (UInt64.not_le.mp hlt)).le
    rw [toNat_saturatingSub64, toNat_memoryCost, toNat_memoryCost, max_eq_right hnew]

end Prices

namespace ZvmMemory
variable {m m' : ZvmMemory} {n : ℕ}

def wordCount (m : ZvmMemory) : ℕ := (m.data.length + 31) / 32

theorem toNat_wordsOf_le (len : UInt64) : (wordsOf len).toNat ≤ (len.toNat + 31) / 32 := by
  have hthirtyone : (31 : UInt64).toNat = 31 := rfl
  have hthirtytwo : (32 : UInt64).toNat = 32 := rfl
  rw [wordsOf, UInt64.toNat_div, UInt64.toNat_add, hthirtyone, hthirtytwo]
  omega

theorem toNat_wordsOf_lt (len : UInt64) : (wordsOf len).toNat < 2 ^ 59 := by
  have hthirtytwo : (32 : UInt64).toNat = 32 := rfl
  have hsum := (len + 31).toNat_lt
  rw [wordsOf, UInt64.toNat_div, hthirtytwo]
  omega

theorem toNat_wordsOf {len : UInt64} (h : len.toNat + 31 < 2 ^ 64) :
    (wordsOf len).toNat = (len.toNat + 31) / 32 := by
  have hthirtyone : (31 : UInt64).toNat = 31 := rfl
  have hthirtytwo : (32 : UInt64).toNat = 32 := rfl
  rw [wordsOf, UInt64.toNat_div, UInt64.toNat_add, hthirtyone, hthirtytwo]
  omega

theorem toNat_words (hm : m.Bounded) : m.words.toNat = m.wordCount := by
  unfold Bounded maxVecLen at hm
  have hsize : m.size.toNat = m.data.length :=
    UInt64.toNat_ofNat_of_lt' (show m.data.length < 2 ^ 64 by omega)
  rw [words, toNat_wordsOf (by omega), hsize, wordCount]

/-- The memory is still a vector, and has grown to no more than `n` words. -/
def GrowsTo (n : ℕ) (m m' : ZvmMemory) : Prop := m'.Bounded ∧ m'.wordCount ≤ max m.wordCount n

theorem GrowsTo.refl (hm : m.Bounded) : GrowsTo n m m := ⟨hm,Nat.le_max_left _ _⟩

/-- A resize grows the memory to the words of its size at most. -/
theorem growsTo_resize {size : UInt64} (hm : m.Bounded) (h : m.resize size = some m') :
    GrowsTo (wordsOf size).toNat m m' := by
  refine ⟨bounded_resize hm h,?_⟩
  have hwords := toNat_wordsOf_lt size
  unfold resize at h
  split at h
  · dsimp only at h
    split at h
    · cases h
    · have hround : (wordsOf size * 32).toNat = (wordsOf size).toNat * 32 := by
        have hthirtytwo : (32 : UInt64).toNat = 32 := rfl
        rw [UInt64.toNat_mul, hthirtytwo]
        omega
      cases h
      unfold wordCount
      simp only [List.length_append, List.length_take, List.length_replicate, hround]
      omega
  · cases h
    exact Nat.le_max_left _ _

theorem toNat_add_of_slice {data bytes : List UInt8} {offset len : UInt64}
    (h : slice data offset (offset + len) = some bytes) : (offset + len).toNat = offset.toNat + len.toNat := by
  obtain ⟨hstart,-,-⟩ := slice_some h
  apply toNat_add_of_lt
  by_contra hwraps
  have := toNat_add_wraps (not_lt.mp hwraps)
  omega

theorem add_of_slice {data bytes : List UInt8} {offset len : UInt64}
    (h : slice data offset (offset + len) = some bytes) : offset + len = saturatingAdd64 offset len := by
  have hsum := toNat_add_of_slice h
  have hlt := (offset + len).toNat_lt
  apply UInt64.toNat_inj.mp
  rw [hsum, toNat_saturatingAdd64]
  omega

theorem growsTo_readSlice {offset len : UInt64} {bytes : List UInt8} (hm : m.Bounded)
    (h : m.readSlice offset len = some (bytes,m')) :
    GrowsTo (wordsOf (saturatingAdd64 offset len)).toNat m m' := by
  unfold readSlice at h
  obtain ⟨m₁,hresize,h⟩ := Option.bind_eq_some_iff.mp h
  obtain ⟨bytes',hslice,h⟩ := Option.bind_eq_some_iff.mp h
  cases h
  rw [← add_of_slice hslice]
  exact growsTo_resize hm hresize

theorem growsTo_load {offset : UInt64} {word : U256} (hm : m.Bounded) (h : m.load offset = some (word,m')) :
    GrowsTo (wordsOf (saturatingAdd64 offset 32)).toNat m m' := by
  unfold load at h
  obtain ⟨⟨bytes,m₁⟩,hread,h⟩ := Option.bind_eq_some_iff.mp h
  cases h
  exact growsTo_readSlice hm hread

theorem GrowsTo.resized {m₁ : ZvmMemory} (h : GrowsTo n m m₁) (hlen : m'.data.length = m₁.data.length) :
    GrowsTo n m m' := by
  obtain ⟨hbounded,hwords⟩ := h
  unfold GrowsTo Bounded wordCount at *
  rw [hlen]
  exact ⟨hbounded,hwords⟩

theorem growsTo_writeSlice {offset len : UInt64} {src : List UInt8} (hm : m.Bounded) (hsrc : src.length = len.toNat)
    (h : m.writeSlice offset src = some m') : GrowsTo (wordsOf (saturatingAdd64 offset len)).toNat m m' := by
  have hsize : UInt64.ofNat src.length = len := by rw [hsrc, UInt64.ofNat_toNat]
  unfold writeSlice at h
  split at h
  · cases h
    exact .refl hm
  · rw [hsize] at h
    obtain ⟨m₁,hresize,h⟩ := Option.bind_eq_some_iff.mp h
    obtain ⟨bytes,hslice,h⟩ := Option.bind_eq_some_iff.mp h
    obtain ⟨hstart,hstop,-⟩ := slice_some hslice
    have hend := add_of_slice hslice
    have hgrown := growsTo_resize hm hresize
    rw [hend] at hgrown hstop
    rw [toNat_saturatingAdd64] at hstop
    have hlong := hgrown.1
    unfold Bounded maxVecLen at hlong
    cases h
    exact hgrown.resized (length_overwrite (by omega))

theorem growsTo_store {offset : UInt64} {word : U256} (hm : m.Bounded) (h : m.store offset word = some m') :
    GrowsTo (wordsOf (saturatingAdd64 offset 32)).toNat m m' :=
  growsTo_writeSlice hm (U256.length_toBigEndian word) h

theorem growsTo_store8 {offset : UInt64} {byte : UInt8} (hm : m.Bounded) (h : m.store8 offset byte = some m') :
    GrowsTo (wordsOf (saturatingAdd64 offset 1)).toNat m m' := by
  have hone : (1 : UInt64).toNat = 1 := rfl
  unfold store8 at h
  obtain ⟨m₁,hresize,h⟩ := Option.bind_eq_some_iff.mp h
  split at h
  · rename_i hroom
    have hgrown := growsTo_resize hm hresize
    have hlong := hgrown.1
    unfold Bounded maxVecLen at hlong
    have hend : offset + 1 = saturatingAdd64 offset 1 := by
      apply UInt64.toNat_inj.mp
      rw [toNat_add_of_lt (by omega), toNat_saturatingAdd64]
      omega
    cases h
    rw [← hend]
    exact hgrown.resized (List.length_set ..)
  · cases h

theorem growsTo_copy {dst src len : UInt64} (hm : m.Bounded) (h : m.copy dst src len = some m') :
    GrowsTo (wordsOf (saturatingAdd64 (max dst src) len)).toNat m m' := by
  unfold copy at h
  split at h
  · cases h
    exact .refl hm
  · obtain ⟨m₁,hresize,h⟩ := Option.bind_eq_some_iff.mp h
    obtain ⟨bytes,-,h⟩ := Option.bind_eq_some_iff.mp h
    split at h
    · rename_i hroom
      cases h
      exact (growsTo_resize hm hresize).resized (length_overwrite hroom)
    · cases h

end ZvmMemory

section Covers
variable {f f' : ZvmInterpreter} {n k : ℕ}

/-- The gas that the frame was charged is at least the price of its memory, and of a memory
of `n` words. -/
def ZvmInterpreter.Covers (n : ℕ) (f : ZvmInterpreter) : Prop :=
  f.memory.Bounded ∧ cappedPrice (max f.memory.wordCount n) + f.gas.toNat ≤ f.ctx.gasLimit.toNat

theorem ZvmInterpreter.Covers.anti (h : f.Covers n) (hk : k ≤ n) : f.Covers k := by
  refine ⟨h.1,le_trans (Nat.add_le_add_right ?_ _) h.2⟩
  exact cappedPrice_mono (by omega)

theorem ZvmInterpreter.Covers.paid (h : f.Covers n) : f.Covers 0 := h.anti (Nat.zero_le n)

theorem ZvmInterpreter.Covers.spend (h : f.Covers n) (hspends : Spends f f') (hmemory : f'.memory = f.memory) :
    f'.Covers n := by
  obtain ⟨hbounded,hprice⟩ := h
  have hgas := hspends.gas
  refine ⟨hmemory ▸ hbounded,?_⟩
  rw [hmemory, hspends.ctx]
  omega

theorem ZvmInterpreter.Covers.grow {memory : ZvmMemory} (h : f.Covers n)
    (hgrows : ZvmMemory.GrowsTo n f.memory memory) : ({ f with memory := memory } : ZvmInterpreter).Covers n := by
  refine ⟨hgrows.1,le_trans (Nat.add_le_add_right ?_ _) h.2⟩
  have hwords := hgrows.2
  exact cappedPrice_mono (by dsimp only; omega)

end Covers

section Pays
variable {σ α β γ : Type}

theorem lift_op_bind (p : FrameOp α) (q : α → FrameOp β) :
    (liftM (p >>= q) : FrameM β) = liftM p >>= fun a => liftM (q a) := by
  funext f
  rw [lift_bind_apply]
  have hbind : (liftM (p >>= q) : FrameM β) f = .done (ExceptT.bindCont q (p f).1 (p f).2) := rfl
  rw [hbind]
  rcases p f with ⟨e | a,f₁⟩
  · rfl
  · rfl

/-- From a frame in `G` the program ends in `Q`, and what its memory grows to on the way is
paid for. -/
def PaysFrom (h : Program.Handler ZvmCall.Reply σ) (G : ZvmInterpreter → Prop) (p : FrameM α)
    (Q : α → ZvmInterpreter → Prop) : Prop :=
  Framed.Moves h (fun _ => False) (fun f _ f' _ => f.Covers 0 → f'.Covers 0) G p Q

/-- The same from a frame whose charges cover `n` words. -/
def PaysTo (h : Program.Handler ZvmCall.Reply σ) (n : ℕ) (p : FrameM α) (Q : α → ZvmInterpreter → Prop) : Prop :=
  PaysFrom h (ZvmInterpreter.Covers n) p Q

def Pays (h : Program.Handler ZvmCall.Reply σ) (n : ℕ) (p : FrameM α) : Prop := PaysTo h n p fun _ f => f.Covers 0

def Steady (h : Program.Handler ZvmCall.Reply σ) (p : FrameM α) : Prop := ∀ n, PaysTo h n p fun _ f => f.Covers n

variable {h : Program.Handler ZvmCall.Reply σ} {n k : ℕ} {p : FrameM α} {q : α → FrameM β}
  {Q Q' : α → ZvmInterpreter → Prop} {Q₂ : β → ZvmInterpreter → Prop}

theorem PaysTo.mono (hp : PaysTo h k p Q) (hk : k ≤ n) (hQ : ∀ a f, Q a f → Q' a f) : PaysTo h n p Q' :=
  Framed.Moves.mono hp (fun _ hf => hf.anti hk) hQ

theorem PaysFrom.bind {G : ZvmInterpreter → Prop} (hp : PaysFrom h G p Q) (hq : ∀ a, PaysFrom h (Q a) (q a) Q₂) :
    PaysFrom h G (p >>= q) Q₂ := Framed.Moves.bind (fun h₁ h₂ hf => h₂ (h₁ hf)) hp hq

theorem PaysFrom.bind_to {G : ZvmInterpreter → Prop} (hp : PaysFrom h G p fun _ f => f.Covers k)
    (hq : ∀ a, PaysTo h k (q a) Q₂) : PaysFrom h G (p >>= q) Q₂ := hp.bind hq

theorem PaysTo.bind (hp : PaysTo h n p fun _ f => f.Covers k) (hq : ∀ a, PaysTo h k (q a) Q₂) :
    PaysTo h n (p >>= q) Q₂ := PaysFrom.bind_to hp hq

theorem PaysTo.bind_from {G : ZvmInterpreter → Prop} {J : γ → Prop} {Q : γ → ZvmInterpreter → Prop}
    {p : FrameOp γ} {q : γ → FrameM β} (hp : PaysTo h n (liftM p) Q) (hG : ∀ f, G f → f.Covers n)
    (hJ : ∀ f a f', G f → p f = (.ok a,f') → J a) (hq : ∀ a, J a → PaysFrom h (Q a) (q a) Q₂) :
    PaysFrom h G ((liftM p : FrameM γ) >>= q) Q₂ := by
  have hfirst : PaysFrom h G (liftM p) fun a f => Q a f ∧ J a := by
    intro f s hf
    have hrun : ((liftM p : FrameM γ) f).run h s = (p f,s) := rfl
    have hafter := hp f s (hG f hf)
    unfold Framed.After at hafter ⊢
    rw [hrun] at hafter ⊢
    refine ⟨hafter.1,?_⟩
    rcases hresult : p f with ⟨e | a,f'⟩
    · exact not_false
    · have hend := hafter.2
      rw [hresult] at hend
      exact ⟨hend,hJ f a f' hf hresult⟩
  exact hfirst.bind fun a f s hf => hq a hf.2 f s hf.1

theorem PaysTo.ite {c : Prop} [Decidable c] {p' : FrameM α} (hp : PaysTo h n p Q) (hp' : PaysTo h n p' Q) :
    PaysTo h n (if c then p else p') Q := Framed.Moves.ite (fun _ => hp) fun _ => hp'

theorem PaysTo.get_bind {q : ZvmInterpreter → FrameM β} (hq : ∀ f, PaysTo h n (q f) Q₂) :
    PaysTo h n ((get : FrameM ZvmInterpreter) >>= q) Q₂ := fun f s hf => hq f f s hf

/-- What keeps every coverage keeps the one at hand. -/
theorem Steady.pays (hp : Steady h p) : Pays h n p := (hp n).mono le_rfl fun _ _ hf => hf.paid

theorem Steady.bind_to (hp : Steady h p) (hq : ∀ a, PaysTo h n (q a) Q₂) : PaysTo h n (p >>= q) Q₂ := (hp n).bind hq

theorem Steady.bind (hp : Steady h p) (hq : ∀ a, Steady h (q a)) : Steady h (p >>= q) :=
  fun n => hp.bind_to fun a => hq a n

theorem Steady.ite {c : Prop} [Decidable c] {p' : FrameM α} (hp : Steady h p) (hp' : Steady h p') :
    Steady h (if c then p else p') := fun n => (hp n).ite (hp' n)

theorem Steady.get_bind {q : ZvmInterpreter → FrameM β} (hq : ∀ f, Steady h (q f)) :
    Steady h ((get : FrameM ZvmInterpreter) >>= q) := fun n => .get_bind fun f => hq f n

theorem Steady.pure (a : α) : Steady h (pure a : FrameM α) :=
  fun _ => Framed.Moves.pure (fun _ _ hf => hf) a fun _ hf => hf

theorem paysTo_pure {a : α} (hQ : ∀ f, f.Covers n → Q a f) : PaysTo h n (pure a) Q :=
  Framed.Moves.pure (fun _ _ hf => hf) a hQ

theorem Steady.host (c : ZvmCall) : Steady h (host c) := fun _ => Framed.Moves.call (fun _ _ hf => hf) fun _ _ hf => hf

theorem PaysTo.pays (hp : PaysTo h n p fun _ f => f.Covers k) : Pays h n p := hp.mono le_rfl fun _ _ hf => hf.paid

theorem paysFrom_lift {G : ZvmInterpreter → Prop} {p : FrameOp α} (hpaid : ∀ f, G f → (p f).2.Covers 0)
    (hok : ∀ f a f', G f → p f = (.ok a,f') → Q a f') : PaysFrom h G (liftM p) Q := by
  intro f s hf
  have hrun : ((liftM p : FrameM α) f).run h s = (p f,s) := rfl
  have hleft := hpaid f hf
  unfold Framed.After
  rw [hrun]
  refine ⟨fun _ => hleft,?_⟩
  rcases hresult : p f with ⟨e | a,f'⟩
  · exact not_false
  · exact hok f a f' hf hresult

theorem Steady.lift {p : FrameOp α} (hspends : Spending p) (hkeeps : Keeps ZvmInterpreter.memory p) :
    Steady h (liftM p) := by
  intro n
  apply paysFrom_lift
  · exact fun f hf => (hf.spend (hspends f) (hkeeps f)).paid
  · intro f a f' hf hresult
    have hafter := hf.spend (hspends f) (hkeeps f)
    rwa [hresult] at hafter

end Pays

section Charges
variable {σ α β γ : Type} {h : Program.Handler ZvmCall.Reply σ} {n : ℕ} {f f' : ZvmInterpreter}

theorem chargeGas_ok {amt : UInt64} (hok : chargeGas amt f = (.ok (),f')) :
    f' = { f with gas := f'.gas } ∧ f'.gas.toNat + amt.toNat = f.gas.toNat := by
  change (if f.gas < amt then _ else _ : FrameOp Unit) f = _ at hok
  split at hok
  · cases hok
  · rename_i henough
    cases hok
    refine ⟨rfl,?_⟩
    have hle := UInt64.le_iff_toNat_le.mp (UInt64.not_lt.mp henough)
    rw [toNat_sub_of_le henough]
    omega

theorem chargeMemExpansion_ok {size : UInt64} (hok : chargeMemExpansion size f = (.ok (),f')) :
    f' = { f with gas := f'.gas } ∧
      f'.gas.toNat + (memoryGasDelta f.memory.words (wordsOf size)).toNat = f.gas.toNat := by
  unfold chargeMemExpansion at hok
  split at hok
  · rename_i hzero
    cases hok
    refine ⟨rfl,?_⟩
    have hnone : wordsOf size = 0 := by rw [hzero]; rfl
    rw [hnone, memoryGasDelta, if_pos (UInt64.zero_le)]
    rfl
  · rw [bind_ok] at hok
    obtain ⟨_,_,hget,hok⟩ := hok
    cases hget
    split at hok
    · rename_i hfree
      cases hok
      exact ⟨rfl,by rw [hfree]; rfl⟩
    · exact chargeGas_ok hok

/-- After the charge the gas covers the words of the new size too. -/
theorem paysTo_charge (size : UInt64) : PaysTo h n (liftM (chargeMemExpansion size))
    fun _ f => f.Covers (max n (wordsOf size).toNat) := by
  apply paysFrom_lift
  · exact fun f hf => (hf.spend (spending_chargeMemExpansion size f)
      (Keeps.chargeMemExpansion (fun _ _ => rfl) size f)).paid
  · rintro f ⟨⟩ f' ⟨hbounded,hprice⟩ hok
    obtain ⟨hframe,hgas⟩ := chargeMemExpansion_ok hok
    have hmemory : f'.memory = f.memory := by rw [hframe]
    have hctx : f'.ctx = f.ctx := by rw [hframe]
    rw [toNat_memoryGasDelta, ZvmMemory.toNat_words hbounded] at hgas
    refine ⟨hmemory ▸ hbounded,?_⟩
    rw [hmemory, hctx]
    -- the larger of the two windows has been paid for, and the charge starts at the memory
    rcases le_total (wordsOf size).toNat n with hless | hmore
    · rw [max_eq_left hless]
      omega
    · have hstart : cappedPrice f.memory.wordCount ≤ cappedPrice (max f.memory.wordCount n) :=
        cappedPrice_mono (Nat.le_max_left _ _)
      rw [max_eq_right hmore]
      omega

theorem paysTo_read {read : ZvmMemory → Option (α × ZvmMemory)}
    (hread : ∀ {m a m'}, m.Bounded → read m = some (a,m') → ZvmMemory.GrowsTo n m m') :
    PaysTo h n (liftM (readMemory read)) fun _ f => f.Covers n := by
  have happly : ∀ f, f.Covers n → (readMemory read f).2.Covers n := by
    intro f hf
    rw [readMemory_apply]
    rcases hrun : read f.memory with _ | ⟨a,memory⟩
    · exact hf
    · exact hf.grow (hread hf.1 hrun)
  apply paysFrom_lift
  · exact fun f hf => (happly f hf).paid
  · intro f a f' hf hresult
    have hafter := happly f hf
    rwa [hresult] at hafter

theorem paysTo_write {write : ZvmMemory → Option ZvmMemory}
    (hwrite : ∀ {m m'}, m.Bounded → write m = some m' → ZvmMemory.GrowsTo n m m') :
    PaysTo h n (liftM (writeMemory write)) fun _ f => f.Covers n := by
  have happly : ∀ f, f.Covers n → (writeMemory write f).2.Covers n := by
    intro f hf
    rw [writeMemory_apply]
    rcases hrun : write f.memory with _ | memory
    · exact hf
    · exact hf.grow (hwrite hf.1 hrun)
  apply paysFrom_lift
  · exact fun f hf => (happly f hf).paid
  · intro f a f' hf hresult
    have hafter := happly f hf
    rwa [hresult] at hafter

theorem paysTo_storeBytes {off : UInt64} {bytes : List UInt8}
    (hend : bytes ≠ [] → (off.toNat + bytes.length + 31) / 32 ≤ n) :
    PaysTo h n (liftM (storeBytes off bytes)) fun _ f => f.Covers n := by
  induction bytes generalizing off with
  | nil => exact Steady.pure () n
  | cons b rest ih =>
    have hone : (1 : UInt64).toNat = 1 := rfl
    have hlast := hend (List.cons_ne_nil b rest)
    rw [List.length_cons] at hlast
    have hstop : (off + 1).toNat ≤ off.toNat + 1 := by
      rw [UInt64.toNat_add, hone]
      exact Nat.mod_le _ _
    rw [storeBytes, lift_op_bind]
    refine PaysTo.bind (k := n) (paysTo_write ?_) fun _ => ih fun _ => by omega
    intro m m' hm hstore
    obtain ⟨hbounded,hwords⟩ := ZvmMemory.growsTo_store8 hm hstore
    have hround := ZvmMemory.toNat_wordsOf_le (saturatingAdd64 off 1)
    have hsum : (saturatingAdd64 off 1).toNat ≤ off.toNat + 1 := by
      rw [toNat_saturatingAdd64, hone]
      exact Nat.min_le_left _ _
    exact ⟨hbounded,by omega⟩

end Charges

section Operations
variable {σ α β : Type} {h : Program.Handler ZvmCall.Reply σ} {n k : ℕ}

theorem PaysTo.op_bind {p : FrameOp α} {q : α → FrameOp β} {Q : β → ZvmInterpreter → Prop}
    (hp : PaysTo h n (liftM p) fun _ f => f.Covers k) (hq : ∀ a, PaysTo h k (liftM (q a)) Q) :
    PaysTo h n (liftM (p >>= q)) Q := by
  rw [lift_op_bind]
  exact hp.bind hq

theorem Steady.op_bind {p : FrameOp α} {q : α → FrameOp β} {Q : β → ZvmInterpreter → Prop}
    (hp : Steady h (liftM p)) (hq : ∀ a, PaysTo h n (liftM (q a)) Q) : PaysTo h n (liftM (p >>= q)) Q :=
  (hp n).op_bind hq

theorem PaysTo.op_get_bind {q : ZvmInterpreter → FrameOp β} {Q : β → ZvmInterpreter → Prop}
    (hq : ∀ f, PaysTo h n (liftM (q f)) Q) : PaysTo h n (liftM ((get : FrameOp ZvmInterpreter) >>= q)) Q :=
  fun f s hf => hq f f s hf

theorem PaysTo.op_ite {c : Prop} [Decidable c] {p p' : FrameOp α} {Q : α → ZvmInterpreter → Prop}
    (hp : PaysTo h n (liftM p) Q) (hp' : PaysTo h n (liftM p') Q) : PaysTo h n (liftM (if c then p else p')) Q := by
  split
  · exact hp
  · exact hp'

theorem paysTo_throw (e : ZvmFault) {Q : α → ZvmInterpreter → Prop} :
    PaysTo h n (liftM (throw e : FrameOp α)) Q := by
  apply paysFrom_lift
  · exact fun f hf => hf.paid
  · rintro f a f' hf ⟨⟩

theorem PaysTo.op_orPanic_bind {r : Option α} {q : α → FrameOp β} {Q : β → ZvmInterpreter → Prop}
    (hq : ∀ a, r = some a → PaysTo h n (liftM (q a)) Q) : PaysTo h n (liftM (orPanic r >>= q)) Q := by
  cases r with
  | none => exact paysTo_throw .panicked
  | some a => exact hq a rfl

theorem steady_fail (e : ZvmError) : Steady h (liftM (fail e : FrameOp α)) := .lift (.throw _) (.throw _)

theorem steady_push (word : U256) : Steady h (liftM (push word)) :=
  .lift (spending_push word) (.push (fun _ _ => rfl) word)

theorem steady_pop : Steady h (liftM pop) := .lift spending_pop (.pop fun _ _ => rfl)

theorem steady_popU64 : Steady h (liftM popU64) := .lift spending_popU64 (.popU64 fun _ _ => rfl)

theorem steady_popU128 : Steady h (liftM popU128) := .lift spending_popU128 (.popU128 fun _ _ => rfl)

theorem steady_popAddress : Steady h (liftM popAddress) := .lift spending_popAddress (.popAddress fun _ _ => rfl)

theorem steady_chargeGas (amt : UInt64) : Steady h (liftM (chargeGas amt)) :=
  .lift (spending_chargeGas amt) (.chargeGas (fun _ _ => rfl) amt)

theorem steady_touchAddress (addr : Address) : Steady h (liftM (touchAddress addr)) :=
  .lift (spending_touchAddress addr) (.touchAddress (fun _ _ => rfl) (fun _ _ => rfl) addr)

theorem steady_touchSlot (key : H256) (cold : UInt64) : Steady h (liftM (touchSlot key cold)) := by
  apply Steady.lift (spending_touchSlot key cold)
  have hcharge := fun amt => Keeps.chargeGas (π := ZvmInterpreter.memory) (fun _ _ => rfl) amt
  exact fun f => hcharge _ { f with accessedSlots := f.accessedSlots.insert (f.ctx.contract,key) }

theorem steady_staticGuard : Steady h (liftM staticGuard) := .lift spending_staticGuard .staticGuard

theorem steady_advance : Steady h (liftM advance) := .lift spending_advance (.modify fun _ => rfl)

theorem steady_setReturnData (data : List UInt8) : Steady h (liftM (setReturnData data)) :=
  .lift (spending_setReturnData data) (.modify fun _ => rfl)

theorem steady_popTopics (n : ℕ) : Steady h (liftM (popTopics n)) := by
  apply Steady.lift (spending_popTopics n)
  induction n with
  | zero => exact .pure []
  | succ n ih => exact (Keeps.pop fun _ _ => rfl).bind fun _ => ih.bind fun _ => .pure _

theorem steady_pushReply (c : ZvmCall) (word : c.Reply → U256) : Steady h (pushReply c word) :=
  (Steady.host c).bind fun _ => steady_push _

theorem paysTo_window (size : UInt64) :
    PaysTo h 0 (liftM (chargeMemExpansion size)) fun _ f => f.Covers (wordsOf size).toNat := by
  have hcharge := paysTo_charge (h := h) (n := 0) size
  rwa [Nat.zero_max] at hcharge

theorem paysTo_readSlice {offset len : UInt64} (hn : (wordsOf (saturatingAdd64 offset len)).toNat ≤ n) :
    PaysTo h n (liftM (readSlice offset len)) fun _ f => f.Covers n := by
  apply paysTo_read
  intro m bytes m' hm hread
  obtain ⟨hbounded,hwords⟩ := ZvmMemory.growsTo_readSlice hm hread
  exact ⟨hbounded,by omega⟩

theorem pays_writeSlice {offset len : UInt64} {src : List UInt8} (hsrc : src.length = len.toNat) :
    Pays h (wordsOf (saturatingAdd64 offset len)).toNat (liftM (writeMemory (·.writeSlice offset src))) :=
  (paysTo_write fun hm hwrite => ZvmMemory.growsTo_writeSlice hm hsrc hwrite).pays

end Operations

end ZbxChain.Zvm
