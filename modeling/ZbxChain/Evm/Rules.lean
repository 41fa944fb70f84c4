import ZbxChain.Evm.Interpreter
import ZbxChain.Zvm.MemoryWindows

/-! # What an opcode does to its frame

An opcode spends gas and stays in its context and code. The memory is a whole number of words
within its limit, so a window that was made room for can be read and written.
-/
namespace ZbxChain.Evm

section Memory
open Zvm (slice overwrite maxVecLen)

structure Memory.Valid (m : Memory) : Prop where
  aligned : m.data.length % 32 = 0
  bounded : m.data.length ≤ maxMemory

def Memory.Holds (m : Memory) (offset size : UInt64) : Prop :=
  size = 0 ∨ offset.toNat + size.toNat ≤ m.data.length

variable {m m' : Memory} {offset size : UInt64}

theorem Memory.valid_new : Memory.new.Valid := ⟨rfl,Nat.zero_le _⟩

/-- An expansion that is priced leaves its window in the memory. -/
theorem Memory.ensure_ok {cost : UInt64} (hm : m.Valid) (h : m.ensure offset size = .ok (cost,m')) :
    m'.Valid ∧ m'.Holds offset size := by
  obtain ⟨haligned,hbounded⟩ := hm
  unfold Memory.ensure at h
  split at h
  · rename_i hzero
    cases h
    exact ⟨⟨haligned,hbounded⟩,Or.inl hzero⟩
  · dsimp only at h
    split at h
    · cases h
    · rename_i hstop
      have hlimit : maxMemory % 32 = 0 := rfl
      split at h
      · rename_i hless
        cases h
        have hlen : (m.data ++ List.replicate (((offset.toNat + size.toNat + 31) / 32) * 32 - m.data.length)
            (0 : UInt8)).length = ((offset.toNat + size.toNat + 31) / 32) * 32 := by
          rw [List.length_append, List.length_replicate]
          omega
        refine ⟨⟨?_,?_⟩,Or.inr ?_⟩
        · dsimp only
          rw [hlen]
          omega
        · dsimp only
          rw [hlen]
          omega
        · dsimp only
          rw [hlen]
          omega
      · cases h
        exact ⟨⟨haligned,hbounded⟩,Or.inr (by omega)⟩

theorem Memory.read_some (hm : m.Valid) (h : m.Holds offset size) : ∃ out, m.read offset size = some out := by
  have hbounded := hm.bounded
  have hmax : maxMemory ≤ maxVecLen := by decide
  have hsmall : maxMemory < 2 ^ 63 := by decide
  have hsize : size.toNat ≤ maxMemory := by
    rcases h with rfl | h
    · exact Nat.zero_le _
    · omega
  unfold Memory.read Memory.resized
  split
  · exact ⟨_,if_neg (by omega)⟩
  · rename_i hinside
    have hlen : (UInt64.ofNat m.data.length).toNat = m.data.length := by
      rw [UInt64.toNat_ofNat']
      exact Nat.mod_eq_of_lt (by omega)
    have hsum : (offset + size).toNat = offset.toNat + size.toNat := by
      rw [UInt64.toNat_add]
      exact Nat.mod_eq_of_lt (by omega)
    have hrange : offset.toNat ≤ (min (offset + size) (UInt64.ofNat m.data.length)).toNat ∧
        (min (offset + size) (UInt64.ofNat m.data.length)).toNat ≤ m.data.length := by
      rw [toNat_min64, hsum, hlen]
      omega
    simp only [slice, if_pos hrange, Option.bind_eq_bind, Option.bind_some]
    exact ⟨_,if_neg (by omega)⟩

theorem Memory.write_some {data : List UInt8} (hm : m.Valid) (h : m.Holds offset size) (hdata : data.length ≤ size.toNat) :
    ∃ m', m.write offset data = some m' ∧ m'.Valid := by
  unfold Memory.write
  split
  · exact ⟨m,rfl,hm⟩
  · rename_i hne
    have hpositive : 0 < data.length := List.length_pos_of_ne_nil hne
    have hbounded := hm.bounded
    have hsmall : maxMemory < 2 ^ 63 := by decide
    have hwindow : offset.toNat + data.length ≤ m.data.length := by
      rcases h with rfl | h
      · have hzero : (0 : UInt64).toNat = 0 := rfl
        omega
      · omega
    have hstop : min (offset.toNat + data.length) (2 ^ 64 - 1) - m.data.length = 0 := by omega
    dsimp only
    rw [if_neg (by omega), hstop, List.replicate_zero, List.append_nil, if_pos hwindow]
    refine ⟨_,rfl,?_⟩
    have hlen := Zvm.ZvmMemory.length_overwrite hwindow
    exact ⟨hlen ▸ hm.aligned,hlen ▸ hm.bounded⟩

end Memory

section Goes
variable {σ : Type} {W : σ → σ → Prop} {f f₁ f₂ : EVMInterpreter} {s s₁ s₂ : σ}

/-- The frame stays in its context and code, with no more gas and the same logs. -/
structure Stays (f f₁ : EVMInterpreter) : Prop where
  ctx : f₁.ctx = f.ctx
  code : f₁.code = f.code
  frames : f₁.frames = f.frames
  logs : f₁.logs = f.logs
  pc : f.pc ≤ f₁.pc
  gas : f₁.gasRemaining.toNat ≤ f.gasRemaining.toNat

/-- The frame stays, and the host moves by `W`. -/
structure Goes (W : σ → σ → Prop) (f : EVMInterpreter) (s : σ) (f₁ : EVMInterpreter) (s₁ : σ) : Prop
    extends Stays f f₁ where
  host : W s s₁

/-- The same, except that there may be new logs. -/
structure Spends (W : σ → σ → Prop) (f : EVMInterpreter) (s : σ) (f₁ : EVMInterpreter) (s₁ : σ) : Prop where
  ctx : f₁.ctx = f.ctx
  code : f₁.code = f.code
  frames : f₁.frames = f.frames
  pc : f.pc ≤ f₁.pc
  gas : f₁.gasRemaining.toNat ≤ f.gasRemaining.toNat
  host : W s s₁

theorem Goes.spends (h : Goes W f s f₁ s₁) : Spends W f s f₁ s₁ := ⟨h.ctx,h.code,h.frames,h.pc,h.gas,h.host⟩

theorem Stays.refl (f : EVMInterpreter) : Stays f f := ⟨rfl,rfl,rfl,rfl,le_rfl,le_rfl⟩

theorem Stays.trans (h : Stays f f₁) (h' : Stays f₁ f₂) : Stays f f₂ :=
  ⟨h'.ctx.trans h.ctx,h'.code.trans h.code,h'.frames.trans h.frames,h'.logs.trans h.logs,h.pc.trans h'.pc,
    h'.gas.trans h.gas⟩

theorem Spends.trans [IsTrans σ W] (h : Spends W f s f₁ s₁) (h' : Spends W f₁ s₁ f₂ s₂) : Spends W f s f₂ s₂ :=
  ⟨h'.ctx.trans h.ctx,h'.code.trans h.code,h'.frames.trans h.frames,h.pc.trans h'.pc,h'.gas.trans h.gas,
    IsTrans.trans _ _ _ h.host h'.host⟩

theorem Goes.trans [IsTrans σ W] (h : Goes W f s f₁ s₁) (h' : Goes W f₁ s₁ f₂ s₂) : Goes W f s f₂ s₂ :=
  ⟨h.toStays.trans h'.toStays,IsTrans.trans _ _ _ h.host h'.host⟩

end Goes

section Rules
variable {σ α β : Type} {h : Host σ} {W : σ → σ → Prop} {p : EvmM α} {q : α → EvmM β}

/-- From a frame in `G` the program moves by `R`, does not panic, and ends in `Q` or with an
error. -/
abbrev Leads (h : Host σ) (R : EVMInterpreter → σ → EVMInterpreter → σ → Prop) (G : EVMInterpreter → Prop)
    (p : EvmM α) (Q : α → EVMInterpreter → Prop) : Prop := Framed.Moves h (· = EvmFault.panicked) R G p Q

def Still (h : Host σ) (W : σ → σ → Prop) (p : EvmM α) : Prop :=
  ∀ M : Memory → Prop, Leads h (Goes W) (fun f => M f.memory) p (fun _ f => M f.memory)

def Smooth (h : Host σ) (W : σ → σ → Prop) (p : EvmM α) : Prop :=
  Leads h (Goes W) (fun f => f.memory.Valid) p (fun _ f => f.memory.Valid)

/-- The same, from a memory that has the window. -/
def InWindow (h : Host σ) (W : σ → σ → Prop) (offset size : UInt64) (p : EvmM α) : Prop :=
  Leads h (Goes W) (fun f => f.memory.Valid ∧ f.memory.Holds offset size) p (fun _ f => f.memory.Valid)

theorem Still.smooth (hp : Still h W p) : Smooth h W p := hp Memory.Valid

theorem InWindow.of_smooth {offset size : UInt64} (hp : Smooth h W p) : InWindow h W offset size p :=
  hp.mono (fun _ hf => hf.1) fun _ _ hf => hf

theorem Still.get_bind {q : EVMInterpreter → EvmM α} (hq : ∀ f, Still h W (q f)) :
    Still h W ((get : EvmM EVMInterpreter) >>= q) := fun M f s hf => hq f M f s hf

theorem Smooth.get_bind {q : EVMInterpreter → EvmM α} (hq : ∀ f, Smooth h W (q f)) :
    Smooth h W ((get : EvmM EVMInterpreter) >>= q) := fun f s hf => hq f f s hf

theorem Still.ite {c : Prop} [Decidable c] {p p' : EvmM α} (hp : Still h W p) (hp' : Still h W p') :
    Still h W (if c then p else p') := fun M => .ite (fun _ => hp M) fun _ => hp' M

theorem Smooth.ite {c : Prop} [Decidable c] {p p' : EvmM α} (hp : Smooth h W p) (hp' : Smooth h W p') :
    Smooth h W (if c then p else p') := Framed.Moves.ite (fun _ => hp) fun _ => hp'

theorem Still.modify [IsPreorder σ W] {g : EVMInterpreter → EVMInterpreter} (hg : ∀ f, Stays f (g f))
    (hmemory : ∀ f, (g f).memory = f.memory) : Still h W (modify g : EvmM Unit) := by
  intro M
  apply Framed.Moves.modify (fun f s _ => ⟨hg f,Std.Refl.refl s⟩)
  intro f hf
  rw [hmemory]
  exact hf

theorem Still.host {c : EvmCall} (hc : ∀ s, W s (h c s).2) : Still h W (EvmM.host c) :=
  fun _ => Framed.Moves.call (fun f s => ⟨Stays.refl f,hc s⟩) fun _ _ hf => hf

theorem after_sliceAt {data : List UInt8} {start n : ℕ} (hrange : start + n ≤ data.length) {f : EVMInterpreter} {s : σ}
    {Q : Except EvmFault (List UInt8) → EVMInterpreter → σ → Prop} :
    Framed.After h (EvmM.sliceAt data start n) f s Q ↔ Q (.ok ((data.drop start).take n)) f s := by
  unfold EvmM.sliceAt
  rw [if_pos hrange]
  exact Iff.rfl

theorem InWindow.slice_bind {offset size : UInt64} {data : List UInt8} {start n : ℕ} {q : List UInt8 → EvmM α}
    (hrange : start + n ≤ data.length) (hq : InWindow h W offset size (q ((data.drop start).take n))) :
    InWindow h W offset size (EvmM.sliceAt data start n >>= q) := by
  intro f s hf
  rw [Framed.after_bind, after_sliceAt hrange]
  exact hq f s hf

theorem goes_refl [IsPreorder σ W] (f : EVMInterpreter) (s : σ) : Goes W f s f s :=
  ⟨Stays.refl f,Std.Refl.refl s⟩

section Preorder
variable [IsPreorder σ W]

theorem Still.bind (hp : Still h W p) (hq : ∀ a, Still h W (q a)) : Still h W (p >>= q) :=
  fun M => (hp M).bind Goes.trans fun a => hq a M

theorem Smooth.bind (hp : Smooth h W p) (hq : ∀ a, Smooth h W (q a)) : Smooth h W (p >>= q) :=
  Framed.Moves.bind Goes.trans hp hq

theorem Still.bind_smooth (hp : Still h W p) (hq : ∀ a, Smooth h W (q a)) : Smooth h W (p >>= q) :=
  hp.smooth.bind hq

theorem Still.bind_leads {Q : β → EVMInterpreter → Prop} (hp : Still h W p)
    (hq : ∀ a, Leads h (Goes W) (fun f => f.memory.Valid) (q a) Q) :
    Leads h (Goes W) (fun f => f.memory.Valid) (p >>= q) Q := Framed.Moves.bind Goes.trans hp.smooth hq

theorem InWindow.bind {offset size : UInt64} (hp : Still h W p) (hq : ∀ a, InWindow h W offset size (q a)) :
    InWindow h W offset size (p >>= q) :=
  (hp fun m => m.Valid ∧ m.Holds offset size).bind Goes.trans hq

theorem Still.pure (a : α) : Still h W (Pure.pure a) := fun _ => Framed.Moves.pure goes_refl a fun _ hf => hf

theorem Still.fail (e : EvmError) : Still h W (EvmM.fail e : EvmM α) :=
  fun _ => Framed.Moves.throw goes_refl (by rintro ⟨⟩)

theorem Still.orFail (r : Except EvmError α) : Still h W (EvmM.orFail r) := by
  cases r with
  | error e => exact .fail e
  | ok a => exact .pure a

theorem still_push (val : Word) : Still h W (EvmM.push val) :=
  .get_bind fun _ => (Still.orFail _).bind fun _ =>
    .modify (fun _ => ⟨rfl,rfl,rfl,rfl,le_rfl,le_rfl⟩) fun _ => rfl

theorem still_pushU64 (v : UInt64) : Still h W (EvmM.pushU64 v) := still_push _

theorem still_pop : Still h W EvmM.pop := by
  apply Still.get_bind
  intro f
  apply (Still.orFail _).bind
  rintro ⟨val,stack⟩
  exact Still.bind (.modify (fun _ => ⟨rfl,rfl,rfl,rfl,le_rfl,le_rfl⟩) fun _ => rfl) fun _ => .pure val

theorem still_popU64 : Still h W EvmM.popU64 := still_pop.bind fun _ => .pure _

theorem still_popAddress : Still h W EvmM.popAddress := still_pop.bind fun _ => .pure _

theorem toNat_sub_of_le {x y : UInt64} (hle : ¬ x < y) : (x - y).toNat = x.toNat - y.toNat :=
  UInt64.toNat_sub_of_le x y (UInt64.not_lt.mp hle)

theorem still_consumeGas (amount : UInt64) : Still h W (EvmM.consumeGas amount) := by
  intro M f s hf
  refine Framed.after_get_bind.mpr (Framed.after_ite.mpr ?_)
  split
  · exact ⟨goes_refl f s,by rintro ⟨⟩⟩
  · rename_i henough
    refine ⟨⟨⟨rfl,rfl,rfl,rfl,le_rfl,?_⟩,Std.Refl.refl s⟩,hf⟩
    change (f.gasRemaining - amount).toNat ≤ f.gasRemaining.toNat
    rw [toNat_sub_of_le henough]
    exact Nat.sub_le _ _

theorem still_touchAddress (addr : Address) : Still h W (EvmM.touchAddress addr) :=
  .get_bind fun _ => .ite (.pure ()) ((still_consumeGas _).bind fun _ =>
    .modify (fun _ => ⟨rfl,rfl,rfl,rfl,le_rfl,le_rfl⟩) fun _ => rfl)

theorem still_touchSlot (key : Word) : Still h W (EvmM.touchSlot key) :=
  .get_bind fun _ => .get_bind fun _ => .ite (.pure ()) ((still_consumeGas _).bind fun _ =>
    .modify (fun _ => ⟨rfl,rfl,rfl,rfl,le_rfl,le_rfl⟩) fun _ => rfl)

theorem still_setReturnData (data : List UInt8) : Still h W (EvmM.setReturnData data) :=
  .modify (fun _ => ⟨rfl,rfl,rfl,rfl,le_rfl,le_rfl⟩) fun _ => rfl

theorem still_staticGuard : Still h W EvmM.staticGuard := .get_bind fun _ => .ite (.fail _) (.pure ())

/-- After `expand` the window stands. -/
theorem leads_expand (offset size : UInt64) : Leads h (Goes W) (fun f => f.memory.Valid) (EvmM.expand offset size)
    (fun _ f => f.memory.Valid ∧ f.memory.Holds offset size) := by
  intro f s hf
  have hget : EvmM.expand offset size f = (EvmM.orFail (f.memory.ensure offset size) >>= fun r => do
    modify ({ · with memory := r.2 })
    EvmM.consumeGas r.1 : EvmM Unit) f := rfl
  unfold Framed.After
  rw [hget]
  rcases hensure : f.memory.ensure offset size with e | ⟨cost,memory⟩
  · exact ⟨goes_refl f s,by rintro ⟨⟩⟩
  · have hroom := Memory.ensure_ok hf hensure
    have hgrown : Goes W f s { f with memory := memory } s := ⟨⟨rfl,rfl,rfl,rfl,le_rfl,le_rfl⟩,Std.Refl.refl s⟩
    have hpaid := still_consumeGas (h := h) (W := W) cost (fun m => m.Valid ∧ m.Holds offset size)
      { f with memory := memory } s hroom
    exact ⟨hgrown.trans hpaid.1,hpaid.2⟩

theorem Smooth.expand (offset size : UInt64) : Smooth h W (EvmM.expand offset size) :=
  (leads_expand offset size).mono (fun _ hf => hf) fun _ _ hf => hf.1

/-- Reads and writes in a window that was expanded first keep the memory valid. -/
theorem Smooth.window {offset size : UInt64} {q : Unit → EvmM α} (hq : InWindow h W offset size (q ())) :
    Smooth h W (EvmM.expand offset size >>= q) := (leads_expand offset size).bind Goes.trans fun _ => hq

theorem leads_readMemory (offset size : UInt64) : Leads h (Goes W)
    (fun f => f.memory.Valid ∧ f.memory.Holds offset size) (EvmM.readMemory offset size) (fun _ f => f.memory.Valid) := by
  rintro f s ⟨hvalid,hholds⟩
  obtain ⟨out,hout⟩ := Memory.read_some hvalid hholds
  have hrun : EvmM.readMemory offset size f = .done (.ok out,f) := by
    change EvmM.orPanic (f.memory.read offset size) f = _
    rw [hout]
    rfl
  unfold Framed.After
  rw [hrun]
  exact ⟨goes_refl f s,hvalid⟩

theorem InWindow.read_bind {offset size : UInt64} {q : List UInt8 → EvmM α} (hq : ∀ data, Smooth h W (q data)) :
    InWindow h W offset size (EvmM.readMemory offset size >>= q) :=
  (leads_readMemory offset size).bind Goes.trans hq

theorem InWindow.write {offset size : UInt64} {data : List UInt8} (hdata : data.length ≤ size.toNat) :
    InWindow h W offset size (EvmM.writeMemory offset data) := by
  rintro f s ⟨hvalid,hholds⟩
  obtain ⟨memory,hwrite,hvalid'⟩ := Memory.write_some hvalid hholds hdata
  have hrun : EvmM.writeMemory offset data f = .done (.ok (),{ f with memory := memory }) := by
    change (EvmM.orPanic (f.memory.write offset data) >>= fun memory =>
      (modify ({ · with memory := memory }) : EvmM Unit)) f = _
    rw [hwrite]
    rfl
  unfold Framed.After
  rw [hrun]
  exact ⟨⟨⟨rfl,rfl,rfl,rfl,le_rfl,le_rfl⟩,Std.Refl.refl s⟩,hvalid'⟩

end Preorder

end Rules

end ZbxChain.Evm
