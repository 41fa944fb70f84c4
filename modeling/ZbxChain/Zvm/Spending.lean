import ZbxChain.Zvm.Effects
import ZbxChain.Zvm.MemoryWindows

/-! # What an opcode does to its frame, whatever the host replies

Opcodes spend gas and stay in their frame. The calls they make on the host are read off the
program of the opcode: in a static frame most of them are refused before they are made.
-/
namespace ZbxChain.Zvm

structure Spends (f f' : ZvmInterpreter) : Prop where
  ctx : f'.ctx = f.ctx
  depth : f'.depth = f.depth
  gas : f'.gas.toNat ≤ f.gas.toNat
  memory : f.memory.Bounded → f'.memory.Bounded

theorem Spends.refl (f : ZvmInterpreter) : Spends f f := ⟨rfl,rfl,Nat.le_refl _,id⟩

variable {f f' f'' : ZvmInterpreter} {α β : Type}

theorem Spends.trans (h : Spends f f') (h' : Spends f' f'') : Spends f f'' :=
  ⟨h'.ctx.trans h.ctx,h'.depth.trans h.depth,h'.gas.trans h.gas,fun hm => h'.memory (h.memory hm)⟩

section Operations

def Spending (p : FrameOp α) : Prop := ∀ f, Spends f (p f).2

theorem Spending.pure (a : α) : Spending (pure a) := Spends.refl

theorem Spending.throw (e : ZvmFault) : Spending (throw e : FrameOp α) := Spends.refl

theorem Spending.bind {p : FrameOp α} {q : α → FrameOp β} (hp : Spending p) (hq : ∀ a, Spending (q a)) :
    Spending (p >>= q) := by
  intro f
  change Spends f ((ExceptT.bindCont q (p f).1) (p f).2).2
  have hfirst := hp f
  generalize p f = r at hfirst ⊢
  rcases r with ⟨e | a,f₁⟩
  · exact hfirst
  · exact hfirst.trans (hq a f₁)

theorem Spending.get_bind {q : ZvmInterpreter → FrameOp α} (hq : ∀ f, Spending (q f)) :
    Spending ((get : FrameOp ZvmInterpreter) >>= q) := fun f => hq f f

theorem Spending.ite {c : Prop} [Decidable c] {p q : FrameOp α} (hp : Spending p) (hq : Spending q) :
    Spending (if c then p else q) := by
  split
  · exact hp
  · exact hq

theorem Spending.modify {g : ZvmInterpreter → ZvmInterpreter} (hg : ∀ f, Spends f (g f)) :
    Spending (modify g : FrameOp Unit) := hg

theorem spends_stack (f : ZvmInterpreter) (stack : ZvmStack) : Spends f { f with stack := stack } :=
  ⟨rfl,rfl,Nat.le_refl _,id⟩

theorem Spending.orFail (r : Except ZvmError α) : Spending (FrameOp.orFail r) := by
  cases r with
  | error e => exact Spending.throw _
  | ok a => exact Spending.pure a

theorem Spending.orPanic (r : Option α) : Spending (FrameOp.orPanic r) := by
  cases r with
  | none => exact Spending.throw _
  | some a => exact Spending.pure a

theorem spending_push (word : U256) : Spending (FrameOp.push word) :=
  Spending.get_bind fun _ => (Spending.orFail _).bind fun _ => Spending.modify fun f => spends_stack f _

theorem spending_pop : Spending FrameOp.pop := by
  apply Spending.get_bind
  intro f
  apply (Spending.orFail _).bind
  rintro ⟨word,stack⟩
  exact (Spending.modify fun f => spends_stack f stack).bind fun _ => Spending.pure word

theorem spending_popU64 : Spending FrameOp.popU64 := spending_pop.bind fun _ => .pure _

theorem spending_popU128 : Spending FrameOp.popU128 := spending_pop.bind fun _ => .pure _

theorem spending_popAddress : Spending FrameOp.popAddress := spending_pop.bind fun _ => .pure _

theorem toNat_sub_of_le {x y : UInt64} (h : ¬ x < y) : (x - y).toNat = x.toNat - y.toNat :=
  UInt64.toNat_sub_of_le x y (UInt64.not_lt.mp h)

/-- A charge that the frame can pay leaves it with less gas. -/
theorem spends_charge {amt : UInt64} (henough : ¬ f.gas < amt) : Spends f { f with gas := f.gas - amt } := by
  refine ⟨rfl,rfl,?_,id⟩
  dsimp only
  rw [toNat_sub_of_le henough]
  exact Nat.sub_le _ _

theorem spending_useGas (gasUsed : UInt64) :
    Spending (modify (fun f => { f with gas := saturatingSub64 f.gas gasUsed })) := by
  refine .modify fun f => ⟨rfl,rfl,?_,id⟩
  dsimp only
  rw [toNat_saturatingSub64]
  exact Nat.sub_le _ _

/-- Whatever comes of a charge, no gas is made. -/
theorem spending_chargeGas (amt : UInt64) : Spending (FrameOp.chargeGas amt) := by
  intro f
  change Spends f ((if f.gas < amt then _ else _ : FrameOp Unit) f).2
  split
  · exact ⟨rfl,rfl,Nat.zero_le _,id⟩
  · rename_i henough
    exact spends_charge henough

/-- The charge of an expansion touches nothing but the gas. -/
theorem spending_chargeMemExpansion (newSize : UInt64) : Spending (FrameOp.chargeMemExpansion newSize) :=
  Spending.ite (.pure ()) (.get_bind fun _ => .ite (.pure ()) (spending_chargeGas _))

theorem spending_touchAddress (addr : Address) : Spending (FrameOp.touchAddress addr) := by
  intro f
  have hwarm : Spends f { f with accessedAddresses := f.accessedAddresses.insert addr } :=
    ⟨rfl,rfl,Nat.le_refl _,id⟩
  exact hwarm.trans (spending_chargeGas _ _)

theorem spending_touchSlot (key : H256) (cold : UInt64) : Spending (FrameOp.touchSlot key cold) := by
  intro f
  have hwarm : Spends f { f with accessedSlots := f.accessedSlots.insert (f.ctx.contract,key) } :=
    ⟨rfl,rfl,Nat.le_refl _,id⟩
  exact hwarm.trans (spending_chargeGas _ _)

theorem readMemory_apply (read : ZvmMemory → Option (α × ZvmMemory)) (f : ZvmInterpreter) :
    FrameOp.readMemory read f = match read f.memory with
      | some (a,memory) => (.ok a,{ f with memory := memory })
      | none => (.error .panicked,f) := by
  have hread : FrameOp.readMemory read f = (FrameOp.orPanic (read f.memory) >>= fun r => do
    modify ({ · with memory := r.2 })
    pure r.1 : FrameOp α) f := rfl
  rw [hread]
  rcases read f.memory with _ | ⟨a,memory⟩
  · rfl
  · rfl

theorem writeMemory_apply (write : ZvmMemory → Option ZvmMemory) (f : ZvmInterpreter) :
    FrameOp.writeMemory write f = match write f.memory with
      | some memory => (.ok (),{ f with memory := memory })
      | none => (.error .panicked,f) := by
  have hwrite : FrameOp.writeMemory write f = (FrameOp.orPanic (write f.memory) >>= fun memory =>
    modify ({ · with memory := memory }) : FrameOp Unit) f := rfl
  rw [hwrite]
  rcases write f.memory with _ | memory
  · rfl
  · rfl

/-- A read may grow the memory, within what a vector holds. -/
theorem spending_readMemory {read : ZvmMemory → Option (α × ZvmMemory)}
    (hread : ∀ {m a m'}, m.Bounded → read m = some (a,m') → m'.Bounded) : Spending (FrameOp.readMemory read) := by
  intro f
  rw [readMemory_apply]
  rcases hrun : read f.memory with _ | ⟨a,memory⟩
  · exact Spends.refl f
  · exact ⟨rfl,rfl,Nat.le_refl _,fun hm => hread hm hrun⟩

theorem spending_writeMemory {write : ZvmMemory → Option ZvmMemory}
    (hwrite : ∀ {m m'}, m.Bounded → write m = some m' → m'.Bounded) : Spending (FrameOp.writeMemory write) := by
  intro f
  rw [writeMemory_apply]
  rcases hrun : write f.memory with _ | memory
  · exact Spends.refl f
  · exact ⟨rfl,rfl,Nat.le_refl _,fun hm => hwrite hm hrun⟩

theorem spending_store8 (offset : UInt64) (byte : UInt8) :
    Spending (FrameOp.writeMemory (·.store8 offset byte)) := spending_writeMemory ZvmMemory.bounded_store8

theorem spending_writeSlice {offset : UInt64} {src : List UInt8} (hsrc : src.length < 2 ^ 64) :
    Spending (FrameOp.writeMemory (·.writeSlice offset src)) :=
  spending_writeMemory fun hm => ZvmMemory.bounded_writeSlice hm hsrc

theorem length_slice_lt {data bytes : List UInt8} {start stop : UInt64}
    (h : slice data start stop = some bytes) : bytes.length < 2 ^ 64 := by
  obtain ⟨-,-,hlen⟩ := slice_some h
  have hstop := stop.toNat_lt
  omega

theorem Spending.orPanic_bind {r : Option α} {q : α → FrameOp β} (hq : ∀ a, r = some a → Spending (q a)) :
    Spending (FrameOp.orPanic r >>= q) := by
  cases r with
  | none => exact Spending.throw _
  | some a => exact hq a rfl

theorem length_zeroPadded_lt {data bytes : List UInt8} {off len : UInt64}
    (h : zeroPadded data off len = some bytes) : bytes.length < 2 ^ 64 :=
  length_zeroPadded h ▸ len.toNat_lt

theorem spending_readSlice (offset len : UInt64) : Spending (FrameOp.readSlice offset len) :=
  spending_readMemory ZvmMemory.bounded_readSlice

theorem spending_readString (offset len : UInt64) : Spending (FrameOp.readString offset len) :=
  (spending_readSlice offset len).bind fun _ => .ite (.pure _) (.throw _)

theorem spending_staticGuard : Spending FrameOp.staticGuard := .get_bind fun _ => .ite (.throw _) (.pure ())

theorem spending_advance : Spending FrameOp.advance := .modify fun _ => ⟨rfl,rfl,Nat.le_refl _,id⟩

theorem spending_setReturnData (data : List UInt8) : Spending (setReturnData data) :=
  .modify fun _ => ⟨rfl,rfl,Nat.le_refl _,id⟩

theorem spending_storeBytes (off : UInt64) (bytes : List UInt8) : Spending (storeBytes off bytes) := by
  induction bytes generalizing off with
  | nil => exact .pure ()
  | cons b rest ih => exact (spending_store8 off b).bind fun _ => ih (off + 1)

end Operations

section Opcodes
open FrameOp

theorem spending_binary (g : U256 → U256 → U256) : Spending (binary g) :=
  spending_pop.bind fun _ => spending_pop.bind fun _ => spending_push _

theorem spending_unary (g : U256 → U256) : Spending (unary g) := spending_pop.bind fun _ => spending_push _

theorem spending_ternary (g : U256 → U256 → U256 → U256) : Spending (ternary g) :=
  spending_pop.bind fun _ => spending_pop.bind fun _ => spending_pop.bind fun _ => spending_push _

theorem spending_exp : Spending exp :=
  spending_pop.bind fun _ => spending_pop.bind fun _ => (spending_chargeGas _).bind fun _ => spending_push _

theorem spending_keccak (P : Platform) : Spending (keccak P) :=
  spending_popU64.bind fun _ => spending_popU64.bind fun _ => (spending_chargeGas _).bind fun _ =>
    (spending_chargeMemExpansion _).bind fun _ => (spending_readSlice _ _).bind fun _ => spending_push _

theorem spending_callDataLoad : Spending callDataLoad :=
  spending_pop.bind fun _ => .get_bind fun _ => spending_push _

/-- A copy pays for its words and its window, and writes what it has read. -/
theorem spending_copyFrom (source : ZvmContext → List UInt8) : Spending (copyFrom source) :=
  spending_popU64.bind fun _ => spending_popU64.bind fun _ => spending_popU64.bind fun _ =>
    (spending_chargeGas _).bind fun _ => (spending_chargeMemExpansion _).bind fun _ =>
    .get_bind fun _ => .orPanic_bind fun _ hbuf => spending_writeSlice (length_zeroPadded_lt hbuf)

theorem spending_returnDataCopy : Spending returnDataCopy :=
  spending_popU64.bind fun _ => spending_popU64.bind fun _ => spending_popU64.bind fun _ =>
    (spending_chargeGas _).bind fun _ => (spending_chargeMemExpansion _).bind fun _ =>
    .get_bind fun _ => .ite (.throw _) (.orPanic_bind fun _ hbuf => spending_writeSlice (length_slice_lt hbuf))

theorem spending_mcopy : Spending mcopy :=
  spending_popU64.bind fun _ => spending_popU64.bind fun _ => spending_popU64.bind fun _ =>
    (spending_chargeGas _).bind fun _ => (spending_chargeMemExpansion _).bind fun _ =>
    spending_writeMemory ZvmMemory.bounded_copy

theorem spending_mload : Spending mload :=
  spending_popU64.bind fun _ => (spending_chargeMemExpansion _).bind fun _ =>
    (spending_readMemory ZvmMemory.bounded_load).bind fun _ => spending_push _

theorem spending_mstore : Spending mstore :=
  spending_popU64.bind fun _ => spending_pop.bind fun _ => (spending_chargeMemExpansion _).bind fun _ =>
    spending_writeSlice (by simp)

theorem spending_mstore8 : Spending mstore8 :=
  spending_popU64.bind fun _ => spending_pop.bind fun _ => (spending_chargeMemExpansion _).bind fun _ =>
    spending_store8 _ _

theorem spending_pushOf (g : ZvmInterpreter → U256) :
    Spending (do push (g (← get)) : FrameOp Unit) := .get_bind fun _ => spending_push _

theorem spending_pushOperand (n : ℕ) : Spending (pushOperand n) :=
  .get_bind fun _ => .ite (.throw _) ((spending_push _).bind fun _ =>
    .modify fun _ => ⟨rfl,rfl,Nat.le_refl _,id⟩)

theorem spending_dup (n : ℕ) : Spending (dup n) :=
  .get_bind fun _ => (Spending.orFail _).bind fun _ => .modify fun _ => ⟨rfl,rfl,Nat.le_refl _,id⟩

theorem spending_swap (n : ℕ) : Spending (swap n) :=
  .get_bind fun _ => (Spending.orFail _).bind fun _ => .modify fun _ => ⟨rfl,rfl,Nat.le_refl _,id⟩

/-- A jump moves the counter alone. -/
theorem spending_jumpTo (dest : UInt64) : Spending (jumpTo dest) := by
  intro f
  change Spends f ((if (buildJumpdestBitmap 0 f.ctx.bytecode)[dest.toNat]?.getD false then _
    else _ : FrameOp Unit) f).2
  split
  · exact ⟨rfl,rfl,Nat.le_refl _,id⟩
  · exact Spends.refl f

theorem spending_jump : Spending jump := spending_popU64.bind fun _ => spending_jumpTo _

theorem spending_jumpi : Spending jumpi :=
  spending_popU64.bind fun _ => spending_pop.bind fun _ => .ite spending_advance (spending_jumpTo _)

theorem spending_returnWith (status : ZvmStatus) : Spending (returnWith status) :=
  spending_popU64.bind fun _ => spending_popU64.bind fun _ => (spending_chargeMemExpansion _).bind fun _ =>
    (spending_readSlice _ _).bind fun data => (spending_setReturnData data).bind fun _ =>
    .get_bind fun _ => .pure _

theorem spending_popTopics (n : ℕ) : Spending (FrameM.popTopics n) := by
  induction n with
  | zero => exact .pure []
  | succ n ih => exact spending_pop.bind fun _ => ih.bind fun _ => .pure _

theorem spending_popValue (kind : ZvmCallKind) : Spending (popValue kind) := .ite spending_popU128 (.pure 0)

/-- The operands of a call, with the charges for its target and its two windows. -/
theorem spending_popCall (kind : ZvmCallKind) : Spending (popCall kind) := by
  have hguard : ∀ value, Spending (valueGuard kind value) := fun value =>
    .get_bind fun _ => .ite (.throw _) (.pure ())
  exact spending_popU64.bind fun _ => spending_popAddress.bind fun target => (spending_popValue kind).bind fun value =>
    (hguard value).bind fun _ => spending_popU64.bind fun _ => spending_popU64.bind fun _ =>
    spending_popU64.bind fun _ => spending_popU64.bind fun _ => (spending_touchAddress target).bind fun _ =>
    (spending_chargeMemExpansion _).bind fun _ => (spending_chargeMemExpansion _).bind fun _ => .pure _

theorem spending_popCreate (withSalt : Bool) : Spending (popCreate withSalt) := by
  have hsalt : Spending (popSalt withSalt) := .ite (spending_pop.bind fun _ => .pure _) (.pure none)
  exact spending_staticGuard.bind fun _ => spending_popU128.bind fun _ => spending_popU64.bind fun _ =>
    spending_popU64.bind fun _ => hsalt.bind fun _ => .pure _

theorem spending_chargeCreate (args : CreateArgs) : Spending (chargeCreate args) :=
  (spending_chargeGas _).bind fun _ => (spending_chargeGas _).bind fun _ => spending_chargeMemExpansion _

theorem spending_settlePrecompile (args : CallArgs) (result : PrecompileResult) :
    Spending (settlePrecompile args result) := by
  cases result with
  | none => exact (spending_setReturnData _).bind fun _ => spending_push _
  | some result =>
    obtain ⟨output,gasUsed⟩ := result
    exact (spending_useGas gasUsed).bind fun _ => (spending_storeBytes _ _).bind fun _ =>
      (spending_setReturnData _).bind fun _ => spending_push _

end Opcodes

end ZbxChain.Zvm
