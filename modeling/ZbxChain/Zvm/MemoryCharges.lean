import ZbxChain.Zvm.MemoryPrice

/-! # Memory is charged for before it grows

The opcodes that start no frame charge a window of the memory before they come to it. Two
read texts without a charge, so what was charged before has to cover their windows.
-/
namespace ZbxChain.Zvm
open FrameOp FrameM

section Opcodes
variable {σ : Type} {h : Program.Handler ZvmCall.Reply σ} {n : ℕ}

theorem pays_keccak (P : Platform) : Pays h 0 (liftM (keccak P)) :=
  steady_popU64.op_bind fun _ => steady_popU64.op_bind fun _ => (steady_chargeGas _).op_bind fun _ =>
    (paysTo_window _).op_bind fun _ => (paysTo_readSlice le_rfl).op_bind fun _ => (steady_push _).pays

theorem pays_copyFrom (source : ZvmContext → List UInt8) : Pays h 0 (liftM (copyFrom source)) :=
  steady_popU64.op_bind fun _ => steady_popU64.op_bind fun _ => steady_popU64.op_bind fun _ =>
    (steady_chargeGas _).op_bind fun _ => (paysTo_window _).op_bind fun _ => .op_get_bind fun _ =>
    .op_orPanic_bind fun _ hbuf => pays_writeSlice (length_zeroPadded hbuf)

theorem pays_returnDataCopy : Pays h 0 (liftM returnDataCopy) := by
  refine steady_popU64.op_bind fun _ => steady_popU64.op_bind fun _ => steady_popU64.op_bind fun _ =>
    (steady_chargeGas _).op_bind fun _ => (paysTo_window _).op_bind fun _ => .op_get_bind fun _ =>
    .op_ite (steady_fail _).pays (.op_orPanic_bind fun _ hbuf => pays_writeSlice ?_)
  have hsum := ZvmMemory.toNat_add_of_slice hbuf
  obtain ⟨-,-,hlen⟩ := slice_some hbuf
  omega

theorem pays_mcopy : Pays h 0 (liftM mcopy) :=
  steady_popU64.op_bind fun _ => steady_popU64.op_bind fun _ => steady_popU64.op_bind fun _ =>
    (steady_chargeGas _).op_bind fun _ => (paysTo_window _).op_bind fun _ =>
    (paysTo_write ZvmMemory.growsTo_copy).pays

theorem pays_mload : Pays h 0 (liftM mload) :=
  steady_popU64.op_bind fun _ => (paysTo_window _).op_bind fun _ =>
    (paysTo_read ZvmMemory.growsTo_load).op_bind fun _ => (steady_push _).pays

theorem pays_mstore : Pays h 0 (liftM mstore) :=
  steady_popU64.op_bind fun _ => steady_pop.op_bind fun _ => (paysTo_window _).op_bind fun _ =>
    (paysTo_write ZvmMemory.growsTo_store).pays

theorem pays_mstore8 : Pays h 0 (liftM mstore8) :=
  steady_popU64.op_bind fun _ => steady_pop.op_bind fun _ => (paysTo_window _).op_bind fun _ =>
    (paysTo_write ZvmMemory.growsTo_store8).pays

theorem pays_returnWith (status : ZvmStatus) : Pays h 0 (liftM (returnWith status)) :=
  steady_popU64.op_bind fun _ => steady_popU64.op_bind fun _ => (paysTo_window _).op_bind fun _ =>
    (paysTo_readSlice le_rfl).op_bind fun data => (steady_setReturnData data).op_bind fun _ =>
    .op_get_bind fun _ => (Steady.pure _).pays

theorem pays_extCodeCopy : Pays h 0 extCodeCopy :=
  steady_popAddress.bind_to fun _ => steady_popU64.bind_to fun _ => steady_popU64.bind_to fun _ =>
    steady_popU64.bind_to fun _ => (steady_touchAddress _).bind_to fun _ => (steady_chargeGas _).bind_to fun _ =>
    (paysTo_window _).bind fun _ => (Steady.host _).bind_to fun _ => by
      rw [← lift_op_bind]
      exact .op_orPanic_bind fun _ hbuf => pays_writeSlice (length_zeroPadded hbuf)

theorem pays_log (nTopics : ℕ) : Pays h 0 (FrameM.log nTopics) := by
  have hlogged : ∀ log : ZvmLog,
      Steady h (liftM (modify (fun f => { f with logs := f.logs ++ [log] }) : FrameOp Unit)) :=
    fun _ => .lift (.modify fun _ => ⟨rfl,rfl,le_rfl,id⟩) (.modify fun _ => rfl)
  exact steady_staticGuard.bind_to fun _ => steady_popU64.bind_to fun _ => steady_popU64.bind_to fun _ =>
    (steady_chargeGas _).bind_to fun _ => (paysTo_window _).bind fun _ => (steady_popTopics _).bind_to fun _ =>
    (paysTo_readSlice le_rfl).bind fun _ => .get_bind fun _ => (hlogged _).bind_to fun _ => (Steady.host _).pays

section Stack
variable {γ : Type} {π : ZvmInterpreter → γ} (hstack : ∀ f stack, π { f with stack := stack } = π f)
include hstack

theorem keeps_unary (g : U256 → U256) : Keeps π (unary g) := (Keeps.pop hstack).bind fun _ => .push hstack _

theorem keeps_binary (g : U256 → U256 → U256) : Keeps π (binary g) :=
  (Keeps.pop hstack).bind fun _ => (Keeps.pop hstack).bind fun _ => .push hstack _

theorem keeps_ternary (g : U256 → U256 → U256 → U256) : Keeps π (ternary g) :=
  (Keeps.pop hstack).bind fun _ => (Keeps.pop hstack).bind fun _ => (Keeps.pop hstack).bind fun _ =>
    .push hstack _

theorem keeps_exp (hgas : ∀ f gas, π { f with gas := gas } = π f) : Keeps π exp :=
  (Keeps.pop hstack).bind fun _ => (Keeps.pop hstack).bind fun _ =>
    (Keeps.chargeGas hgas _).bind fun _ => .push hstack _

theorem keeps_callDataLoad : Keeps π callDataLoad :=
  (Keeps.pop hstack).bind fun _ => .get_bind fun _ => .push hstack _

theorem keeps_pushOf (g : ZvmInterpreter → U256) : Keeps π (do push (g (← get)) : FrameOp Unit) :=
  .get_bind fun _ => .push hstack _

theorem keeps_dup (n : ℕ) : Keeps π (dup n) :=
  .get_bind fun _ => (Keeps.orFail _).bind fun _ => .modify fun _ => hstack _ _

theorem keeps_swap (n : ℕ) : Keeps π (swap n) :=
  .get_bind fun _ => (Keeps.orFail _).bind fun _ => .modify fun _ => hstack _ _

section Position
variable (hpc : ∀ f pc, π { f with pc := pc } = π f)
include hpc

theorem keeps_pushOperand (n : ℕ) : Keeps π (pushOperand n) :=
  .get_bind fun _ => .ite (.throw _) ((Keeps.push hstack _).bind fun _ => .modify fun _ => hpc _ _)

omit hstack in
theorem keeps_jumpTo (dest : UInt64) : Keeps π (jumpTo dest) := by
  intro f
  change π ((if (buildJumpdestBitmap 0 f.ctx.bytecode)[dest.toNat]?.getD false then _
    else _ : FrameOp Unit) f).2 = π f
  split
  · exact hpc f dest.toNat
  · rfl

theorem keeps_jump : Keeps π jump := (Keeps.popU64 hstack).bind fun _ => keeps_jumpTo hpc _

theorem keeps_jumpi : Keeps π jumpi :=
  (Keeps.popU64 hstack).bind fun _ => (Keeps.pop hstack).bind fun _ =>
    .ite (.modify fun _ => hpc _ _) (keeps_jumpTo hpc _)

end Position

end Stack

theorem Pays.next {p : FrameM Unit} (hp : Pays h n p) : Pays h n (FrameM.next p) :=
  hp.bind fun _ => steady_advance.bind_to fun _ => (Steady.pure none).pays

theorem Pays.halt {p : FrameM ZvmResult} (hp : Pays h n p) : Pays h n (FrameM.halt p) :=
  hp.bind fun _ => (Steady.pure _).pays

theorem pays_alone {p : FrameOp Unit} (hspends : Spending p) (hkeeps : Keeps ZvmInterpreter.memory p) :
    Pays h n (FrameM.next (liftM p)) := (Steady.lift hspends hkeeps).pays.next

theorem pays_jumping {p : FrameOp Unit} (hspends : Spending p) (hkeeps : Keeps ZvmInterpreter.memory p) :
    Pays h n (jumping p) := (Steady.lift hspends hkeeps).bind_to fun _ => (Steady.pure none).pays

theorem steady_finish (status : ZvmStatus) : Steady h (do pure ((← get).finish status) : FrameM ZvmResult) :=
  .get_bind fun _ => .pure _

theorem steady_selfdestruct : Steady h FrameM.selfdestruct :=
  steady_staticGuard.bind fun _ => steady_popAddress.bind fun _ => .get_bind fun _ =>
    (Steady.host _).bind fun _ => steady_finish _

theorem steady_touched {c : Address → ZvmCall} {word : (addr : Address) → (c addr).Reply → U256} :
    Steady h (do
      let addr ← popAddress
      touchAddress addr
      pushReply (c addr) (word addr)) :=
  steady_popAddress.bind fun _ => (steady_touchAddress _).bind fun _ => steady_pushReply _ _

theorem steady_sload : Steady h sload :=
  steady_pop.bind fun _ => (steady_touchSlot _ _).bind fun _ => .get_bind fun _ => steady_pushReply _ _

theorem steady_sstore : Steady h sstore :=
  steady_staticGuard.bind fun _ => steady_pop.bind fun _ => steady_pop.bind fun _ =>
    (steady_touchSlot _ _).bind fun _ => .get_bind fun _ => .host _

theorem steady_tload : Steady h tload :=
  steady_pop.bind fun _ => .get_bind fun _ => steady_pushReply _ _

theorem steady_tstore : Steady h tstore :=
  steady_staticGuard.bind fun _ => steady_pop.bind fun _ => steady_pop.bind fun _ => .get_bind fun _ => .host _

theorem steady_zbxBurn : Steady h zbxBurn :=
  steady_staticGuard.bind fun _ => steady_popU128.bind fun _ => .get_bind fun _ => (Steady.host _).bind fun _ =>
    .ite (.pure ()) (steady_fail _)

def Opcode.ReadsFree (op : Opcode) : Prop := op = .PAYID ∨ op = .ZVMLOG

/-- An opcode that starts no frame pays for its memory, but for the two. -/
theorem pays_dispatch (P : Platform) {op : Opcode} (hframe : op.frameKind = none) (hop : ¬ op.ReadsFree) :
    Pays h 0 (dispatch P op) := by
  have hstack : ∀ (f : ZvmInterpreter) stack, ({ f with stack := stack } : ZvmInterpreter).memory = f.memory :=
    fun _ _ => rfl
  have hpc : ∀ (f : ZvmInterpreter) pc, ({ f with pc := pc } : ZvmInterpreter).memory = f.memory :=
    fun _ _ => rfl
  have hreply : ∀ (c : ZvmCall) word, Pays h 0 (FrameM.next (pushReply c word)) :=
    fun c word => (steady_pushReply c word).pays.next
  cases op with
  | STOP => exact (steady_finish _).pays.halt
  | INVALID => exact (steady_finish _).pays.halt
  | RETURN => exact (pays_returnWith _).halt
  | REVERT => exact (pays_returnWith _).halt
  | SELFDESTRUCT => exact steady_selfdestruct.pays.halt
  | ADDMOD => exact pays_alone (spending_ternary _) (keeps_ternary hstack _)
  | MULMOD => exact pays_alone (spending_ternary _) (keeps_ternary hstack _)
  | EXP => exact pays_alone spending_exp (keeps_exp hstack fun _ _ => rfl)
  | NOT => exact pays_alone (spending_unary _) (keeps_unary hstack _)
  | ISZERO => exact pays_alone (spending_unary _) (keeps_unary hstack _)
  | KECCAK256 => exact (pays_keccak P).next
  | CALLDATALOAD => exact pays_alone spending_callDataLoad (keeps_callDataLoad hstack)
  | CALLDATACOPY => exact (pays_copyFrom _).next
  | CODECOPY => exact (pays_copyFrom _).next
  | RETURNDATACOPY => exact pays_returnDataCopy.next
  | MCOPY => exact pays_mcopy.next
  | MLOAD => exact pays_mload.next
  | MSTORE => exact pays_mstore.next
  | MSTORE8 => exact pays_mstore8.next
  | PUSH0 => exact (steady_push _).pays.next
  | PUSH n => exact pays_alone (spending_pushOperand _) (keeps_pushOperand hstack hpc _)
  | DUP n => exact pays_alone (spending_dup _) (keeps_dup hstack _)
  | SWAP n => exact pays_alone (spending_swap _) (keeps_swap hstack _)
  | POP => exact pays_alone (spending_pop.bind fun _ => .pure _) ((Keeps.pop fun _ _ => rfl).bind fun _ => .pure _)
  | JUMP => exact pays_jumping spending_jump (keeps_jump hstack hpc)
  | JUMPI => exact pays_jumping spending_jumpi (keeps_jumpi hstack hpc)
  | BALANCE => exact steady_touched.pays.next
  | SELFBALANCE => exact (Steady.get_bind fun _ => steady_pushReply _ _).pays.next
  | EXTCODESIZE => exact steady_touched.pays.next
  | EXTCODEHASH => exact steady_touched.pays.next
  | EXTCODECOPY => exact pays_extCodeCopy.next
  | BLOCKHASH => exact (steady_popU64.bind fun _ => steady_pushReply _ _).pays.next
  | BLOBHASH => exact (steady_popU64.bind fun _ => steady_pushReply _ _).pays.next
  | TLOAD => exact steady_tload.pays.next
  | SLOAD => exact steady_sload.pays.next
  | ZUSDBAL => exact (steady_popAddress.bind fun _ => steady_pushReply _ _).pays.next
  | PAYIDSET => exact (steady_popAddress.bind fun _ => steady_pushReply _ _).pays.next
  | TSTORE => exact steady_tstore.pays.next
  | SSTORE => exact steady_sstore.pays.next
  | LOG n => exact (pays_log _).next
  | ZBXBURN => exact steady_zbxBurn.pays.next
  | PAYID => exact absurd (Or.inl rfl) hop
  | ZVMLOG => exact absurd (Or.inr rfl) hop
  | COINBASE | PREVRANDAO | GASLIMIT | GASPRICE | ZBXPRICE | BLOBFEE => exact hreply _ _
  | ADD | MUL | SUB | DIV | SDIV | MOD | SMOD | SIGNEXTEND | LT | GT | SLT | SGT | EQ | AND | OR | XOR
  | BYTE | SHL | SHR | SAR => exact pays_alone (spending_binary _) (keeps_binary hstack _)
  | CALLDATASIZE | CODESIZE | RETURNDATASIZE | MSIZE | NUMBER | TIMESTAMP | CHAINID | BASEFEE | BLOBBASEFEE
  | CALLER | ADDRESS | CALLVALUE | GAS | ORIGIN | PC | AASENDER => exact pays_alone (spending_pushOf _) (keeps_pushOf hstack _)
  | ZBXTIME | CHAINVER => exact (steady_push _).pays.next
  | JUMPDEST => exact (Steady.pure ()).pays.next
  | CREATE | CALL | CALLCODE | DELEGATECALL | CREATE2 | STATICCALL => cases hframe

end Opcodes

section Texts
variable {σ β : Type} {h : Program.Handler ZvmCall.Reply σ} {f : ZvmInterpreter} {off len : UInt64}

def ZvmInterpreter.operands (f : ZvmInterpreter) : List UInt64 := f.stack.inner.map (fun word => UInt64.ofNat word.toNat)

/-- What was charged covers the memory up to the end of a window, if that can be there. -/
def ZvmInterpreter.Affords (f : ZvmInterpreter) (stop : ℕ) : Prop :=
  f.memory.Fits stop → f.Covers ((stop + 31) / 32)

def PayIdCovered (operands : List UInt64) (f : ZvmInterpreter) : Prop :=
  ∀ ptr len rest, operands = ptr :: len :: rest → f.Affords (ptr.toNat + len.toNat)

/-- The value is read where the key is a text. -/
def ZvmLogCovered (operands : List UInt64) (f : ZvmInterpreter) : Prop :=
  ∀ keyPtr keyLen valPtr valLen rest, operands = keyPtr :: keyLen :: valPtr :: valLen :: rest →
    f.Affords (keyPtr.toNat + keyLen.toNat) ∧
      ((f.memory.readText keyPtr keyLen).isSome → f.Affords (valPtr.toNat + valLen.toNat))

theorem paysFrom_pop {C : List UInt64 → ZvmInterpreter → Prop} {q : UInt64 → FrameM β}
    {Q : β → ZvmInterpreter → Prop} (hC : ∀ {ops f} stack, C ops f → C ops { f with stack := stack })
    (hq : ∀ a, PaysFrom h (fun f => f.Covers 0 ∧ C (a :: f.operands) f) (q a) Q) :
    PaysFrom h (fun f => f.Covers 0 ∧ C f.operands f) ((liftM popU64 : FrameM UInt64) >>= q) Q := by
  refine PaysFrom.bind (paysFrom_lift ?_ ?_) hq
  · exact fun f hf => hf.1.spend (spending_popU64 f) (Keeps.popU64 (fun _ _ => rfl) f)
  · rintro f a f' ⟨hcovers,hmeets⟩ hpop
    obtain ⟨word,stack,hstack,rfl,rfl⟩ := popU64_ok.mp hpop
    refine ⟨hcovers,?_⟩
    have hops : f.operands = UInt64.ofNat word.toNat :: stack.inner.map (fun word => UInt64.ofNat word.toNat) := by
      rw [ZvmInterpreter.operands, hstack, List.map_cons]
    rw [hops] at hmeets
    exact hC stack hmeets

theorem toNat_wordsOf_window (off len : UInt64) :
    (wordsOf (saturatingAdd64 off len)).toNat ≤ (off.toNat + len.toNat + 31) / 32 := by
  have hround := ZvmMemory.toNat_wordsOf_le (saturatingAdd64 off len)
  have hsum : (saturatingAdd64 off len).toNat ≤ off.toNat + len.toNat := by
    rw [toNat_saturatingAdd64]
    exact Nat.min_le_left _ _
  omega

theorem covers_readString (hf : f.Covers 0) (hwindow : f.Affords (off.toNat + len.toNat)) :
    (readString off len f).2.Covers 0 := by
  have hread : (readString off len f).2 = (readSlice off len f).2 := by
    rw [readString, bind_apply]
    rcases readSlice off len f with ⟨e | bytes,f'⟩
    · rfl
    · dsimp only
      split
      · rfl
      · rfl
  rw [hread, readSlice, readMemory_apply]
  rcases hslice : f.memory.readSlice off len with _ | ⟨bytes,m⟩
  · exact hf
  · have hfits : f.memory.Fits (off.toNat + len.toNat) := by
      by_contra hnot
      rw [ZvmMemory.readSlice_of_not_fits hnot] at hslice
      cases hslice
    obtain ⟨hbounded,hwords⟩ := ZvmMemory.growsTo_readSlice hf.1 hslice
    have hround := toNat_wordsOf_window off len
    exact ((hwindow hfits).grow ⟨hbounded,by omega⟩).paid

theorem paysFrom_payId : PaysFrom h (fun f => f.Covers 0 ∧ PayIdCovered f.operands f) payId fun _ f => f.Covers 0 := by
  refine paysFrom_pop (C := PayIdCovered) (fun _ hC => hC) fun ptr =>
    paysFrom_pop (C := fun ops => PayIdCovered (ptr :: ops)) (fun _ hC => hC) fun len => ?_
  refine PaysFrom.bind_to (k := 0) (paysFrom_lift ?_ ?_) fun _ => (steady_pushReply _ _).pays
  · exact fun f hf => covers_readString hf.1 (hf.2 ptr len _ rfl)
  · intro f name f' hf hread
    have hafter := covers_readString hf.1 (hf.2 ptr len _ rfl)
    rwa [hread] at hafter

theorem affords_readText {bytes : List UInt8} {m : ZvmMemory} {stop : ℕ} (hf : f.Covers 0)
    (hwindow : f.Affords (off.toNat + len.toNat)) (hnext : f.Affords stop)
    (htext : f.memory.readText off len = some (bytes,m)) : ({ f with memory := m } : ZvmInterpreter).Affords stop := by
  obtain ⟨hslice,-⟩ := Option.filter_eq_some_iff.mp htext
  have hfits : f.memory.Fits (off.toNat + len.toNat) := by
    by_contra hnot
    rw [ZvmMemory.readSlice_of_not_fits hnot] at hslice
    cases hslice
  obtain ⟨bytes',hwide⟩ := ZvmMemory.readSlice_of_fits hf.1 hfits
  rw [hslice] at hwide
  cases hwide
  intro hstop
  have hcovers := hwindow hfits
  have hcovered := hnext ((ZvmMemory.fits_widened hfits).mp hstop)
  obtain ⟨hbounded,hwords⟩ := ZvmMemory.growsTo_readSlice hf.1 hslice
  have hround := toNat_wordsOf_window off len
  rcases le_total ((stop + 31) / 32) ((off.toNat + len.toNat + 31) / 32) with hle | hle
  · exact (hcovers.grow ⟨hbounded,by omega⟩).anti hle
  · exact hcovered.grow ⟨hbounded,by omega⟩

theorem paysFrom_zvmLog :
    PaysFrom h (fun f => f.Covers 0 ∧ ZvmLogCovered f.operands f) zvmLog fun _ f => f.Covers 0 := by
  have hlogged : ∀ key value, Steady h (liftM (modify (fun f : ZvmInterpreter => { f with
      zvmLogs := f.zvmLogs ++ [⟨key,value,f.ctx.blockNumber,f.logIndex⟩]
      logIndex := f.logIndex + 1 }) : FrameOp Unit)) :=
    fun _ _ => .lift (.modify fun _ => ⟨rfl,rfl,le_rfl,id⟩) (.modify fun _ => rfl)
  refine paysFrom_pop (C := ZvmLogCovered) (fun _ hC => hC) fun keyPtr =>
    paysFrom_pop (C := fun ops => ZvmLogCovered (keyPtr :: ops)) (fun _ hC => hC) fun keyLen =>
    paysFrom_pop (C := fun ops => ZvmLogCovered (keyPtr :: keyLen :: ops)) (fun _ hC => hC) fun valPtr =>
    paysFrom_pop (C := fun ops => ZvmLogCovered (keyPtr :: keyLen :: valPtr :: ops)) (fun _ hC => hC) fun valLen => ?_
  refine PaysFrom.bind (Q := fun _ f => f.Covers 0 ∧ f.Affords (valPtr.toNat + valLen.toNat))
    (paysFrom_lift ?_ ?_) fun key => ?_
  · rintro f ⟨hf,hmeets⟩
    exact covers_readString hf (hmeets keyPtr keyLen valPtr valLen _ rfl).1
  · rintro f key f' ⟨hf,hmeets⟩ hread
    obtain ⟨hkey,hvalue⟩ := hmeets keyPtr keyLen valPtr valLen _ rfl
    have hafter := covers_readString hf hkey
    rw [hread] at hafter
    obtain ⟨m,htext,rfl⟩ := readString_ok.mp hread
    exact ⟨hafter,affords_readText hf hkey (hvalue (Option.isSome_of_eq_some htext)) htext⟩
  · refine PaysFrom.bind_to (k := 0) (paysFrom_lift ?_ ?_) fun value =>
      (Steady.host _).bind_to fun _ => (hlogged key value).pays
    · exact fun f hf => covers_readString hf.1 hf.2
    · intro f value f' hf hread
      have hafter := covers_readString hf.1 hf.2
      rwa [hread] at hafter

end Texts

end ZbxChain.Zvm
