import ZbxChain.Zvm.MemoryPaid

/-! # No operand of a push is executed

The linear scan of a code goes from its first byte over the operands of the pushes. The rounds
of a run are at the positions of the scan. A jump goes to a `JUMPDEST` of the scan, which is
where its operand says if the operand has no more than 64 bits.
-/
namespace ZbxChain.Zvm
open FrameOp FrameM

section Scan
variable {code rest : List UInt8} {byte op : UInt8} {i j : ℕ}

/-- The bytes behind an opcode that belong to it. -/
def operandLength (byte : UInt8) : ℕ := if 0x60 ≤ byte ∧ byte ≤ 0x7F then byte.toNat - 0x5F else 0

/-- The positions of the linear scan. -/
inductive Boundary (code : List UInt8) : ℕ → Prop
  | start : Boundary code 0
  | next {i : ℕ} {byte : UInt8} (hi : Boundary code i) (hbyte : code[i]? = some byte) :
      Boundary code (i + 1 + operandLength byte)

def InOperand (code : List UInt8) (j : ℕ) : Prop :=
  ∃ i byte, Boundary code i ∧ code[i]? = some byte ∧ i < j ∧ j < i + 1 + operandLength byte

/-- A `JUMPDEST` instruction. -/
def JumpdestAt (code : List UInt8) (i : ℕ) : Prop := Boundary code i ∧ code[i]? = some 0x5B

theorem Boundary.next_le (hi : Boundary code i) (hj : Boundary code j) (hlt : i < j)
    (hbyte : code[i]? = some byte) : i + 1 + operandLength byte ≤ j := by
  induction hsum : i + j using Nat.strong_induction_on generalizing i j byte with
  | _ n ih =>
    cases hj with
    | start => exact absurd hlt (Nat.not_lt_zero i)
    | @next k byte' hk hbyte' =>
      rcases Nat.lt_trichotomy i k with hless | rfl | hmore
      · have hbefore := ih (i + k) (by omega) hi hk hless hbyte rfl
        omega
      · rw [hbyte] at hbyte'
        cases hbyte'
        exact le_rfl
      · have hbehind := ih (k + i) (by omega) hk hi hmore hbyte' rfl
        omega

theorem Boundary.not_inOperand (hj : Boundary code j) : ¬ InOperand code j := by
  rintro ⟨i,byte,hi,hbyte,hlt,hinside⟩
  have hbehind := hi.next_le hj hlt hbyte
  omega

theorem getElem?_behind (n k : ℕ) : (op :: rest)[k + 1 + n]? = (rest.drop n)[k]? := by
  rw [List.getElem?_drop, Nat.add_right_comm k 1 n, List.getElem?_cons_succ, Nat.add_comm]

theorem boundary_cons : Boundary (op :: rest) i ↔
    i = 0 ∨ ∃ k, i = k + 1 + operandLength op ∧ Boundary (rest.drop (operandLength op)) k := by
  constructor
  · intro h
    induction h with
    | start => exact Or.inl rfl
    | @next i byte _ hbyte ih =>
      right
      rcases ih with rfl | ⟨k,rfl,hk⟩
      · cases hbyte
        exact ⟨0,by omega,.start⟩
      · rw [getElem?_behind] at hbyte
        exact ⟨k + 1 + operandLength byte,by omega,.next hk hbyte⟩
  · rintro (rfl | ⟨k,rfl,hk⟩)
    · exact .start
    · induction hk with
      | start =>
        have hfirst : Boundary (op :: rest) (0 + 1 + operandLength op) := .next .start rfl
        exact hfirst
      | @next k byte _ hbyte ih =>
        have hnext := Boundary.next ih (by rw [getElem?_behind, hbyte])
        have hsame : k + 1 + operandLength byte + 1 + operandLength op =
            k + 1 + operandLength op + 1 + operandLength byte := by omega
        rwa [hsame]

theorem jumpdestAt_cons : JumpdestAt (op :: rest) (i + 1) ↔
    ∃ k, i = operandLength op + k ∧ JumpdestAt (rest.drop (operandLength op)) k := by
  unfold JumpdestAt
  constructor
  · rintro ⟨hi,hbyte⟩
    rcases boundary_cons.mp hi with hzero | ⟨k,hk,hrest⟩
    · cases hzero
    · rw [hk, getElem?_behind] at hbyte
      exact ⟨k,by omega,hrest,hbyte⟩
  · rintro ⟨k,rfl,hrest,hbyte⟩
    have hsame : operandLength op + k + 1 = k + 1 + operandLength op := by omega
    rw [hsame, getElem?_behind]
    exact ⟨boundary_cons.mpr (Or.inr ⟨k,rfl,hrest⟩),hbyte⟩

/-- The bitmap marks the `JUMPDEST` instructions behind the bytes that are still skipped. -/
theorem bitmap_iff (skip : ℕ) (code : List UInt8) (i : ℕ) :
    (buildJumpdestBitmap skip code)[i]?.getD false = true ↔
      ∃ k, i = skip + k ∧ JumpdestAt (code.drop skip) k := by
  have hhead : ∀ {op rest}, JumpdestAt (op :: rest) 0 ↔ op = 0x5B := by
    intro op rest
    constructor
    · rintro ⟨-,hbyte⟩
      exact Option.some.inj hbyte
    · rintro rfl
      exact ⟨.start,rfl⟩
  have hscan : ∀ op rest mark skip i, operandLength op = skip → (op = 0x5B ↔ mark = true) →
      (∀ i, (buildJumpdestBitmap skip rest)[i]?.getD false = true ↔
        ∃ k, i = skip + k ∧ JumpdestAt (rest.drop skip) k) →
      ((mark :: buildJumpdestBitmap skip rest)[i]?.getD false = true ↔
        ∃ k, i = 0 + k ∧ JumpdestAt (op :: rest) k) := by
    rintro op rest mark skip i rfl hmark ih
    simp only [Nat.zero_add, exists_eq_left']
    cases i with
    | zero => rw [hhead, hmark, List.getElem?_cons_zero, Option.getD_some]
    | succ i => rw [jumpdestAt_cons, List.getElem?_cons_succ, ih]
  induction skip, code using buildJumpdestBitmap.induct generalizing i with
  | case1 skip =>
    constructor
    · intro h
      cases h
    · rintro ⟨k,-,-,hbyte⟩
      rw [List.drop_nil] at hbyte
      cases hbyte
  | case2 skip byte rest ih =>
    rw [buildJumpdestBitmap]
    cases i with
    | zero =>
      constructor
      · intro h
        cases h
      · rintro ⟨k,hk,-⟩
        omega
    | succ i =>
      rw [List.getElem?_cons_succ, List.drop_succ_cons]
      refine (ih i).trans ?_
      constructor
      · rintro ⟨k,hk,hdest⟩
        exact ⟨k,by omega,hdest⟩
      · rintro ⟨k,hk,hdest⟩
        exact ⟨k,by omega,hdest⟩
  | case3 rest ih =>
    rw [buildJumpdestBitmap, if_pos rfl]
    exact hscan 0x5B rest true 0 i rfl (by simp) ih
  | case4 op rest hother hpush ih =>
    rw [buildJumpdestBitmap, if_neg hother, if_pos hpush]
    exact hscan op rest false _ i (if_pos hpush) (by simp [hother]) ih
  | case5 op rest hother hplain ih =>
    rw [buildJumpdestBitmap, if_neg hother, if_neg hplain]
    exact hscan op rest false 0 i (if_neg hplain) (by simp [hother]) ih

theorem bitmap_code_iff : (buildJumpdestBitmap 0 code)[i]?.getD false = true ↔ JumpdestAt code i := by
  rw [bitmap_iff]
  simp only [Nat.zero_add, exists_eq_left', List.drop_zero]

end Scan

section Staying
variable {α β : Type} {Q : α → Prop} {Q' : β → Prop}

/-- Whatever the host replies, the position stays, and what the program comes to is in `Q`. -/
def StaysTo (Q : α → Prop) (p : FrameM α) : Prop :=
  ∀ f, (p f).Within (fun _ => True) fun r => r.2.pc = f.pc ∧ ∀ a, r.1 = .ok a → Q a

def Stays (p : FrameM α) : Prop := StaysTo (fun _ => True) p

theorem Stays.lift {p : FrameOp α} (hp : Keeps ZvmInterpreter.pc p) : Stays (liftM p) :=
  fun f => ⟨hp f,fun _ _ => trivial⟩

theorem StaysTo.pure {a : α} (ha : Q a) : StaysTo Q (pure a : FrameM α) :=
  fun _ => ⟨rfl,by rintro _ ⟨⟩; exact ha⟩

theorem Stays.pure (a : α) : Stays (pure a : FrameM α) := StaysTo.pure trivial

theorem Stays.host (c : ZvmCall) : Stays (host c) := fun _ => ⟨trivial,fun _ => ⟨rfl,fun _ _ => trivial⟩⟩

theorem Stays.bind_to {p : FrameM α} {q : α → FrameM β} (hp : Stays p) (hq : ∀ a, StaysTo Q' (q a)) :
    StaysTo Q' (p >>= q) := by
  intro f
  refine (within_bind_iff p q f).mpr ((hp f).mono (fun _ hc => hc) ?_)
  rintro ⟨e | a,f₁⟩ ⟨hpc,-⟩
  · exact ⟨hpc,by rintro _ ⟨⟩⟩
  · exact (hq a f₁).mono (fun _ hc => hc) fun r hr => ⟨hr.1.trans hpc,hr.2⟩

theorem Stays.bind {p : FrameM α} {q : α → FrameM β} (hp : Stays p) (hq : ∀ a, Stays (q a)) : Stays (p >>= q) :=
  hp.bind_to hq

theorem StaysTo.get_bind {q : ZvmInterpreter → FrameM α} (hq : ∀ f, StaysTo Q (q f)) :
    StaysTo Q ((get : FrameM ZvmInterpreter) >>= q) := fun f => hq f f

theorem StaysTo.ite {c : Prop} [Decidable c] {p q : FrameM α} (hp : StaysTo Q p) (hq : StaysTo Q q) :
    StaysTo Q (if c then p else q) := by
  split
  · exact hp
  · exact hq

theorem stays_fail (e : ZvmError) : Stays (liftM (fail e : FrameOp α)) := .lift (.throw _)

theorem stays_push (word : U256) : Stays (liftM (push word)) := .lift (.push (fun _ _ => rfl) word)

theorem stays_pop : Stays (liftM pop) := .lift (.pop fun _ _ => rfl)

theorem stays_popU64 : Stays (liftM popU64) := .lift (.popU64 fun _ _ => rfl)

theorem stays_popU128 : Stays (liftM popU128) := .lift (.popU128 fun _ _ => rfl)

theorem stays_popAddress : Stays (liftM popAddress) := .lift (.popAddress fun _ _ => rfl)

theorem stays_chargeGas (amt : UInt64) : Stays (liftM (chargeGas amt)) := .lift (.chargeGas (fun _ _ => rfl) amt)

theorem stays_chargeMemExpansion (size : UInt64) : Stays (liftM (chargeMemExpansion size)) :=
  .lift (.chargeMemExpansion (fun _ _ => rfl) size)

theorem stays_touchAddress (addr : Address) : Stays (liftM (touchAddress addr)) :=
  .lift (.touchAddress (fun _ _ => rfl) (fun _ _ => rfl) addr)

theorem stays_touchSlot (key : H256) (cold : UInt64) : Stays (liftM (touchSlot key cold)) := by
  apply Stays.lift
  have hcharge := fun amt => Keeps.chargeGas (π := ZvmInterpreter.pc) (fun _ _ => rfl) amt
  exact fun f => hcharge _ { f with accessedSlots := f.accessedSlots.insert (f.ctx.contract,key) }

theorem stays_staticGuard : Stays (liftM staticGuard) := .lift .staticGuard

theorem stays_readSlice (offset len : UInt64) : Stays (liftM (readSlice offset len)) :=
  .lift (.readSlice (fun _ _ => rfl) offset len)

theorem keeps_readString (offset len : UInt64) : Keeps ZvmInterpreter.pc (readString offset len) :=
  (Keeps.readSlice (fun _ _ => rfl) offset len).bind fun _ => .ite (.pure _) (.throw _)

theorem keeps_writeMemory (write : ZvmMemory → Option ZvmMemory) : Keeps ZvmInterpreter.pc (writeMemory write) :=
  .writeMemory (fun _ _ => rfl) write

theorem keeps_storeBytes (off : UInt64) (bytes : List UInt8) : Keeps ZvmInterpreter.pc (storeBytes off bytes) := by
  induction bytes generalizing off with
  | nil => exact .pure ()
  | cons b rest ih => exact (keeps_writeMemory _).bind fun _ => ih (off + 1)

theorem stays_setReturnData (data : List UInt8) : Stays (liftM (setReturnData data)) := .lift (.modify fun _ => rfl)

theorem stays_pushReply (c : ZvmCall) (word : c.Reply → U256) : Stays (pushReply c word) :=
  (Stays.host c).bind fun _ => stays_push _

end Staying

section Opcodes

theorem keeps_keccak (P : Platform) : Keeps ZvmInterpreter.pc (keccak P) := by
  have hword := Keeps.popU64 (π := ZvmInterpreter.pc) fun _ _ => rfl
  exact hword.bind fun _ => hword.bind fun _ => (Keeps.chargeGas (fun _ _ => rfl) _).bind fun _ =>
    (Keeps.chargeMemExpansion (fun _ _ => rfl) _).bind fun _ => (Keeps.readSlice (fun _ _ => rfl) _ _).bind fun _ =>
    .push (fun _ _ => rfl) _

theorem keeps_copyFrom (source : ZvmContext → List UInt8) : Keeps ZvmInterpreter.pc (copyFrom source) := by
  have hword := Keeps.popU64 (π := ZvmInterpreter.pc) fun _ _ => rfl
  exact hword.bind fun _ => hword.bind fun _ => hword.bind fun _ => (Keeps.chargeGas (fun _ _ => rfl) _).bind fun _ =>
    (Keeps.chargeMemExpansion (fun _ _ => rfl) _).bind fun _ => .get_bind fun _ => (Keeps.orPanic _).bind fun _ =>
    keeps_writeMemory _

theorem keeps_returnDataCopy : Keeps ZvmInterpreter.pc returnDataCopy := by
  have hword := Keeps.popU64 (π := ZvmInterpreter.pc) fun _ _ => rfl
  exact hword.bind fun _ => hword.bind fun _ => hword.bind fun _ => (Keeps.chargeGas (fun _ _ => rfl) _).bind fun _ =>
    (Keeps.chargeMemExpansion (fun _ _ => rfl) _).bind fun _ => .get_bind fun _ => .ite (.throw _)
    ((Keeps.orPanic _).bind fun _ => keeps_writeMemory _)

theorem keeps_mcopy : Keeps ZvmInterpreter.pc mcopy := by
  have hword := Keeps.popU64 (π := ZvmInterpreter.pc) fun _ _ => rfl
  exact hword.bind fun _ => hword.bind fun _ => hword.bind fun _ => (Keeps.chargeGas (fun _ _ => rfl) _).bind fun _ =>
    (Keeps.chargeMemExpansion (fun _ _ => rfl) _).bind fun _ => keeps_writeMemory _

theorem keeps_mload : Keeps ZvmInterpreter.pc mload :=
  (Keeps.popU64 fun _ _ => rfl).bind fun _ => (Keeps.chargeMemExpansion (fun _ _ => rfl) _).bind fun _ =>
    (Keeps.readMemory (fun _ _ => rfl) _).bind fun _ => .push (fun _ _ => rfl) _

theorem keeps_mstore : Keeps ZvmInterpreter.pc mstore :=
  (Keeps.popU64 fun _ _ => rfl).bind fun _ => (Keeps.pop fun _ _ => rfl).bind fun _ =>
    (Keeps.chargeMemExpansion (fun _ _ => rfl) _).bind fun _ => keeps_writeMemory _

theorem keeps_mstore8 : Keeps ZvmInterpreter.pc mstore8 :=
  (Keeps.popU64 fun _ _ => rfl).bind fun _ => (Keeps.pop fun _ _ => rfl).bind fun _ =>
    (Keeps.chargeMemExpansion (fun _ _ => rfl) _).bind fun _ => keeps_writeMemory _

theorem stays_touched {c : Address → ZvmCall} {word : (addr : Address) → (c addr).Reply → U256} : Stays (do
    let addr ← popAddress
    touchAddress addr
    pushReply (c addr) (word addr)) :=
  stays_popAddress.bind fun _ => (stays_touchAddress _).bind fun _ => stays_pushReply _ _

theorem stays_extCodeCopy : Stays extCodeCopy :=
  stays_popAddress.bind fun _ => stays_popU64.bind fun _ => stays_popU64.bind fun _ => stays_popU64.bind fun _ =>
    (stays_touchAddress _).bind fun _ => (stays_chargeGas _).bind fun _ => (stays_chargeMemExpansion _).bind fun _ =>
    (Stays.host _).bind fun _ => (Stays.lift (Keeps.orPanic _)).bind fun _ => .lift (keeps_writeMemory _)

theorem stays_sload : Stays sload :=
  stays_pop.bind fun _ => (stays_touchSlot _ _).bind fun _ => .get_bind fun _ => stays_pushReply _ _

theorem stays_sstore : Stays sstore :=
  stays_staticGuard.bind fun _ => stays_pop.bind fun _ => stays_pop.bind fun _ =>
    (stays_touchSlot _ _).bind fun _ => .get_bind fun _ => Stays.host _

theorem stays_tload : Stays tload := stays_pop.bind fun _ => .get_bind fun _ => stays_pushReply _ _

theorem stays_tstore : Stays tstore :=
  stays_staticGuard.bind fun _ => stays_pop.bind fun _ => stays_pop.bind fun _ => .get_bind fun _ => Stays.host _

theorem stays_popTopics (n : ℕ) : Stays (liftM (popTopics n)) := by
  apply Stays.lift
  induction n with
  | zero => exact .pure []
  | succ n ih => exact (Keeps.pop fun _ _ => rfl).bind fun _ => ih.bind fun _ => .pure _

theorem stays_log (nTopics : ℕ) : Stays (FrameM.log nTopics) :=
  stays_staticGuard.bind fun _ => stays_popU64.bind fun _ => stays_popU64.bind fun _ =>
    (stays_chargeGas _).bind fun _ => (stays_chargeMemExpansion _).bind fun _ => (stays_popTopics _).bind fun _ =>
    (stays_readSlice _ _).bind fun _ => .get_bind fun _ => (Stays.lift (.modify fun _ => rfl)).bind fun _ => .host _

theorem stays_zvmLog : Stays zvmLog :=
  stays_popU64.bind fun _ => stays_popU64.bind fun _ => stays_popU64.bind fun _ => stays_popU64.bind fun _ =>
    (Stays.lift (keeps_readString _ _)).bind fun _ => (Stays.lift (keeps_readString _ _)).bind fun _ =>
    (Stays.host _).bind fun _ => .lift (.modify fun _ => rfl)

theorem stays_payId : Stays payId :=
  stays_popU64.bind fun _ => stays_popU64.bind fun _ => (Stays.lift (keeps_readString _ _)).bind fun _ =>
    stays_pushReply _ _

theorem stays_zbxBurn : Stays zbxBurn :=
  stays_staticGuard.bind fun _ => stays_popU128.bind fun _ => .get_bind fun _ => (Stays.host _).bind fun _ =>
    .ite (Stays.pure ()) (stays_fail _)

/-- Where the frame goes on, it is `n` bytes further. -/
def Advances (n : ℕ) (p : FrameM (Option ZvmResult)) : Prop :=
  ∀ f, (p f).Within (fun _ => True) fun r => r.1 = .ok none → r.2.pc = f.pc + n

theorem Stays.next {p : FrameM Unit} (hp : Stays p) : Advances 1 (next p) := by
  intro f
  refine (within_bind_iff p _ f).mpr ((hp f).mono (fun _ hc => hc) ?_)
  rintro ⟨e | ⟨⟩,f₁⟩ ⟨hpc,-⟩
  · rintro ⟨⟩
  · exact fun _ => congrArg (· + 1) hpc

theorem advances_alone {p : FrameOp Unit} (hp : Keeps ZvmInterpreter.pc p) : Advances 1 (next (liftM p)) :=
  (Stays.lift hp).next

theorem within_any {ρ : ZvmCall → Type} {γ : Type} (p : Program ρ γ) : p.Within (fun _ => True) fun _ => True := by
  induction p with
  | done a => exact trivial
  | call i next ih => exact ⟨trivial,ih⟩

theorem advances_halt {n : ℕ} (p : FrameM ZvmResult) : Advances n (halt p) := by
  intro f
  refine (within_bind_iff p _ f).mpr ((within_any (p f)).mono (fun _ hc => hc) ?_)
  rintro ⟨e | result,f₁⟩ -
  · rintro ⟨⟩
  · rintro ⟨⟩

theorem pushOperand_ok {n : ℕ} {f f' : ZvmInterpreter} (hok : pushOperand n f = (.ok (),f')) : f'.pc = f.pc + n := by
  have hpushed : ∀ word g, push word f = (.ok (),g) → g.pc = f.pc := by
    intro word g hpush
    have hkeeps := Keeps.push (π := ZvmInterpreter.pc) (fun _ _ => rfl) word f
    rwa [hpush] at hkeeps
  unfold pushOperand at hok
  rw [bind_ok] at hok
  obtain ⟨_,_,hget,hok⟩ := hok
  cases hget
  split at hok
  · cases hok
  · obtain ⟨⟨⟩,g,hpush,hok⟩ := (bind_ok _ _).mp hok
    cases hok
    exact congrArg (· + n) (hpushed _ _ hpush)

theorem advances_pushOperand (n : ℕ) : Advances (1 + n) (next (liftM (pushOperand n))) := by
  intro f
  rw [next, lift_bind_apply]
  rcases hpush : pushOperand n f with ⟨e | ⟨⟩,f₁⟩
  · rintro ⟨⟩
  · rintro -
    have hpc := pushOperand_ok hpush
    change f₁.pc + 1 = _
    omega

def Opcode.operandLength : Opcode → ℕ
  | .PUSH n => n + 1
  | _ => 0

def Opcode.Jumps (op : Opcode) : Prop := op = .JUMP ∨ op = .JUMPI

/-- An opcode that starts no frame, and is no jump, goes on behind its operand. -/
theorem advances_dispatch (P : Platform) {op : Opcode} (hframe : op.frameKind = none) (hjump : ¬ op.Jumps) :
    Advances (1 + op.operandLength) (dispatch P op) := by
  have hstack : ∀ (f : ZvmInterpreter) stack, ({ f with stack := stack } : ZvmInterpreter).pc = f.pc :=
    fun _ _ => rfl
  cases op with
  | STOP | INVALID | RETURN | REVERT | SELFDESTRUCT => exact advances_halt _
  | ADDMOD | MULMOD => exact advances_alone (keeps_ternary hstack _)
  | EXP => exact advances_alone (keeps_exp hstack fun _ _ => rfl)
  | NOT | ISZERO => exact advances_alone (keeps_unary hstack _)
  | KECCAK256 => exact advances_alone (keeps_keccak P)
  | CALLDATALOAD => exact advances_alone (keeps_callDataLoad hstack)
  | CALLDATACOPY | CODECOPY => exact advances_alone (keeps_copyFrom _)
  | RETURNDATACOPY => exact advances_alone keeps_returnDataCopy
  | MCOPY => exact advances_alone keeps_mcopy
  | MLOAD => exact advances_alone keeps_mload
  | MSTORE => exact advances_alone keeps_mstore
  | MSTORE8 => exact advances_alone keeps_mstore8
  | PUSH n => exact advances_pushOperand _
  | DUP n => exact advances_alone (keeps_dup hstack _)
  | SWAP n => exact advances_alone (keeps_swap hstack _)
  | POP => exact advances_alone ((Keeps.pop hstack).bind fun _ => .pure _)
  | JUMP => exact absurd (Or.inl rfl) hjump
  | JUMPI => exact absurd (Or.inr rfl) hjump
  | BALANCE | EXTCODESIZE | EXTCODEHASH => exact stays_touched.next
  | SELFBALANCE => exact Stays.next (.get_bind fun _ => stays_pushReply _ _)
  | EXTCODECOPY => exact stays_extCodeCopy.next
  | BLOCKHASH | BLOBHASH => exact (stays_popU64.bind fun _ => stays_pushReply _ _).next
  | TLOAD => exact stays_tload.next
  | SLOAD => exact stays_sload.next
  | ZUSDBAL | PAYIDSET => exact (stays_popAddress.bind fun _ => stays_pushReply _ _).next
  | TSTORE => exact stays_tstore.next
  | SSTORE => exact stays_sstore.next
  | LOG n => exact (stays_log _).next
  | ZBXBURN => exact stays_zbxBurn.next
  | PAYID => exact stays_payId.next
  | ZVMLOG => exact stays_zvmLog.next
  | COINBASE | PREVRANDAO | GASLIMIT | GASPRICE | ZBXPRICE | BLOBFEE => exact (stays_pushReply _ _).next
  | ADD | MUL | SUB | DIV | SDIV | MOD | SMOD | SIGNEXTEND | LT | GT | SLT | SGT | EQ | AND | OR | XOR
  | BYTE | SHL | SHR | SAR => exact advances_alone (keeps_binary hstack _)
  | CALLDATASIZE | CODESIZE | RETURNDATASIZE | MSIZE | NUMBER | TIMESTAMP | CHAINID | BASEFEE | BLOBBASEFEE
  | CALLER | ADDRESS | CALLVALUE | GAS | ORIGIN | PC | AASENDER => exact advances_alone (keeps_pushOf hstack _)
  | PUSH0 | ZBXTIME | CHAINVER => exact (stays_push _).next
  | JUMPDEST => exact (Stays.pure ()).next
  | CREATE | CALL | CALLCODE | DELEGATECALL | CREATE2 | STATICCALL => cases hframe

end Opcodes

section Frames
variable {P : Platform} {Z : Precompiles}

/-- A frame that is started begins in front of its code. -/
def StartsAtZero (sub : Option SubFrame) : Prop := ∀ s ∈ sub, s.frame.pc = 0

def StartsFresh (p : FrameM (Option SubFrame)) : Prop := StaysTo StartsAtZero p

theorem starts_none : StartsFresh (pure none) := .pure (by rintro _ ⟨⟩)

theorem starts_giveUp : StartsFresh giveUp :=
  (stays_setReturnData _).bind_to fun _ => (stays_push _).bind_to fun _ => starts_none

theorem starts_refuse : StartsFresh refuse := (stays_push _).bind_to fun _ => starts_none

theorem starts_enter (kind : FrameKind) (bound : UInt64) (context : UInt64 → ZvmContext → ZvmContext)
    (retOff retLen : UInt64) : StartsFresh (do
      let forwarded ← forwardGas bound
      let f ← get
      pure (some ⟨kind,f.child (context forwarded f.ctx),retOff,retLen⟩)) := by
  refine fun f => ⟨rfl,?_⟩
  rintro _ ⟨⟩ _ ⟨⟩
  rfl

theorem stays_send (dest : Address) (value : ℕ) : Stays (send dest value) :=
  .get_bind fun _ => (Stays.host _).bind fun _ => .ite (Stays.pure ()) (stays_fail _)

theorem stays_payTarget (kind : ZvmCallKind) (args : CallArgs) : Stays (payTarget kind args) :=
  .ite (.get_bind fun _ => (Stays.host _).bind fun _ =>
    .ite (Stays.pure _) ((stays_send _ _).bind fun _ => Stays.pure _)) (Stays.pure _)

theorem starts_enterCall (kind : ZvmCallKind) (args : CallArgs) (calldata : List UInt8) :
    StartsFresh (enterCall kind args calldata) :=
  (Stays.host _).bind_to fun code => (stays_payTarget kind args).bind_to fun _ => .ite
    (starts_enter (.call kind) args.gasReq (callContext kind args code calldata) _ _) starts_giveUp

theorem stays_readHost {α : Type} (p : Program HostRead.Reply α) : Stays (readHost p) := by
  intro f
  induction p with
  | done a => exact ⟨rfl,fun _ _ => trivial⟩
  | call i next ih => exact ⟨trivial,fun r => ih r⟩

theorem keeps_setReturnData (data : List UInt8) : Keeps ZvmInterpreter.pc (setReturnData data) :=
  .modify fun _ => rfl

theorem keeps_settlePrecompile (args : CallArgs) (result : PrecompileResult) :
    Keeps ZvmInterpreter.pc (settlePrecompile args result) := by
  cases result with
  | none => exact (keeps_setReturnData _).bind fun _ => .push (fun _ _ => rfl) _
  | some result =>
    have hgas : Keeps ZvmInterpreter.pc
        (modify (fun f => { f with gas := saturatingSub64 f.gas result.2 }) : FrameOp Unit) := .modify fun _ => rfl
    exact hgas.bind fun _ => (keeps_storeBytes _ _).bind fun _ => (keeps_setReturnData _).bind fun _ =>
      .push (fun _ _ => rfl) _

theorem starts_call (kind : ZvmCallKind) : StartsFresh (beginCall Z kind) :=
  (Stays.lift (.popCall (fun _ _ => rfl) (fun _ _ => rfl) (fun _ _ => rfl) kind)).bind_to fun args =>
    .get_bind fun _ => .ite starts_giveUp <| (stays_readSlice _ _).bind_to fun calldata => .ite
      (.get_bind fun _ => (stays_readHost _).bind_to fun result =>
        (Stays.lift (keeps_settlePrecompile args result)).bind_to fun _ => starts_none)
      ((Stays.host _).bind_to fun _ => .ite (starts_enterCall kind args calldata) starts_giveUp)

theorem stays_collides (addr : Address) : Stays (collides addr) :=
  (Stays.host _).bind fun _ => .ite (Stays.pure _) ((Stays.host _).bind fun _ => Stays.pure _)

theorem starts_enterCreate (withSalt : Bool) (newAddr : Address) (args : CreateArgs) (initcode : List UInt8) :
    StartsFresh (enterCreate withSalt newAddr args initcode) := by
  have hsend : Stays (sendValue newAddr args.value) := .ite (stays_send _ _) (Stays.pure ())
  exact hsend.bind_to fun _ => (Stays.host _).bind_to fun _ =>
    starts_enter (.create withSalt) _ (createContext newAddr args.value initcode) _ _

theorem starts_create (withSalt : Bool) : StartsFresh (beginCreate P withSalt) :=
  (Stays.lift (.popCreate (fun _ _ => rfl) withSalt)).bind_to fun args => .ite starts_giveUp <|
    (Stays.lift (.chargeCreate (fun _ _ => rfl) args)).bind_to fun _ => .get_bind fun _ => .ite starts_giveUp <|
    .get_bind fun _ => (Stays.host _).bind_to fun _ => .ite starts_refuse <|
    (stays_readSlice _ _).bind_to fun initcode => (Stays.host _).bind_to fun _ => (Stays.host _).bind_to fun _ =>
    (stays_collides _).bind_to fun _ => .ite starts_refuse (starts_enterCreate withSalt _ args initcode)

theorem starts_frame (kind : FrameKind) : StartsFresh (beginFrame P Z kind) := by
  cases kind with
  | call kind => exact starts_call kind
  | create withSalt => exact starts_create withSalt

theorem stays_deploy (newAddr : Address) (deployed : List UInt8) : Stays (deploy newAddr deployed) := by
  have hcharged : ∀ cost, Stays (modify (fun f => { f with gas := f.gas - cost }) : FrameM Unit) :=
    fun _ _ => ⟨rfl,fun _ _ => trivial⟩
  exact .ite (stays_push _) <| .ite (stays_push _) <| .get_bind fun _ => .ite (stays_push _) <|
    (hcharged _).bind fun _ => (Stays.host _).bind fun _ => (Stays.host _).bind fun _ =>
    (stays_setReturnData _).bind fun _ => stays_push _

theorem stays_resumeOpcode (sub : SubFrame) (result : ZvmResult) : Stays (resumeOpcode sub result) := by
  unfold resumeOpcode
  cases sub.kind with
  | call kind =>
    exact .lift ((keeps_setReturnData _).bind fun _ => (keeps_storeBytes _ _).bind fun _ => .push (fun _ _ => rfl) _)
  | create withSalt => exact .ite (stays_deploy _ _) ((stays_setReturnData _).bind fun _ => stays_push _)

end Frames

section Rounds
variable {P : Platform} {Z : Precompiles} {f : ZvmInterpreter}

theorem operandLength_of_fromU8 {byte : UInt8} {op : Opcode} (h : Opcode.fromU8 byte = some op) :
    op.operandLength = operandLength byte := by
  have hpushes : 0x60 ≤ byte ∧ byte ≤ 0x7F ↔ 0x60 ≤ byte.toNat ∧ byte.toNat ≤ 0x7F :=
    and_congr UInt8.le_iff_toNat_le UInt8.le_iff_toNat_le
  unfold operandLength
  unfold Opcode.fromU8 at h
  dsimp only at h
  split at h
  · rename_i hpush
    cases h
    rw [if_pos (hpushes.mpr hpush)]
    change (byte.toNat - 0x60) % 32 + 1 = byte.toNat - 0x5F
    omega
  · rename_i hother
    rw [if_neg (hpushes.not.mpr hother)]
    have hbytes : ∀ p ∈ Opcode.bytes, p.2.operandLength = 0 := by decide
    split at h
    · cases h
      rfl
    · split at h
      · cases h
        rfl
      · split at h
        · cases h
          rfl
        · obtain ⟨before,rest,hlist,-⟩ := List.lookup_eq_some_iff.mp h
          exact hbytes (byte.toNat,op) (hlist ▸ List.mem_append_right before (List.mem_cons_self ..))

section Jumps
variable {f' : ZvmInterpreter} {dest cond : U256} {rest : List U256}

theorem pop_ok {word : U256} : pop f = (.ok word,f') ↔
    ∃ stack : ZvmStack, f.stack.inner = word :: stack.inner ∧ f' = { f with stack := stack } := by
  rcases f with ⟨ctx,⟨inner,hinner⟩⟩
  cases inner with
  | nil =>
    constructor
    · rintro ⟨⟩
    · rintro ⟨stack,⟨⟩,-⟩
  | cons word rest =>
    constructor
    · rintro ⟨⟩
      exact ⟨⟨rest,(Nat.le_succ _).trans hinner⟩,rfl,rfl⟩
    · rintro ⟨⟨_,_⟩,⟨⟩,rfl⟩
      rfl

theorem jumpTo_ok {dest : UInt64} : jumpTo dest f = (.ok (),f') ↔
    JumpdestAt f.ctx.bytecode dest.toNat ∧ f' = { f with pc := dest.toNat } := by
  rw [← bitmap_code_iff]
  change (if (buildJumpdestBitmap 0 f.ctx.bytecode)[dest.toNat]?.getD false then _
    else _ : FrameOp Unit) f = _ ↔ _
  split
  · rename_i hdest
    constructor
    · rintro ⟨⟩
      exact ⟨hdest,rfl⟩
    · rintro ⟨-,rfl⟩
      rfl
  · rename_i hother
    constructor
    · rintro ⟨⟩
    · rintro ⟨hdest,-⟩
      exact absurd hdest hother

theorem jump_ok : jump f = (.ok (),f') ↔ ∃ dest, ∃ stack : ZvmStack, f.stack.inner = dest :: stack.inner ∧
    JumpdestAt f.ctx.bytecode (UInt64.ofNat dest.toNat).toNat ∧
      f' = { f with stack := stack, pc := (UInt64.ofNat dest.toNat).toNat } := by
  rw [jump, bind_ok]
  constructor
  · rintro ⟨a,f₁,hpop,hjump⟩
    obtain ⟨dest,stack,hstack,rfl,rfl⟩ := popU64_ok.mp hpop
    obtain ⟨hdest,rfl⟩ := jumpTo_ok.mp hjump
    exact ⟨dest,stack,hstack,hdest,rfl⟩
  · rintro ⟨dest,stack,hstack,hdest,rfl⟩
    exact ⟨_,_,popU64_ok.mpr ⟨dest,stack,hstack,rfl,rfl⟩,jumpTo_ok.mpr ⟨hdest,rfl⟩⟩

theorem jumpi_ok : jumpi f = (.ok (),f') ↔ ∃ dest cond, ∃ stack : ZvmStack,
    f.stack.inner = dest :: cond :: stack.inner ∧
      (cond = 0 ∧ f' = { f with stack := stack, pc := f.pc + 1 } ∨
        cond ≠ 0 ∧ JumpdestAt f.ctx.bytecode (UInt64.ofNat dest.toNat).toNat ∧
          f' = { f with stack := stack, pc := (UInt64.ofNat dest.toNat).toNat }) := by
  rw [jumpi, bind_ok]
  constructor
  · rintro ⟨a,f₁,hpop,hrest⟩
    obtain ⟨dest,stack₁,hstack₁,rfl,rfl⟩ := popU64_ok.mp hpop
    obtain ⟨cond,f₂,hcond,hrest⟩ := (bind_ok _ _).mp hrest
    obtain ⟨stack,hstack,rfl⟩ := pop_ok.mp hcond
    have hboth : f.stack.inner = dest :: cond :: stack.inner := by rw [hstack₁]; exact congrArg (dest :: ·) hstack
    refine ⟨dest,cond,stack,hboth,?_⟩
    split at hrest
    · rename_i hzero
      cases hrest
      exact Or.inl ⟨hzero,rfl⟩
    · rename_i htaken
      obtain ⟨hdest,rfl⟩ := jumpTo_ok.mp hrest
      exact Or.inr ⟨htaken,hdest,rfl⟩
  · rintro ⟨dest,cond,stack,hstack,hrest⟩
    have hbound := f.stack.bounded
    rw [hstack, List.length_cons] at hbound
    have hpop : popU64 f = (.ok (UInt64.ofNat dest.toNat),{ f with stack := ⟨cond :: stack.inner,by omega⟩ }) :=
      popU64_ok.mpr ⟨dest,_,hstack,rfl,rfl⟩
    refine ⟨_,_,hpop,(bind_ok _ _).mpr ⟨cond,_,pop_ok.mpr ⟨stack,rfl,rfl⟩,?_⟩⟩
    rcases hrest with ⟨hzero,rfl⟩ | ⟨htaken,hdest,rfl⟩
    · rw [if_pos hzero]
      rfl
    · rw [if_neg htaken]
      exact jumpTo_ok.mpr ⟨hdest,rfl⟩

end Jumps

/-- Where the frame is behind a round. -/
def Outcome.Moves (f : ZvmInterpreter) : Outcome → Prop
  | .next f' => JumpdestAt f.ctx.bytecode f'.pc ∨
      ∃ byte, f.ctx.bytecode[f.pc]? = some byte ∧ f'.pc = f.pc + 1 + operandLength byte
  | .enter f' sub => sub.frame.pc = 0 ∧ f'.pc = f.pc ∧
      ∃ byte, f.ctx.bytecode[f.pc]? = some byte ∧ operandLength byte = 0
  | .halt _ _ | .panicked => True

theorem moves_error {α : Type} {k : α → ZvmInterpreter → Outcome} {e : ZvmFault} {f' : ZvmInterpreter} :
    (conclude k (.error e,f')).Moves f := by
  cases e with
  | panicked => exact trivial
  | error e => exact trivial

theorem moves_dispatch {p : FrameM (Option ZvmResult)} {g : ZvmInterpreter}
    (hp : (p g).Within (fun _ => True) fun r => r.1 = .ok none → (Outcome.next r.2).Moves f) :
    (p.outcome (fun result f => (result.map (.halt · f)).getD (.next f)) g).Within (fun _ => True) (Outcome.Moves f) := by
  refine within_outcome hp ?_
  rintro ⟨e | result,f₁⟩ hmoves
  · exact moves_error
  · cases result with
    | none => exact hmoves rfl
    | some result => exact trivial

theorem within_jumping {p : FrameOp Unit} {g : ZvmInterpreter} {Q : ZvmInterpreter → Prop}
    (hp : ∀ f', p g = (.ok (),f') → Q f') :
    (jumping p g).Within (fun _ => True) fun r => r.1 = .ok none → Q r.2 := by
  rw [jumping, lift_bind_apply]
  rcases hrun : p g with ⟨e | ⟨⟩,f₁⟩
  · rintro ⟨⟩
  · exact fun _ => hp f₁ hrun

theorem frameKind_operandLength {op : Opcode} {kind : FrameKind} (h : op.frameKind = some kind) :
    op.operandLength = 0 := by
  cases op with
  | PUSH n => cases h
  | _ => rfl

/-- A round goes to the next instruction, or to a `JUMPDEST`. -/
theorem within_step_moves (f : ZvmInterpreter) : (step P Z f).Within (fun _ => True) (Outcome.Moves f) := by
  rcases hop : f.opcode with _ | op
  · obtain ⟨status,hend⟩ := step_end (P := P) (Z := Z) hop
    rw [hend]
    exact trivial
  · obtain ⟨byte,hbyte,hdecode⟩ := Option.bind_eq_some_iff.mp hop
    have hlength := operandLength_of_fromU8 hdecode
    rw [step_eq hop]
    split
    · exact trivial
    · unfold execute
      rcases hkind : op.frameKind with _ | kind
      · apply moves_dispatch
        by_cases hjump : op.Jumps
        · rcases hjump with rfl | rfl
          · refine within_jumping (p := jump) (Q := fun f' => (Outcome.next f').Moves f) ?_
            intro f' hok
            obtain ⟨dest,stack,-,hdest,rfl⟩ := jump_ok.mp hok
            exact Or.inl hdest
          · refine within_jumping (p := jumpi) (Q := fun f' => (Outcome.next f').Moves f) ?_
            intro f' hok
            obtain ⟨dest,cond,stack,-,⟨-,rfl⟩ | ⟨-,hdest,rfl⟩⟩ := jumpi_ok.mp hok
            · exact Or.inr ⟨byte,hbyte,by rw [← hlength]; rfl⟩
            · exact Or.inl hdest
        · refine (advances_dispatch P hkind hjump _).mono (fun _ hc => hc) ?_
          rintro ⟨_,f'⟩ hpc hnext
          refine Or.inr ⟨byte,hbyte,?_⟩
          rw [hpc hnext, hlength, Nat.add_assoc]
      · refine within_outcome (Q := fun r => ∀ sub, r.1 = .ok sub → StartsAtZero sub ∧
          r.2.pc = f.pc + if sub = none then 1 else 0) ?_ ?_
        · refine (within_bind_iff _ _ _).mpr ((starts_frame kind _).mono (fun _ hc => hc) ?_)
          rintro ⟨e | sub,f₁⟩ ⟨hpc,hstart⟩
          · rintro _ ⟨⟩
          · cases sub with
            | none =>
              rintro _ ⟨⟩
              exact ⟨hstart none rfl,congrArg (· + 1) hpc⟩
            | some sub =>
              rintro _ ⟨⟩
              exact ⟨hstart _ rfl,hpc⟩
        · rintro ⟨e | sub,f₁⟩ hall
          · exact moves_error
          · obtain ⟨hstart,hpc⟩ := hall sub rfl
            have hshort : operandLength byte = 0 := hlength ▸ frameKind_operandLength hkind
            cases sub with
            | none => exact Or.inr ⟨byte,hbyte,by rw [hshort]; exact hpc⟩
            | some sub => exact ⟨hstart sub rfl,hpc,byte,hbyte,hshort⟩

theorem within_resume_moves (f : ZvmInterpreter) (sub : SubFrame) (result : ZvmResult) (child : ZvmInterpreter) :
    (resume f sub result child).Within (fun _ => True) fun o => ∀ f', o = .next f' → f'.pc = f.pc + 1 := by
  refine within_outcome (Q := fun r => r.1 = .ok () → r.2.pc = f.pc + 1) ?_ ?_
  · have hmerge : Stays (liftM (mergeChild result child)) := .lift (.modify fun _ => rfl)
    refine (within_bind_iff _ _ f).mpr ((hmerge f).mono (fun _ hc => hc) ?_)
    rintro ⟨e | ⟨⟩,f₁⟩ ⟨hmerged,-⟩
    · rintro ⟨⟩
    · refine (within_bind_iff _ _ f₁).mpr ((stays_resumeOpcode sub result f₁).mono (fun _ hc => hc) ?_)
      rintro ⟨e | ⟨⟩,f₂⟩ ⟨hresumed,-⟩
      · rintro ⟨⟩
      · exact fun _ => congrArg (· + 1) (hresumed.trans hmerged)
  · rintro ⟨e | ⟨⟩,f₁⟩ hpc
    · cases e with
      | panicked => rintro _ ⟨⟩
      | error e => rintro _ ⟨⟩
    · rintro _ ⟨⟩
      exact hpc rfl

end Rounds

section Runs
variable {σ : Type} {P : Platform} {Z : Precompiles} {h : Program.Handler ZvmCall.Reply σ}
variable {f f' : ZvmInterpreter} {s t : σ} {dest : U256}

def Round.AtBoundary : Round → Prop
  | .opcode f => Boundary f.ctx.bytecode f.pc
  | .back _ _ _ _ => True

theorem Reaches.atBoundary {r : Round} (hreach : Reaches P Z h f s r t) (hf : Boundary f.ctx.bytecode f.pc) :
    r.AtBoundary := by
  have hmoves : ∀ {f s o s₁}, (step P Z f).run h s = (o,s₁) → o.Moves f := by
    intro f s o s₁ hstep
    have hall := (within_step_moves (P := P) (Z := Z) f).result h s
    rwa [hstep] at hall
  induction hreach with
  | here f s => exact hf
  | next hstep _ ih =>
    apply ih
    rw [(costs_of_run hstep).1.ctx]
    rcases hmoves hstep with hdest | ⟨byte,hbyte,hpc⟩
    · exact hdest.1
    · exact hpc ▸ .next hf hbyte
  | within hstep _ ih =>
    apply ih
    rw [(hmoves hstep).1]
    exact .start
  | back _ _ => exact trivial
  | @behind f f₁ f₂ child sub result r s s₁ s₂ s₃ t hstep hsub hresume _ ih =>
    apply ih
    obtain ⟨-,hpc,byte,hbyte,hshort⟩ := hmoves hstep
    have hback := (within_resume_moves f₁ sub result child).result h s₂ f₂ (congrArg Prod.fst hresume)
    have hnext := Boundary.next hf hbyte
    rw [(behind_less (costs_of_run hstep) hsub hresume).1, hback, hpc]
    rwa [hshort] at hnext

def ZvmInterpreter.jumpOperand (f : ZvmInterpreter) : Option U256 :=
  match f.opcode,f.stack.inner with
  | some .JUMP,dest :: _ => some dest
  | some .JUMPI,dest :: cond :: _ => if cond = 0 then none else some dest
  | _,_ => none

def ZvmInterpreter.PaysOpcode (f : ZvmInterpreter) : Prop := ∀ op ∈ f.opcode, ¬ f.gas < op.gas

theorem jumpOperand_eq_some : f.jumpOperand = some dest ↔
    (f.opcode = some .JUMP ∧ ∃ rest, f.stack.inner = dest :: rest) ∨
      (f.opcode = some .JUMPI ∧ ∃ cond rest, cond ≠ 0 ∧ f.stack.inner = dest :: cond :: rest) := by
  unfold ZvmInterpreter.jumpOperand
  split
  · rename_i hop hstack
    rw [hop, hstack]
    simp
  · rename_i cond rest hop hstack
    rw [hop, hstack]
    split
    · rename_i hzero
      simp [hzero]
    · rename_i htaken
      simp
      exact fun _ => htaken
  · rename_i hjump hjumpi
    constructor
    · rintro ⟨⟩
    · rintro (⟨hop,rest,hstack⟩ | ⟨hop,cond,rest,-,hstack⟩)
      · exact absurd hstack (hjump _ _ hop)
      · exact absurd hstack (hjumpi _ _ _ hop)

/-- A jump goes on exactly if its gas and its operands let it. -/
theorem jumping_next {p : FrameOp Unit} {op : Opcode} (hop : f.opcode = some op) (hkind : op.frameKind = none)
    (hdispatch : dispatch P op = jumping p) : ((step P Z f).run h s).1 = .next f' ↔
      f.PaysOpcode ∧ p { f with gas := f.gas - op.gas } = (.ok (),f') := by
  have hpaid : f.PaysOpcode ↔ ¬ f.gas < op.gas := by
    unfold ZvmInterpreter.PaysOpcode
    rw [hop]
    exact ⟨fun hall => hall op rfl,by rintro hgas _ ⟨⟩; exact hgas⟩
  rw [step_eq hop, hpaid]
  split
  · rename_i hless
    exact ⟨by rintro ⟨⟩,fun h => absurd hless h.1⟩
  · rename_i hgas
    have hexecute : ∀ g, execute P Z op g =
        (jumping p).outcome (fun result f => (result.map (.halt · f)).getD (.next f)) g := by
      intro g
      unfold execute
      rw [hkind]
      dsimp only
      rw [hdispatch]
    rw [hexecute, FrameM.outcome, jumping, lift_bind_apply]
    rcases p { f with gas := f.gas - op.gas } with ⟨e | ⟨⟩,f₁⟩
    · constructor
      · cases e with
        | panicked => rintro ⟨⟩
        | error e => rintro ⟨⟩
      · rintro ⟨-,⟨⟩⟩
    · constructor
      · rintro ⟨⟩
        exact ⟨hgas,rfl⟩
      · rintro ⟨-,⟨⟩⟩
        rfl

theorem jump_taken (hdest : f.jumpOperand = some dest) (hnext : ((step P Z f).run h s).1 = .next f') :
    f.PaysOpcode ∧ JumpdestAt f.ctx.bytecode f'.pc ∧ f'.pc = (UInt64.ofNat dest.toNat).toNat := by
  rcases jumpOperand_eq_some.mp hdest with ⟨hop,rest,hstack⟩ | ⟨hop,cond,rest,htaken,hstack⟩
  · obtain ⟨hpaid,hok⟩ := (jumping_next hop rfl rfl).mp hnext
    obtain ⟨dest',stack,hstack',hlands,rfl⟩ := jump_ok.mp hok
    obtain rfl : dest = dest' := (List.cons.inj (hstack.symm.trans hstack')).1
    exact ⟨hpaid,hlands,rfl⟩
  · obtain ⟨hpaid,hok⟩ := (jumping_next hop rfl rfl).mp hnext
    obtain ⟨dest',cond',stack,hstack',hrest⟩ := jumpi_ok.mp hok
    obtain ⟨rfl,htail⟩ := List.cons.inj (hstack.symm.trans hstack')
    obtain rfl : cond = cond' := (List.cons.inj htail).1
    rcases hrest with ⟨hzero,-⟩ | ⟨-,hlands,rfl⟩
    · exact absurd hzero htaken
    · exact ⟨hpaid,hlands,rfl⟩

theorem jump_goes (hdest : f.jumpOperand = some dest) (hpaid : f.PaysOpcode)
    (hlands : JumpdestAt f.ctx.bytecode (UInt64.ofNat dest.toNat).toNat) :
    ∃ f', ((step P Z f).run h s).1 = .next f' := by
  have hbound := f.stack.bounded
  rcases jumpOperand_eq_some.mp hdest with ⟨hop,rest,hstack⟩ | ⟨hop,cond,rest,htaken,hstack⟩
  · rw [hstack, List.length_cons] at hbound
    exact ⟨_,(jumping_next hop rfl rfl).mpr
      ⟨hpaid,jump_ok.mpr ⟨dest,⟨rest,by omega⟩,hstack,hlands,rfl⟩⟩⟩
  · rw [hstack, List.length_cons, List.length_cons] at hbound
    exact ⟨_,(jumping_next hop rfl rfl).mpr
      ⟨hpaid,jumpi_ok.mpr ⟨dest,cond,⟨rest,by omega⟩,hstack,Or.inr ⟨htaken,hlands,rfl⟩⟩⟩⟩

/-- No push data is executed: the frame is past the end of its code or at an instruction, and
a jump that is taken goes where its whole operand says, to a `JUMPDEST` instruction. -/
structure ZvmInterpreter.KeepsToCode (P : Platform) (Z : Precompiles) (h : Program.Handler ZvmCall.Reply σ)
    (f : ZvmInterpreter) (s : σ) : Prop where
  position : f.ctx.bytecode.length ≤ f.pc ∨ Boundary f.ctx.bytecode f.pc
  noOperand : ¬ InOperand f.ctx.bytecode f.pc
  jump : ∀ dest f', f.jumpOperand = some dest → ((step P Z f).run h s).1 = .next f' →
    f'.pc = dest.toNat ∧ JumpdestAt f.ctx.bytecode dest.toNat

/-- A jump that can be paid for and whose operand has a `JUMPDEST` in its low 64 bits has no
higher bits. -/
def ZvmInterpreter.JumpsLow (f : ZvmInterpreter) : Prop :=
  ∀ dest, f.jumpOperand = some dest → f.PaysOpcode →
    JumpdestAt f.ctx.bytecode (dest.toNat % 2 ^ 64) → dest.toNat < 2 ^ 64

theorem keepsToCode_iff (hf : Boundary f.ctx.bytecode f.pc) : f.KeepsToCode P Z h s ↔ f.JumpsLow := by
  have hlow : ∀ dest : U256, (UInt64.ofNat dest.toNat).toNat = dest.toNat % 2 ^ 64 := fun _ => UInt64.toNat_ofNat' ..
  constructor
  · intro hkeeps dest hdest hpaid hlands
    rw [← hlow] at hlands
    obtain ⟨f',hnext⟩ := jump_goes (P := P) (Z := Z) (h := h) (s := s) hdest hpaid hlands
    have hwhole := (hkeeps.jump dest f' hdest hnext).1
    have hpc := (jump_taken hdest hnext).2.2
    rw [hlow] at hpc
    omega
  · intro hlow'
    refine ⟨Or.inr hf,hf.not_inOperand,fun dest f' hdest hnext => ?_⟩
    obtain ⟨hpaid,hlands,hpc⟩ := jump_taken hdest hnext
    rw [hlow] at hpc
    rw [hpc] at hlands
    have hless := hlow' dest hdest hpaid hlands
    rw [Nat.mod_eq_of_lt hless] at hpc hlands
    exact ⟨hpc,hlands⟩

/-- In a run no push data is executed if and only if no jump that is taken has an operand of more
than 64 bits. -/
theorem keepsToCode_run_iff (P : Platform) (Z : Precompiles) (h : Program.Handler ZvmCall.Reply σ)
    (ctx : ZvmContext) (s : σ) :
    (∀ f t, Reaches P Z h (.new ctx) s (.opcode f) t → f.KeepsToCode P Z h t) ↔
      ∀ f t, Reaches P Z h (.new ctx) s (.opcode f) t → f.JumpsLow := by
  have hround : ∀ f t, Reaches P Z h (.new ctx) s (.opcode f) t → (f.KeepsToCode P Z h t ↔ f.JumpsLow) :=
    fun f t hreach => keepsToCode_iff (hreach.atBoundary .start)
  exact forall_congr' fun f => forall_congr' fun t => forall_congr' fun hreach => hround f t hreach

/-- The operand `2 ^ 64 + 11`, a jump, and a `JUMPDEST` at 11. -/
def farJumpContext : ZvmContext :=
  { (callingFrame 0).ctx with
    bytecode := [0x68,0x01,0x00,0x00,0x00,0x00,0x00,0x00,0x00,0x0B,0x56,0x5B]
    gasLimit := 1000 }

def farJumpFrame : ZvmInterpreter :=
  { ZvmInterpreter.new farJumpContext with
    stack := ⟨[2 ^ 64 + 11],by decide⟩
    pc := 10
    gas := 997 }

set_option maxRecDepth 5000 in
theorem reaches_farJumpFrame : Reaches .integers noPrecompiles (hostHandler .integers) (.new farJumpContext)
    revertingState (.opcode farJumpFrame) revertingState := .next rfl (.here _ _)

set_option maxRecDepth 5000 in
/-- A jump is taken whose operand is no position of a `JUMPDEST`. -/
theorem far_jump_taken : ∃ f t f' dest,
    Reaches .integers noPrecompiles (hostHandler .integers) (.new farJumpContext) revertingState (.opcode f) t ∧
      f.jumpOperand = some dest ∧
      ((step .integers noPrecompiles f).run (hostHandler .integers) t).1 = .next f' ∧ f'.pc = 11 ∧
      ¬ JumpdestAt f.ctx.bytecode dest.toNat := by
  refine ⟨farJumpFrame,_,{ farJumpFrame with stack := .new, pc := 11, gas := 989 },2 ^ 64 + 11,
    reaches_farJumpFrame,by decide +kernel,rfl,rfl,?_⟩
  rintro ⟨-,hbyte⟩
  have hlength : farJumpFrame.ctx.bytecode.length ≤ (2 ^ 64 + 11 : U256).toNat := by decide +kernel
  rw [List.getElem?_eq_none hlength] at hbyte
  cases hbyte

end Runs

end ZbxChain.Zvm
