import ZbxChain.Evm.Rules

/-! # What each opcode does, whatever the host replies

The opcodes that start no frame spend gas and move the host by the calls they make. Those
that copy are quiet up to their source, which may start behind its end.
-/
namespace ZbxChain.Evm
open EvmM

def EvmCall.journalled : EvmCall → Bool
  | .snapshot | .revertTo _ | .commit _ => false
  | _ => true

section Opcodes
variable {σ : Type} {h : Host σ} {W : σ → σ → Prop} [IsPreorder σ W]

theorem still_unary (g : Word → Word) : Still h W (unary g) := still_pop.bind fun _ => still_push _

theorem still_binary (g : Word → Word → Word) : Still h W (binary g) :=
  still_pop.bind fun _ => still_pop.bind fun _ => still_push _

theorem still_ternary (g : Word → Word → Word → Word) : Still h W (ternary g) :=
  still_pop.bind fun _ => still_pop.bind fun _ => still_pop.bind fun _ => still_push _

theorem still_exp : Still h W exp :=
  still_pop.bind fun _ => still_pop.bind fun _ => (still_consumeGas _).bind fun _ => still_push _

theorem smooth_sha3 (P : Platform) : Smooth h W (sha3 P) :=
  still_popU64.bind_smooth fun _ => still_popU64.bind_smooth fun _ => .window <|
    .bind (still_consumeGas _) fun _ => .read_bind fun _ => (still_push _).smooth

theorem still_pushOf (g : EVMInterpreter → Word) : Still h W (pushOf g) := .get_bind fun _ => still_push _

theorem still_callDataLoad : Still h W callDataLoad := still_popU64.bind fun _ => .get_bind fun _ => still_push _

theorem still_popCopy : Still h W popCopy :=
  still_popU64.bind fun _ => still_popU64.bind fun _ => still_popU64.bind fun _ => .pure _

theorem leads_chargeCopy (args : CopyArgs) : Leads h (Goes W) (fun f => f.memory.Valid) (chargeCopy args)
    (fun _ f => f.memory.Valid ∧ f.memory.Holds args.dest args.size) :=
  (leads_expand args.dest args.size).bind Goes.trans fun _ =>
    still_consumeGas _ fun m => m.Valid ∧ m.Holds args.dest args.size

theorem leads_copyOperands : Leads h (Goes W) (fun f => f.memory.Valid) copyOperands
    (fun args f => f.memory.Valid ∧ f.memory.Holds args.dest args.size) :=
  still_popCopy.bind_leads fun args => (leads_chargeCopy args).bind Goes.trans fun _ =>
    Framed.Moves.pure goes_refl args (by exact fun _ hf => hf)

theorem leads_extCodeCopyOperands : Leads h (Goes W) (fun f => f.memory.Valid) extCodeCopyOperands
    (fun r f => f.memory.Valid ∧ f.memory.Holds r.2.dest r.2.size) :=
  still_popAddress.bind_leads fun addr => still_popCopy.bind_leads fun args =>
    (still_touchAddress _).bind_leads fun _ => (leads_chargeCopy args).bind Goes.trans fun _ =>
    Framed.Moves.pure goes_refl (addr,args) (by exact fun _ hf => hf)

theorem length_take_drop_le (data : List UInt8) (start : ℕ) (size : UInt64) :
    ((data.drop start).take size.toNat).length ≤ size.toNat := by
  rw [List.length_take]
  exact Nat.min_le_left _ _

theorem smooth_returnDataCopy : Smooth h W returnDataCopy := by
  refine still_popU64.bind_smooth fun dest => still_popU64.bind_smooth fun off => still_popU64.bind_smooth fun size =>
    .get_bind fun f => ?_
  dsimp only
  generalize f.returnData = data
  split
  · exact (Still.fail _).smooth
  · rename_i hinside
    have hrange : off.toNat + size.toNat ≤ data.length := by omega
    refine .window <| .bind (still_consumeGas _) fun _ => ?_
    split
    · exact .slice_bind hrange (.write (length_take_drop_le _ _ _))
    · exact .of_smooth (Still.pure ()).smooth

theorem smooth_mload : Smooth h W mload :=
  still_popU64.bind_smooth fun _ => .window <| .read_bind fun _ => (still_push _).smooth

theorem smooth_mstore {size : UInt64} {bytes : Word → List UInt8} (hbytes : ∀ val, (bytes val).length ≤ size.toNat) :
    Smooth h W (mstore size bytes) :=
  still_popU64.bind_smooth fun _ => still_pop.bind_smooth fun _ => .window (.write (hbytes _))

theorem still_pushOperand (n : ℕ) : Still h W (pushOperand n) :=
  .get_bind fun _ => (still_push _).bind fun _ =>
    .modify (fun _ => ⟨rfl,rfl,rfl,rfl,Nat.le_add_right _ _,le_rfl⟩) fun _ => rfl

theorem still_dup (n : ℕ) : Still h W (dup n) :=
  .get_bind fun _ => (Still.orFail _).bind fun _ => .modify (fun _ => ⟨rfl,rfl,rfl,rfl,le_rfl,le_rfl⟩) fun _ => rfl

theorem still_swap (n : ℕ) : Still h W (swap n) :=
  .get_bind fun _ => (Still.orFail _).bind fun _ => .modify (fun _ => ⟨rfl,rfl,rfl,rfl,le_rfl,le_rfl⟩) fun _ => rfl

theorem still_popTopics (n : ℕ) : Still h W (popTopics n) := by
  induction n with
  | zero => exact .pure []
  | succ n ih => exact still_pop.bind fun _ => ih.bind fun _ => .pure _

/-- The opcodes that leave no log behind, and `LOG`. -/
def Fluent (h : Host σ) (W : σ → σ → Prop) {α : Type} (p : EvmM α) : Prop :=
  Leads h (Spends W) (fun f => f.memory.Valid) p (fun _ f => f.memory.Valid)

omit [IsPreorder σ W] in
theorem Smooth.fluent {α : Type} {p : EvmM α} (hp : Smooth h W p) : Fluent h W p :=
  Framed.Moves.weaken hp Goes.spends

theorem Fluent.bind {α β : Type} {p : EvmM α} {q : α → EvmM β} (hp : Smooth h W p) (hq : ∀ a, Fluent h W (q a)) :
    Fluent h W (p >>= q) := Framed.Moves.bind Spends.trans hp.fluent hq

theorem fluent_log (n : ℕ) : Fluent h W (log n) := by
  refine .bind still_staticGuard.smooth fun _ => .bind still_popU64.smooth fun offset =>
    .bind still_popU64.smooth fun size => .bind (still_popTopics n).smooth fun topics => ?_
  have hroom := (leads_expand (h := h) (W := W) offset size).weaken Goes.spends
  have hpaid := (still_consumeGas (h := h) (W := W) (logCost size n)
    fun m => m.Valid ∧ m.Holds offset size).weaken Goes.spends
  have hread := (leads_readMemory (h := h) (W := W) offset size).weaken Goes.spends
  exact hroom.bind Spends.trans fun _ => hpaid.bind Spends.trans fun _ => hread.bind Spends.trans fun data =>
    Framed.Moves.modify (fun f s _ => ⟨rfl,rfl,rfl,le_rfl,le_rfl,Std.Refl.refl s⟩) fun _ hf => hf

section Calls
variable (hcall : ∀ c, EvmCall.journalled c = true → ∀ s, W s (h c s).2)
include hcall

omit [IsPreorder σ W] in
theorem still_host {c : EvmCall} (hc : c.journalled = true) : Still h W (host c) := .host (hcall c hc)

theorem still_pushAbout {c : Address → EvmCall} (hc : ∀ addr, (c addr).journalled = true)
    (word : (addr : Address) → (c addr).Reply → Word) : Still h W (pushAbout c word) :=
  still_popAddress.bind fun _ => (still_touchAddress _).bind fun _ => (still_host hcall (hc _)).bind fun _ =>
    still_push _

theorem still_extCodeHash : Still h W extCodeHash :=
  still_popAddress.bind fun _ => (still_touchAddress _).bind fun _ => (still_host hcall rfl).bind fun _ =>
    .ite (still_push _) ((still_host hcall rfl).bind fun _ => still_push _)

theorem still_blockHash : Still h W blockHash :=
  still_pop.bind fun _ => .get_bind fun _ => .ite ((still_host hcall rfl).bind fun _ => still_push _) (still_push _)

theorem still_selfBalance : Still h W selfBalance :=
  .get_bind fun _ => (still_host hcall rfl).bind fun _ => still_push _

theorem still_sload : Still h W sload :=
  still_pop.bind fun _ => (still_touchSlot _).bind fun _ => .get_bind fun _ => (still_host hcall rfl).bind fun _ =>
    still_push _

theorem still_sstore : Still h W sstore := by
  have hcharge : ∀ callee key value current, Still h W (chargeSstore callee key value current) := by
    intro callee key value current
    exact .ite (.pure ()) ((still_host hcall rfl).bind fun _ => .ite (still_consumeGas _) (still_consumeGas _))
  exact still_staticGuard.bind fun _ => still_pop.bind fun _ => still_pop.bind fun _ => .get_bind fun _ =>
    (still_host hcall rfl).bind fun _ => (still_touchSlot _).bind fun _ => (hcharge _ _ _ _).bind fun _ =>
    still_host hcall rfl

/-- The opcodes that copy from a source of their own. -/
def Opcode.copies : Opcode → Bool
  | .CALLDATACOPY | .CODECOPY | .EXTCODECOPY => true
  | _ => false

theorem fluent_execute {P : Platform} {op : Opcode} {p : EvmM Unit} (hop : op.copies = false)
    (hp : execute P op = some p) : Fluent h W p := by
  cases op with
  | STOP | JUMP | JUMPI | RETURN | REVERT | INVALID | SELFDESTRUCT | CREATE | CREATE2 | CALL | CALLCODE
  | DELEGATECALL | STATICCALL => cases hp
  | CALLDATACOPY | CODECOPY | EXTCODECOPY => cases hop
  | ADD | MUL | SUB | DIV | SDIV | MOD | SMOD | SIGNEXTEND | LT | GT | SLT | SGT | EQ | AND | OR | XOR | BYTE
  | SHL | SHR | SAR =>
    cases hp
    exact (still_binary _).smooth.fluent
  | ADDMOD | MULMOD =>
    cases hp
    exact (still_ternary _).smooth.fluent
  | ISZERO | NOT =>
    cases hp
    exact (still_unary _).smooth.fluent
  | EXP =>
    cases hp
    exact still_exp.smooth.fluent
  | SHA3 =>
    cases hp
    exact (smooth_sha3 P).fluent
  | ADDRESS | ORIGIN | CALLER | CALLVALUE | CALLDATASIZE | CODESIZE | GASPRICE | RETURNDATASIZE | COINBASE
  | TIMESTAMP | NUMBER | PREVRANDAO | GASLIMIT | CHAINID | BASEFEE | PC | MSIZE | GAS =>
    cases hp
    exact (still_pushOf _).smooth.fluent
  | BALANCE | EXTCODESIZE =>
    cases hp
    exact (still_pushAbout hcall (fun _ => rfl) _).smooth.fluent
  | CALLDATALOAD =>
    cases hp
    exact still_callDataLoad.smooth.fluent
  | EXTCODEHASH =>
    cases hp
    exact (still_extCodeHash hcall).smooth.fluent
  | RETURNDATACOPY =>
    cases hp
    exact smooth_returnDataCopy.fluent
  | BLOCKHASH =>
    cases hp
    exact (still_blockHash hcall).smooth.fluent
  | SELFBALANCE =>
    cases hp
    exact (still_selfBalance hcall).smooth.fluent
  | POP =>
    cases hp
    exact (still_pop.bind fun _ => Still.pure ()).smooth.fluent
  | MLOAD =>
    cases hp
    exact smooth_mload.fluent
  | MSTORE =>
    cases hp
    exact (smooth_mstore fun _ => by simp).fluent
  | MSTORE8 =>
    cases hp
    exact (smooth_mstore fun _ => by simp).fluent
  | SLOAD =>
    cases hp
    exact (still_sload hcall).smooth.fluent
  | SSTORE =>
    cases hp
    exact (still_sstore hcall).smooth.fluent
  | JUMPDEST =>
    cases hp
    exact (Still.pure ()).smooth.fluent
  | PUSH0 =>
    cases hp
    exact (still_push _).smooth.fluent
  | PUSH n =>
    cases hp
    exact (still_pushOperand _).smooth.fluent
  | DUP n =>
    cases hp
    exact (still_dup _).smooth.fluent
  | SWAP n =>
    cases hp
    exact (still_swap _).smooth.fluent
  | LOG n =>
    cases hp
    exact fluent_log _

end Calls

end Opcodes

section Copies
variable {σ : Type} {h : Host σ} {W : σ → σ → Prop} [IsPreorder σ W]

theorem after_copyBytes {data : List UInt8} {args : CopyArgs} {f : EVMInterpreter} (s : σ)
    (hroom : f.memory.Valid ∧ f.memory.Holds args.dest args.size) : Framed.After h (copyBytes data args) f s
      (fun r f' s' => Goes W f s f' s' ∧ (r = .error .panicked ↔ data.length < args.src.toNat) ∧
        ∀ a, r = .ok a → f'.memory.Valid) := by
  unfold copyBytes
  rw [Framed.after_bind]
  by_cases hpast : data.length < args.src.toNat
  · have hnone : ¬ args.src.toNat + min (data.length - args.src.toNat) args.size.toNat ≤ data.length := by omega
    unfold sliceAt
    rw [if_neg hnone]
    exact ⟨goes_refl f s,iff_of_true rfl hpast,by rintro _ ⟨⟩⟩
  · have hrange : args.src.toNat + min (data.length - args.src.toNat) args.size.toNat ≤ data.length := by omega
    rw [after_sliceAt hrange]
    generalize hbytes : (data.drop args.src.toNat).take (min (data.length - args.src.toNat) args.size.toNat) = bytes
    have hle : bytes.length ≤ args.size.toNat := by
      rw [← hbytes, List.length_take]
      omega
    have hwrite : InWindow h W args.dest args.size
        (writeMemory args.dest (bytes ++ List.replicate (args.size.toNat - bytes.length) 0)) := by
      apply InWindow.write
      rw [List.length_append, List.length_replicate]
      omega
    refine (hwrite f s hroom).mono ?_
    rintro (e | a) f' s' ⟨hgoes,hend⟩
    · exact ⟨hgoes,iff_of_false (fun he => hend (by cases he; rfl)) hpast,by rintro _ ⟨⟩⟩
    · exact ⟨hgoes,iff_of_false (by rintro ⟨⟩) hpast,fun _ _ => hend⟩

/-- A program that may panic. -/
def Runs (h : Host σ) (W : σ → σ → Prop) {α : Type} (p : EvmM α) : Prop :=
  Framed.Moves h (fun _ => False) (Spends W) (fun f => f.memory.Valid) p (fun _ f => f.memory.Valid)

omit [IsPreorder σ W] in
theorem Fluent.runs {α : Type} {p : EvmM α} (hp : Fluent h W p) : Runs h W p := hp.relax fun _ hbad => hbad.elim

theorem runs_copyBytes (data : List UInt8) (args : CopyArgs) : Framed.Moves h (fun _ => False) (Spends W)
    (fun f => f.memory.Valid ∧ f.memory.Holds args.dest args.size) (copyBytes data args) (fun _ f => f.memory.Valid) := by
  intro f s hroom
  refine (after_copyBytes (W := W) s hroom).mono ?_
  rintro (e | a) f' s' ⟨hgoes,-,hend⟩
  · exact ⟨Goes.spends hgoes,id⟩
  · exact ⟨Goes.spends hgoes,hend a rfl⟩

theorem spends_refl (f : EVMInterpreter) (s : σ) : Spends W f s f s := (goes_refl f s).spends

theorem runs_copyFrom (source : EVMInterpreter → List UInt8) : Runs h W (copyFrom source) := by
  have hoperands := (leads_copyOperands (h := h) (W := W)).weaken Goes.spends
  refine (hoperands.relax fun _ hbad => hbad.elim).bind Spends.trans fun args => .ite ?_ ?_
  · intro _ f s hroom
    exact runs_copyBytes (source f) args f s hroom
  · exact fun _ => Framed.Moves.pure spends_refl () fun _ hf => hf.1

theorem runs_extCodeCopy (hcode : ∀ addr s, W s (h (.code addr) s).2) : Runs h W extCodeCopy := by
  have hoperands := (leads_extCodeCopyOperands (h := h) (W := W)).weaken Goes.spends
  refine (hoperands.relax fun _ hbad => hbad.elim).bind Spends.trans ?_
  rintro ⟨addr,args⟩
  refine .ite (fun _ => ?_) fun _ => Framed.Moves.pure spends_refl () fun _ hf => hf.1
  have hcall : Framed.Moves h (fun _ => False) (Spends W) (fun f => f.memory.Valid ∧ f.memory.Holds args.dest args.size)
      (host (.code addr)) (fun _ f => f.memory.Valid ∧ f.memory.Holds args.dest args.size) :=
    Framed.Moves.call (fun f s => ⟨rfl,rfl,rfl,le_rfl,le_rfl,hcode addr s⟩) fun _ _ hf => hf
  exact hcall.bind Spends.trans fun code => runs_copyBytes code args

/-- Every opcode inside the frame keeps what its host calls keep. -/
theorem runs_execute (hcall : ∀ c, EvmCall.journalled c = true → ∀ s, W s (h c s).2) {P : Platform} {op : Opcode}
    {p : EvmM Unit} (hp : execute P op = some p) : Runs h W p := by
  by_cases hcopies : op.copies = true
  · cases op with
    | CALLDATACOPY | CODECOPY =>
      cases hp
      exact runs_copyFrom _
    | EXTCODECOPY =>
      cases hp
      exact runs_extCodeCopy fun addr => hcall _ rfl
    | _ => cases hcopies
  · exact (fluent_execute hcall (Bool.eq_false_iff.mpr hcopies) hp).runs

end Copies

section Flows
variable {σ : Type} {h : Host σ} {W : σ → σ → Prop} [IsPreorder σ W]

/-- The frame stays in its context and code, with no more gas; it may jump. -/
structure Stands (W : σ → σ → Prop) (f : EVMInterpreter) (s : σ) (f₁ : EVMInterpreter) (s₁ : σ) : Prop where
  ctx : f₁.ctx = f.ctx
  code : f₁.code = f.code
  frames : f₁.frames = f.frames
  gas : f₁.gasRemaining.toNat ≤ f.gasRemaining.toNat
  host : W s s₁

omit [IsPreorder σ W] in
theorem Spends.stands {f f₁ : EVMInterpreter} {s s₁ : σ} (hspends : Spends W f s f₁ s₁) : Stands W f s f₁ s₁ :=
  ⟨hspends.ctx,hspends.code,hspends.frames,hspends.gas,hspends.host⟩

/-- What an opcode that starts no frame leaves; only the ones that copy may panic. -/
def Dispatched (W : σ → σ → Prop) (op : Opcode) (f : EVMInterpreter) (s : σ) (r : Except EvmFault Flow)
    (f₁ : EVMInterpreter) (s₁ : σ) : Prop :=
  Stands W f s f₁ s₁ ∧ match r with
    | .ok .goOn => f.pc ≤ f₁.pc ∧ f₁.memory.Valid
    | .ok .jumped => f₁.memory.Valid ∧ (op = .JUMP ∨ op = .JUMPI)
    | .ok (.exit status) => ∀ e, status ≠ .failed e
    | .error e => e = .panicked → op.copies = true

omit [IsPreorder σ W] in
theorem dispatched_exit {op : Opcode} {status : ExitStatus} {p : EvmM Flow}
    (hp : Leads h (Goes W) (fun f => f.memory.Valid) p (fun flow _ => flow = .exit status))
    (hstatus : ∀ e, status ≠ .failed e) {f : EVMInterpreter} (s : σ) (hf : f.memory.Valid) :
    Framed.After h p f s (Dispatched W op f s) := by
  refine (hp f s hf).mono ?_
  rintro (e | flow) f₁ s₁ ⟨hgoes,hend⟩
  · exact ⟨hgoes.spends.stands,fun he => absurd he hend⟩
  · cases hend
    exact ⟨hgoes.spends.stands,hstatus⟩

theorem leads_returnWith (status : ExitStatus) : Leads h (Goes W) (fun f => f.memory.Valid) (returnWith status)
    (fun flow _ => flow = .exit status) := by
  refine still_popU64.bind_leads fun offset => still_popU64.bind_leads fun size => ?_
  refine .ite (fun _ => Framed.Moves.throw goes_refl (by rintro ⟨⟩)) fun _ => ?_
  refine (leads_expand offset size).bind Goes.trans fun _ => (leads_readMemory offset size).bind Goes.trans fun data => ?_
  exact (still_setReturnData data).bind_leads fun _ => Framed.Moves.pure goes_refl _ fun _ _ => rfl

theorem leads_selfdestruct (hcall : ∀ c, EvmCall.journalled c = true → ∀ s, W s (h c s).2) :
    Leads h (Goes W) (fun f => f.memory.Valid) selfdestruct (fun flow _ => flow = .exit .succeeded) := by
  refine still_staticGuard.bind_leads fun _ => still_popAddress.bind_leads fun beneficiary =>
    (still_consumeGas _).bind_leads fun _ => (still_touchAddress _).bind_leads fun _ => ?_
  intro f s hf
  have hend : Leads h (Goes W) (fun f => f.memory.Valid)
      (host (.destruct f.ctx.callee beneficiary) >>= fun _ => (pure (.exit .succeeded) : EvmM Flow))
      (fun flow _ => flow = .exit .succeeded) :=
    (still_host hcall rfl).bind_leads fun _ => Framed.Moves.pure goes_refl _ fun _ _ => rfl
  exact hend f s hf

theorem after_jumpTo {op : Opcode} (hop : op = .JUMP ∨ op = .JUMPI) (dest : UInt64) {f : EVMInterpreter} (s : σ)
    (hf : f.memory.Valid) : Framed.After h (jumpTo dest) f s (Dispatched W op f s) := by
  unfold jumpTo
  refine Framed.after_get_bind.mpr (Framed.after_ite.mpr ?_)
  split
  · exact ⟨⟨rfl,rfl,rfl,le_rfl,Std.Refl.refl s⟩,hf,hop⟩
  · exact ⟨⟨rfl,rfl,rfl,le_rfl,Std.Refl.refl s⟩,by rintro ⟨⟩⟩

theorem dispatched_bind {α : Type} {op : Opcode} {p : EvmM α} {q : α → EvmM Flow} (hp : Smooth h W p)
    {f : EVMInterpreter} {s : σ} (hf : f.memory.Valid)
    (hq : ∀ a f₁ s₁, f₁.memory.Valid → Framed.After h (q a) f₁ s₁ (Dispatched W op f₁ s₁)) :
    Framed.After h (p >>= q) f s (Dispatched W op f s) := by
  rw [Framed.after_bind]
  refine (hp f s hf).mono ?_
  rintro (e | a) f₁ s₁ ⟨hgoes,hend⟩
  · exact ⟨hgoes.spends.stands,fun he => absurd he hend⟩
  · refine (hq a f₁ s₁ hend).mono ?_
    rintro r f₂ s₂ ⟨⟨hctx,hcode,hframes,hgas,hhost⟩,hflow⟩
    refine ⟨⟨hctx.trans hgoes.ctx,hcode.trans hgoes.code,hframes.trans hgoes.frames,hgas.trans hgoes.gas,
      IsTrans.trans _ _ _ hgoes.host hhost⟩,?_⟩
    rcases r with e | _ | _ | status
    · exact hflow
    · exact ⟨hgoes.pc.trans hflow.1,hflow.2⟩
    · exact hflow
    · exact hflow

/-- How an opcode may end, and in what memory. -/
theorem after_dispatch (hcall : ∀ c, EvmCall.journalled c = true → ∀ s, W s (h c s).2) {P : Platform} (op : Opcode)
    {f : EVMInterpreter} (s : σ) (hf : f.memory.Valid) :
    Framed.After h (dispatch P op) f s (Dispatched W op f s) := by
  unfold dispatch
  split
  · rename_i p hp
    unfold goOn
    rw [Framed.after_bind]
    by_cases hcopies : op.copies = true
    · refine (runs_execute hcall hp f s hf).mono ?_
      rintro (e | ⟨⟩) f₁ s₁ ⟨hspends,hend⟩
      · exact ⟨hspends.stands,fun _ => hcopies⟩
      · exact ⟨hspends.stands,hspends.pc,hend⟩
    · refine (fluent_execute hcall (Bool.eq_false_iff.mpr hcopies) hp f s hf).mono ?_
      rintro (e | ⟨⟩) f₁ s₁ ⟨hspends,hend⟩
      · exact ⟨hspends.stands,fun he => absurd he hend⟩
      · exact ⟨hspends.stands,hspends.pc,hend⟩
  · have hrefl : Stands W f s f s := (spends_refl f s).stands
    split
    · exact ⟨hrefl,by rintro _ ⟨⟩⟩
    · exact dispatched_bind still_popU64.smooth hf fun dest f₁ s₁ hf₁ => after_jumpTo (Or.inl rfl) dest s₁ hf₁
    · refine dispatched_bind still_popU64.smooth hf fun dest f₁ s₁ hf₁ =>
        dispatched_bind still_pop.smooth hf₁ fun cond f₂ s₂ hf₂ => Framed.after_ite.mpr ?_
      split
      · exact ⟨⟨rfl,rfl,rfl,le_rfl,Std.Refl.refl s₂⟩,le_rfl,hf₂⟩
      · exact after_jumpTo (Or.inr rfl) dest s₂ hf₂
    · exact dispatched_exit (leads_returnWith .succeeded) (by rintro _ ⟨⟩) s hf
    · exact dispatched_exit (leads_returnWith .reverted) (by rintro _ ⟨⟩) s hf
    · exact dispatched_exit (leads_selfdestruct hcall) (by rintro _ ⟨⟩) s hf
    · exact ⟨hrefl,by rintro ⟨⟩⟩

end Flows

end ZbxChain.Evm
