import ZbxChain.Evm.Gas
import ZbxChain.Evm.FailedFrames
import ZbxChain.Evm.PrecompileCosts

/-! # Where a run panics

A copy of calldata or code panics where it starts behind the end of its source: the slice it
takes begins at the offset on the stack, which is nowhere cut down to the length. No other
opcode panics. Sums over a window come behind its `ensure`; of the precompiles that calls
come to, two can leave their types.
-/
namespace ZbxChain.Evm
open EvmM

section Operands
variable {σ : Type} {h : Host σ} {f : EVMInterpreter} {s : σ}

structure SameButStack (f f₁ : EVMInterpreter) : Prop where
  ctx : f₁.ctx = f.ctx
  code : f₁.code = f.code
  memory : f₁.memory = f.memory
  gas : f₁.gasRemaining = f.gasRemaining
  warm : f₁.warmAddresses = f.warmAddresses

theorem SameButStack.trans {f₁ f₂ : EVMInterpreter} (h₁ : SameButStack f f₁) (h₂ : SameButStack f₁ f₂) : SameButStack f f₂ :=
  ⟨h₂.ctx.trans h₁.ctx,h₂.code.trans h₁.code,h₂.memory.trans h₁.memory,h₂.gas.trans h₁.gas,h₂.warm.trans h₁.warm⟩

theorem after_pop (f : EVMInterpreter) (s : σ) : Framed.After h pop f s (fun r f₁ s₁ => s₁ = s ∧ match r with
    | .ok word => SameButStack f f₁ ∧ f.stack.data = word :: f₁.stack.data
    | .error e => f.stack.data = [] ∧ e ≠ .panicked) := by
  obtain ⟨ctx,code,pc,⟨data,hdata⟩,memory,gas,returnData,frames,warm,slots,logs⟩ := f
  cases data with
  | nil => exact ⟨rfl,rfl,by rintro ⟨⟩⟩
  | cons word rest => exact ⟨rfl,⟨rfl,rfl,rfl,rfl,rfl⟩,rfl⟩

theorem after_popU64 (f : EVMInterpreter) (s : σ) : Framed.After h popU64 f s (fun r f₁ s₁ => s₁ = s ∧ match r with
    | .ok n => SameButStack f f₁ ∧ ∃ word, f.stack.data = word :: f₁.stack.data ∧ n = u256ToU64 word
    | .error e => f.stack.data = [] ∧ e ≠ .panicked) := by
  refine Framed.after_bind.mpr ((after_pop f s).mono ?_)
  rintro (e | word) f₁ s₁ ⟨rfl,hend⟩
  · exact ⟨rfl,hend⟩
  · exact ⟨rfl,hend.1,word,hend.2,rfl⟩

theorem after_popAddress (f : EVMInterpreter) (s : σ) : Framed.After h popAddress f s (fun r f₁ s₁ => s₁ = s ∧ match r with
    | .ok addr => SameButStack f f₁ ∧ ∃ word, f.stack.data = word :: f₁.stack.data ∧ addr = word.setWidth 160
    | .error e => f.stack.data = [] ∧ e ≠ .panicked) := by
  refine Framed.after_bind.mpr ((after_pop f s).mono ?_)
  rintro (e | word) f₁ s₁ ⟨rfl,hend⟩
  · exact ⟨rfl,hend⟩
  · exact ⟨rfl,hend.1,word,hend.2,rfl⟩

def EvmM.CopyArgs.ofWords (dest src size : Word) : CopyArgs := ⟨u256ToU64 dest,u256ToU64 src,u256ToU64 size⟩

theorem after_popCopy (f : EVMInterpreter) (s : σ) : Framed.After h popCopy f s (fun r f₁ s₁ => s₁ = s ∧ match r with
    | .ok args => SameButStack f f₁ ∧ ∃ dest src size, f.stack.data = dest :: src :: size :: f₁.stack.data ∧
        args = .ofWords dest src size
    | .error e => f.stack.data.length < 3 ∧ e ≠ .panicked) := by
  refine Framed.after_bind.mpr ((after_popU64 f s).mono ?_)
  rintro (e | dest) f₁ s₁ ⟨rfl,hend₁⟩
  · exact ⟨rfl,by rw [hend₁.1]; decide,hend₁.2⟩
  · obtain ⟨hsame₁,word₁,hdata₁,rfl⟩ := hend₁
    refine Framed.after_bind.mpr ((after_popU64 f₁ s₁).mono ?_)
    rintro (e | src) f₂ s₂ ⟨rfl,hend₂⟩
    · exact ⟨rfl,by rw [hdata₁, hend₂.1]; simp,hend₂.2⟩
    · obtain ⟨hsame₂,word₂,hdata₂,rfl⟩ := hend₂
      refine Framed.after_bind.mpr ((after_popU64 f₂ s₂).mono ?_)
      rintro (e | size) f₃ s₃ ⟨rfl,hend₃⟩
      · exact ⟨rfl,by rw [hdata₁, hdata₂, hend₃.1]; simp,hend₃.2⟩
      · obtain ⟨hsame₃,word₃,hdata₃,rfl⟩ := hend₃
        exact ⟨rfl,(hsame₁.trans hsame₂).trans hsame₃,word₁,word₂,word₃,by rw [hdata₁, hdata₂, hdata₃]; rfl,rfl⟩

/-- A price is taken from the gas or the frame stops. -/
theorem after_consumeGas (amount : UInt64) (f : EVMInterpreter) (s : σ) :
    Framed.After h (consumeGas amount) f s (fun r f₁ s₁ => s₁ = s ∧ f₁.ctx = f.ctx ∧ f₁.code = f.code ∧
      f₁.memory = f.memory ∧ match r with
        | .ok _ => amount.toNat + f₁.gasRemaining.toNat = f.gasRemaining.toNat
        | .error e => f.gasRemaining.toNat < amount.toNat ∧ e ≠ .panicked) := by
  refine Framed.after_get_bind.mpr (Framed.after_ite.mpr ?_)
  split
  · rename_i hless
    exact ⟨rfl,rfl,rfl,rfl,UInt64.lt_iff_toNat_lt.mp hless,by rintro ⟨⟩⟩
  · rename_i henough
    refine ⟨rfl,rfl,rfl,rfl,?_⟩
    have hle : amount.toNat ≤ f.gasRemaining.toNat := UInt64.le_iff_toNat_le.mp (UInt64.not_lt.mp henough)
    have hleft : (f.gasRemaining - amount).toNat = f.gasRemaining.toNat - amount.toNat := toNat_sub_of_le henough
    change amount.toNat + (f.gasRemaining - amount).toNat = f.gasRemaining.toNat
    omega

/-- The frame has the gas for a copy, beside `price`. -/
def EVMInterpreter.Affords (f : EVMInterpreter) (price : ℕ) (args : CopyArgs) : Prop :=
  ∃ expandGas memory, f.memory.ensure args.dest args.size = .ok (expandGas,memory) ∧
    price + expandGas.toNat + (copyCost args.size).toNat ≤ f.gasRemaining.toNat

/-- An expansion is paid, or the window or the gas is too far off. -/
def Expanded (offset size : UInt64) (f : EVMInterpreter) (s : σ) (r : Except EvmFault Unit) (f₁ : EVMInterpreter)
    (s₁ : σ) : Prop :=
  s₁ = s ∧ f₁.ctx = f.ctx ∧ f₁.code = f.code ∧ match r with
    | .ok _ => ∃ expandGas memory, f.memory.ensure offset size = .ok (expandGas,memory) ∧
      expandGas.toNat + f₁.gasRemaining.toNat = f.gasRemaining.toNat
    | .error e => (∀ expandGas memory, f.memory.ensure offset size = .ok (expandGas,memory) →
      f.gasRemaining.toNat < expandGas.toNat) ∧ e ≠ .panicked

theorem after_expand (offset size : UInt64) (f : EVMInterpreter) (s : σ) :
    Framed.After h (expand offset size) f s (Expanded offset size f s) := by
  refine Framed.after_get_bind.mpr ?_
  rcases hensure : f.memory.ensure offset size with e | ⟨expandGas,memory⟩
  · exact ⟨rfl,rfl,rfl,fun _ _ hok => (by rw [hensure] at hok; cases hok),by rintro ⟨⟩⟩
  · have hpaid : Framed.After h (consumeGas expandGas) { f with memory := memory } s (Expanded offset size f s) := by
      refine (after_consumeGas expandGas _ s).mono ?_
      rintro (e | ⟨⟩) f₁ s₁ ⟨rfl,hctx,hcode,-,hend⟩
      · refine ⟨rfl,hctx,hcode,fun _ _ hok => ?_,hend.2⟩
        rw [hensure] at hok
        cases hok
        exact hend.1
      · exact ⟨rfl,hctx,hcode,expandGas,memory,hensure,hend⟩
    exact hpaid

theorem after_chargeCopy (args : CopyArgs) (f : EVMInterpreter) (s : σ) :
    Framed.After h (chargeCopy args) f s (fun r f₁ s₁ => s₁ = s ∧ f₁.ctx = f.ctx ∧ f₁.code = f.code ∧ match r with
      | .ok _ => f.Affords 0 args
      | .error e => ¬ f.Affords 0 args ∧ e ≠ .panicked) := by
  refine Framed.after_bind.mpr ((after_expand args.dest args.size f s).mono ?_)
  rintro (e | ⟨⟩) f₁ s₁ ⟨rfl,hctx,hcode,hend⟩
  · refine ⟨rfl,hctx,hcode,?_,hend.2⟩
    rintro ⟨expandGas,memory,hensure,hle⟩
    have hless := hend.1 expandGas memory hensure
    omega
  · obtain ⟨expandGas,memory,hensure,hgas⟩ := hend
    refine (after_consumeGas (copyCost args.size) f₁ s₁).mono ?_
    rintro (e | ⟨⟩) f₂ s₂ ⟨rfl,hctx',hcode',-,hend'⟩
    · refine ⟨rfl,hctx'.trans hctx,hcode'.trans hcode,?_,hend'.2⟩
      rintro ⟨expandGas',memory',hensure',hle⟩
      rw [hensure] at hensure'
      cases hensure'
      have hless := hend'.1
      omega
    · exact ⟨rfl,hctx'.trans hctx,hcode'.trans hcode,expandGas,memory,hensure,by omega⟩

def EVMInterpreter.coldPrice (f : EVMInterpreter) (addr : Address) : ℕ :=
  if addr ∈ f.warmAddresses then 0 else gasColdAccountAccess.toNat

theorem after_touchAddress (addr : Address) (f : EVMInterpreter) (s : σ) :
    Framed.After h (touchAddress addr) f s (fun r f₁ s₁ => s₁ = s ∧ f₁.ctx = f.ctx ∧ f₁.code = f.code ∧
      f₁.memory = f.memory ∧ match r with
        | .ok _ => f.coldPrice addr + f₁.gasRemaining.toNat = f.gasRemaining.toNat
        | .error e => f.gasRemaining.toNat < f.coldPrice addr ∧ e ≠ .panicked) := by
  unfold EVMInterpreter.coldPrice
  refine Framed.after_get_bind.mpr (Framed.after_ite.mpr ?_)
  split
  · exact ⟨rfl,rfl,rfl,rfl,Nat.zero_add _⟩
  · refine Framed.after_bind.mpr ((after_consumeGas gasColdAccountAccess f s).mono ?_)
    rintro (e | ⟨⟩) f₁ s₁ ⟨rfl,hctx,hcode,hmemory,hend⟩
    · exact ⟨rfl,hctx,hcode,hmemory,hend⟩
    · exact ⟨rfl,hctx,hcode,hmemory,hend⟩

/-- Gas that is spent moves over to the price. -/
theorem affords_iff {f₁ : EVMInterpreter} {price price' : ℕ} (hmemory : f₁.memory = f.memory)
    (hgas : price + f₁.gasRemaining.toNat = f.gasRemaining.toNat) (args : CopyArgs) :
    f₁.Affords price' args ↔ f.Affords (price + price') args := by
  unfold EVMInterpreter.Affords
  rw [hmemory]
  refine exists_congr fun expandGas => exists_congr fun memory => and_congr_right fun _ => ?_
  omega

/-- The words of a copy on the stack, below `above`, whose charges are paid beside `price`. -/
def Copying (f : EVMInterpreter) (price : ℕ) (above : List Word) (args : CopyArgs) : Prop :=
  ∃ dest src size rest, f.stack.data = above ++ dest :: src :: size :: rest ∧ args = .ofWords dest src size ∧
    f.Affords price args

theorem copying_length {price : ℕ} {above : List Word} {args : CopyArgs} (hcopying : Copying f price above args) :
    above.length + 3 ≤ f.stack.data.length := by
  obtain ⟨dest,src,size,rest,hdata,-,-⟩ := hcopying
  rw [hdata]
  simp

theorem after_copyOperands (f : EVMInterpreter) (s : σ) : Framed.After h copyOperands f s (fun r f₁ s₁ => s₁ = s ∧
    match r with
      | .ok args => f₁.ctx = f.ctx ∧ f₁.code = f.code ∧ Copying f 0 [] args
      | .error e => (∀ args, ¬ Copying f 0 [] args) ∧ e ≠ .panicked) := by
  refine Framed.after_bind.mpr ((after_popCopy f s).mono ?_)
  rintro (e | args) f₁ s₁ ⟨rfl,hend⟩
  · refine ⟨rfl,fun args hcopying => ?_,hend.2⟩
    have hlen := copying_length hcopying
    rw [List.length_nil] at hlen
    omega
  · obtain ⟨hsame,dest,src,size,hdata,rfl⟩ := hend
    have hgas : 0 + f₁.gasRemaining.toNat = f.gasRemaining.toNat := by rw [hsame.gas, Nat.zero_add]
    refine Framed.after_bind.mpr ((after_chargeCopy (.ofWords dest src size) f₁ s₁).mono ?_)
    rintro (e | ⟨⟩) f₂ s₂ ⟨rfl,hctx,hcode,hend⟩
    · refine ⟨rfl,?_,hend.2⟩
      rintro args ⟨dest',src',size',rest,hdata',rfl,hafford⟩
      rw [hdata] at hdata'
      cases hdata'
      exact hend.1 ((affords_iff hsame.memory hgas _).mpr hafford)
    · exact ⟨rfl,hctx.trans hsame.ctx,hcode.trans hsame.code,dest,src,size,_,hdata,rfl,
        (affords_iff hsame.memory hgas _).mp hend⟩

theorem after_extCodeCopyOperands (f : EVMInterpreter) (s : σ) : Framed.After h extCodeCopyOperands f s
    (fun r _ s₁ => s₁ = s ∧ match r with
      | .ok r => ∃ word, r.1 = word.setWidth 160 ∧ Copying f (f.coldPrice r.1) [word] r.2
      | .error e => (∀ (word : Word) args, ¬ Copying f (f.coldPrice (word.setWidth 160)) [word] args) ∧ e ≠ .panicked) := by
  refine Framed.after_bind.mpr ((after_popAddress f s).mono ?_)
  rintro (e | addr) f₁ s₁ ⟨rfl,hend⟩
  · refine ⟨rfl,fun word args hcopying => ?_,hend.2⟩
    have hlen := copying_length hcopying
    rw [hend.1] at hlen
    exact absurd hlen (by simp)
  · obtain ⟨hsame₁,word,hdata₁,rfl⟩ := hend
    refine Framed.after_bind.mpr ((after_popCopy f₁ s₁).mono ?_)
    rintro (e | args) f₂ s₂ ⟨rfl,hend⟩
    · refine ⟨rfl,fun word' args hcopying => ?_,hend.2⟩
      have hlen := copying_length hcopying
      rw [hdata₁] at hlen
      simp at hlen
      omega
    · obtain ⟨hsame₂,dest,src,size,hdata₂,rfl⟩ := hend
      have hsame := hsame₁.trans hsame₂
      have hdata : f.stack.data = [word] ++ dest :: src :: size :: f₂.stack.data := by rw [hdata₁, hdata₂]; rfl
      have hcold : f₂.coldPrice (word.setWidth 160) = f.coldPrice (word.setWidth 160) := by
        rw [EVMInterpreter.coldPrice, hsame.warm, EVMInterpreter.coldPrice]
      have hgas : 0 + f₂.gasRemaining.toNat = f.gasRemaining.toNat := by rw [hsame.gas, Nat.zero_add]
      -- an operand list has one reading
      have hread : ∀ {word' args}, Copying f (f.coldPrice (word'.setWidth 160)) [word'] args →
          word' = word ∧ args = .ofWords dest src size ∧ f.Affords (f.coldPrice (word.setWidth 160)) args := by
        rintro word' args ⟨dest',src',size',rest,hdata',rfl,hafford⟩
        rw [hdata] at hdata'
        cases hdata'
        exact ⟨rfl,rfl,hafford⟩
      refine Framed.after_bind.mpr ((after_touchAddress (word.setWidth 160) f₂ s₂).mono ?_)
      rintro (e | ⟨⟩) f₃ s₃ ⟨rfl,-,-,hmemory,htouched⟩
      · refine ⟨rfl,fun word' args hcopying => ?_,htouched.2⟩
        obtain ⟨rfl,rfl,expandGas,memory,-,hle⟩ := hread hcopying
        have hless := htouched.1
        omega
      · have hafford : ∀ args, f₃.Affords 0 args ↔ f.Affords (f.coldPrice (word.setWidth 160)) args := by
          intro args
          rw [affords_iff hmemory htouched, affords_iff hsame.memory hgas, hcold, Nat.zero_add, Nat.add_zero]
        refine Framed.after_bind.mpr ((after_chargeCopy (.ofWords dest src size) f₃ s₃).mono ?_)
        rintro (e | ⟨⟩) f₄ s₄ ⟨rfl,-,-,hend⟩
        · refine ⟨rfl,fun word' args hcopying => ?_,hend.2⟩
          obtain ⟨rfl,rfl,hpaid⟩ := hread hcopying
          exact hend.1 ((hafford _).mpr hpaid)
        · exact ⟨rfl,word,rfl,dest,src,size,_,hdata,rfl,(hafford _).mp hend⟩

theorem copying_unique {price price' : ℕ} {above above' : List Word} {args args' : CopyArgs}
    (hcopying : Copying f price above args) (hcopying' : Copying f price' above' args')
    (hlen : above.length = above'.length) : above = above' ∧ args = args' := by
  obtain ⟨dest,src,size,rest,hdata,rfl,-⟩ := hcopying
  obtain ⟨dest',src',size',rest',hdata',rfl,-⟩ := hcopying'
  obtain ⟨rfl,hwords⟩ := List.append_inj (hdata.symm.trans hdata') hlen
  cases hwords
  exact ⟨rfl,rfl⟩

end Operands

section Copies
variable {σ : Type} {h : Host σ} {P : Platform} {Z : Precompiles} {f : EVMInterpreter} {s : σ}

/-- A copy of something is paid for, and starts behind the end of its source. -/
def CopiesPast (f : EVMInterpreter) (price : ℕ) (above : List Word) (data : List UInt8) : Prop :=
  ∃ args, Copying f price above args ∧ 0 < args.size ∧ data.length < args.src.toNat

/-- The frame is at a copy from behind the end of its calldata, its code or the code of an
account. -/
def PastEnd (h : Host σ) (f : EVMInterpreter) (s : σ) : Prop :=
  match f.opcode with
  | some .CALLDATACOPY => CopiesPast f Opcode.CALLDATACOPY.staticGas.toNat [] f.ctx.calldata
  | some .CODECOPY => CopiesPast f Opcode.CODECOPY.staticGas.toNat [] f.code
  | some .EXTCODECOPY => ∃ word : Word,
    CopiesPast f (Opcode.EXTCODECOPY.staticGas.toNat + f.coldPrice (word.setWidth 160)) [word]
      (h (.code (word.setWidth 160)) s).1
  | _ => False

theorem copiesPast_iff {args : CopyArgs} {data : List UInt8} {price : ℕ} {above : List Word}
    (hcopying : Copying f price above args) :
    CopiesPast f price above data ↔ 0 < args.size ∧ data.length < args.src.toNat := by
  constructor
  · rintro ⟨args',hcopying',hpast⟩
    rwa [(copying_unique hcopying hcopying' rfl).2]
  · exact fun hpast => ⟨args,hcopying,hpast⟩

/-- With its window paid, a copy panics exactly if it starts behind the end of its source. -/
theorem after_copy {args : CopyArgs} (data : List UInt8) {price : ℕ} {above : List Word} {f₁ : EVMInterpreter}
    (hcopying : Copying f price above args) (hsize : 0 < args.size)
    (hroom : f₁.memory.Valid ∧ f₁.memory.Holds args.dest args.size) (s : σ) :
    Framed.After h (copyBytes data args) f₁ s (fun r _ _ => r = .error .panicked ↔ CopiesPast f price above data) := by
  refine (after_copyBytes (W := Eq) s hroom).mono fun r f' s' hend => hend.2.1.trans ?_
  rw [copiesPast_iff hcopying]
  exact (and_iff_right hsize).symm

theorem after_copyFrom (source : EVMInterpreter → List UInt8)
    (hsource : ∀ f f₁ : EVMInterpreter, f₁.ctx = f.ctx → f₁.code = f.code → source f₁ = source f) (hf : f.memory.Valid)
    (s : σ) : Framed.After h (copyFrom source) f s (fun r _ _ => r = .error .panicked ↔ CopiesPast f 0 [] (source f)) := by
  refine Framed.after_bind.mpr (((after_copyOperands f s).and (leads_copyOperands (W := Eq) f s hf)).mono ?_)
  rintro (e | args) f₁ s₁ ⟨⟨rfl,hend⟩,-,hroom⟩
  · refine iff_of_false (fun he => hend.2 (Except.error.inj he)) ?_
    rintro ⟨args,hcopying,-,-⟩
    exact hend.1 args hcopying
  · obtain ⟨hctx,hcode,hcopying⟩ := hend
    refine Framed.after_ite.mpr ?_
    split
    · rename_i hsize
      have hcopy := after_copy (h := h) (source f₁) hcopying hsize hroom s₁
      rw [hsource f f₁ hctx hcode] at hcopy
      refine Framed.after_get_bind.mpr ?_
      rwa [hsource f f₁ hctx hcode]
    · rename_i hsize
      exact iff_of_false (by rintro ⟨⟩) fun hpast => hsize ((copiesPast_iff hcopying).mp hpast).1

theorem after_extCodeCopy (hf : f.memory.Valid) (s : σ) : Framed.After h extCodeCopy f s
    (fun r _ _ => r = .error .panicked ↔ ∃ word : Word,
      CopiesPast f (f.coldPrice (word.setWidth 160)) [word] (h (.code (word.setWidth 160)) s).1) := by
  refine Framed.after_bind.mpr (((after_extCodeCopyOperands f s).and
    (leads_extCodeCopyOperands (W := Eq) f s hf)).mono ?_)
  rintro (e | ⟨addr,args⟩) f₁ s₁ ⟨⟨rfl,hend⟩,-,hroom⟩
  · refine iff_of_false (fun he => hend.2 (Except.error.inj he)) ?_
    rintro ⟨word,args,hcopying,-,-⟩
    exact hend.1 word args hcopying
  · obtain ⟨word,rfl,hcopying⟩ := hend
    -- the address is read off the same word as the operands
    have hword : (∃ word' : Word, CopiesPast f (f.coldPrice (word'.setWidth 160)) [word'] (h (.code (word'.setWidth 160)) s₁).1) ↔
        CopiesPast f (f.coldPrice (word.setWidth 160)) [word] (h (.code (word.setWidth 160)) s₁).1 := by
      constructor
      · rintro ⟨word',args',hcopying',hpast⟩
        cases (copying_unique hcopying hcopying' rfl).1
        exact ⟨args',hcopying',hpast⟩
      · exact fun hpast => ⟨word,hpast⟩
    refine Framed.after_ite.mpr ?_
    split
    · rename_i hsize
      refine Framed.after_call_bind.mpr ((after_copy _ hcopying hsize hroom _).mono fun _ _ _ hpast => hpast.trans hword.symm)
    · rename_i hsize
      exact iff_of_false (by rintro ⟨⟩) fun hpast => hsize ((copiesPast_iff hcopying).mp (hword.mp hpast)).1

theorem copiesPast_paid {price : ℕ} {paid : UInt64} (henough : paid ≤ f.gasRemaining) (above : List Word) (data : List UInt8) :
    CopiesPast { f with gasRemaining := f.gasRemaining - paid } price above data ↔
      CopiesPast f (paid.toNat + price) above data := by
  have hle : paid.toNat ≤ f.gasRemaining.toNat := UInt64.le_iff_toNat_le.mp henough
  have hpaid := toNat_paid henough
  have hgas : paid.toNat + (f.gasRemaining - paid).toNat = f.gasRemaining.toNat := by omega
  unfold CopiesPast Copying
  refine exists_congr fun args => and_congr_left fun _ => exists_congr fun dest => exists_congr fun src =>
    exists_congr fun size => exists_congr fun rest => and_congr_right fun _ => and_congr_right fun _ => ?_
  have hmemory : ({ f with gasRemaining := f.gasRemaining - paid } : EVMInterpreter).memory = f.memory := rfl
  exact affords_iff hmemory hgas args

theorem le_of_copiesPast {price : ℕ} {above : List Word} {data : List UInt8} (hpast : CopiesPast f price above data) :
    price ≤ f.gasRemaining.toNat := by
  obtain ⟨args,⟨dest,src,size,rest,-,-,expandGas,memory,-,hle⟩,-⟩ := hpast
  omega

end Copies

section Arithmetic
variable {σ : Type} {h : Host σ} {f : EVMInterpreter} {s : σ}

/-- What is worked out of a window that memory has room for: its end, its words, and the
prices of a copy, a hash, an init code and a log of four topics. -/
def windowSums (offset size : UInt64) : List ℕ :=
  let words := (size.toNat + 31) / 32
  [size.toNat + 31,3 * words,6 * words,30 + 6 * words,2 * words,8 * size.toNat,375 + 8 * size.toNat + 375 * 4] ++
    if size = 0 then [] else [offset.toNat + size.toNat,offset.toNat + size.toNat + 31]

theorem ensure_room {m m' : Memory} {offset size cost : UInt64} (hensure : m.ensure offset size = .ok (cost,m')) :
    size = 0 ∨ offset.toNat + size.toNat ≤ maxMemory := by
  unfold Memory.ensure at hensure
  split at hensure
  · rename_i hzero
    exact Or.inl hzero
  · dsimp only at hensure
    split at hensure
    · cases hensure
    · exact Or.inr (by omega)

theorem windowSums_lt {m m' : Memory} {offset size cost : UInt64} (hensure : m.ensure offset size = .ok (cost,m')) :
    ∀ n ∈ windowSums offset size, n < 2 ^ 64 := by
  have hmax : maxMemory = 2 ^ 25 := rfl
  intro n hn
  rcases ensure_room hensure with rfl | hroom
  · have hzero : (0 : UInt64).toNat = 0 := rfl
    simp only [windowSums, if_true, List.append_nil, List.mem_cons, List.not_mem_nil, or_false] at hn
    omega
  · have hmem : n ∈ [size.toNat + 31,3 * ((size.toNat + 31) / 32),6 * ((size.toNat + 31) / 32),
        30 + 6 * ((size.toNat + 31) / 32),2 * ((size.toNat + 31) / 32),8 * size.toNat,
        375 + 8 * size.toNat + 375 * 4,offset.toNat + size.toNat,offset.toNat + size.toNat + 31] := by
      unfold windowSums at hn
      split at hn
      · exact List.mem_append_left [_,_] hn
      · exact hn
    simp only [List.mem_cons, List.not_mem_nil, or_false] at hmem
    omega

/-- `do_call` up to its snapshot, and what is behind it: `none` past the depth limit. -/
def preparedCall (kind : CallKind) : EvmM (CallArgs × Option (Forward × List UInt8)) := do
  let args ← popCall kind
  let calldata ← chargeCall kind args
  let f ← get
  if callDepthLimit ≤ f.frames.length then pure (args,none)
  else do
    let billed := forwardGas f.gasRemaining args.gasReq
    let forwarded := saturatingAdd64 billed (if args.transfers kind then gasCallStipend else 0)
    consumeGas billed
    let snapshot ← host .snapshot
    pure (args,some (⟨snapshot,billed,forwarded⟩,calldata))

/-- A call is its preparation and the rest. -/
theorem after_beginCall_iff (Z : Precompiles) (kind : CallKind) {Q : Except EvmFault (Option SubFrame) → EVMInterpreter → σ → Prop} :
    Framed.After h (beginCall Z kind) f s Q ↔ Framed.After h (do
      let (args,prepared) ← preparedCall kind
      match prepared with
      | none => pushZeroWithRet args
      | some (fw,calldata) => openCall Z kind args fw calldata) f s Q := by
  unfold beginCall preparedCall
  simp only [Framed.after_bind, Framed.after_ite]
  exact Iff.rfl

/-- The precompile that a call comes to, with its input and gas. -/
def calledPrecompile (kind : CallKind) : EvmM (Option (Address × List UInt8 × UInt64)) := do
  let (args,prepared) ← preparedCall kind
  match prepared with
  | none => pure none
  | some (fw,calldata) => do
    let paid ← payTarget kind args
    pure (if paid ∧ isPrecompile args.target then some (args.target,calldata,fw.forwarded) else none)

/-- The frame is at a call that comes to a precompile. -/
def CallsPrecompile (h : Host σ) (f : EVMInterpreter) (s : σ) (target : Address) (input : List UInt8) (gas : UInt64) : Prop :=
  ∃ op kind f₁ s₁, f.opcode = some op ∧ op.frameKind = some (.call kind) ∧ op.staticGas ≤ f.gasRemaining ∧
    (calledPrecompile kind { f with gasRemaining := f.gasRemaining - op.staticGas }).run h s =
      ((.ok (some (target,input,gas)),f₁),s₁)

theorem Memory.length_of_read {m : Memory} {offset size : UInt64} {out : List UInt8} (hread : m.read offset size = some out) :
    out.length = size.toNat := by
  have hresized : ∀ {xs ys : List UInt8}, xs.length ≤ size.toNat → resized xs size = some ys → ys.length = size.toNat := by
    intro xs ys hle hys
    unfold resized at hys
    split at hys
    · cases hys
    · cases hys
      rw [List.length_append, List.length_replicate]
      omega
  unfold Memory.read at hread
  split at hread
  · exact hresized (Nat.zero_le _) hread
  · obtain ⟨bytes,hslice,hout⟩ := Option.bind_eq_some_iff.mp hread
    obtain ⟨hle,-,hlen⟩ := Zvm.slice_some hslice
    have hsum : (offset + size).toNat ≤ offset.toNat + size.toNat := by
      rw [UInt64.toNat_add]
      exact Nat.mod_le _ _
    refine hresized ?_ hout
    rw [toNat_min64] at hlen
    omega

theorem yields_readMemory (offset size : UInt64) (f : EVMInterpreter) (s : σ) :
    Framed.Yields h (readMemory offset size) f s (fun data _ _ => data.length = size.toNat) := by
  intro data hdata
  change ((orPanic (f.memory.read offset size) f).run h s).1.1 = _ at hdata
  rcases hread : f.memory.read offset size with _ | bytes
  · rw [hread] at hdata
    cases hdata
  · rw [hread] at hdata
    cases hdata
    exact Memory.length_of_read hread

theorem yields_chargeCall (kind : CallKind) (args : CallArgs) (f : EVMInterpreter) (s : σ) :
    Framed.Yields h (chargeCall kind args) f s (fun calldata _ _ => calldata.length ≤ maxMemory) := by
  unfold chargeCall
  simp only [Framed.yields_bind, Framed.yields_pure]
  refine (after_expand args.argsOff args.argsLen f s).mono ?_
  rintro (e | ⟨⟩) f₁ s₁ ⟨-,-,-,hend⟩ ⟨⟩ ⟨⟩
  obtain ⟨expandGas,memory,hensure,-⟩ := hend
  have hsize : args.argsLen.toNat ≤ maxMemory := by
    rcases ensure_room hensure with hzero | hroom
    · rw [hzero]
      exact Nat.zero_le _
    · omega
  refine (yields_readMemory args.argsOff args.argsLen f₁ s₁).mono fun calldata _ _ hlen => ?_
  exact Framed.yields_of_forall fun _ _ _ => Framed.yields_of_forall fun _ _ _ => hlen.trans_le hsize

theorem yields_calledPrecompile (kind : CallKind) (f : EVMInterpreter) (s : σ) :
    Framed.Yields h (calledPrecompile kind) f s
      (fun called _ _ => ∀ target input gas, called = some (target,input,gas) → input.length ≤ maxMemory) := by
  unfold calledPrecompile preparedCall
  simp only [Framed.yields_bind]
  refine Framed.yields_of_forall fun args f₁ s₁ => (yields_chargeCall kind args f₁ s₁).mono fun calldata f₂ s₂ hlen => ?_
  refine Framed.yields_of_forall fun f₃ f₄ s₄ => ?_
  split
  · rw [Framed.yields_pure, Framed.yields_pure]
    rintro _ _ _ ⟨⟩
  · simp only [Framed.yields_bind, Framed.yields_pure]
    refine Framed.yields_of_forall fun _ _ _ => Framed.yields_of_forall fun _ _ _ => Framed.yields_of_forall fun paid _ _ => ?_
    intro target input gas hcalled
    split at hcalled
    · cases hcalled
      exact hlen
    · cases hcalled

theorem CallsPrecompile.length_le {target : Address} {input : List UInt8} {gas : UInt64}
    (hcalls : CallsPrecompile h f s target input gas) : input.length ≤ maxMemory := by
  obtain ⟨op,kind,f₁,s₁,-,-,-,hcalled⟩ := hcalls
  have hyields := yields_calledPrecompile (h := h) kind { f with gasRemaining := f.gasRemaining - op.staticGas } s
  unfold Framed.Yields Framed.After at hyields
  rw [hcalled] at hyields
  exact hyields _ rfl target input gas rfl

/-- What an opcode works out in machine words does not leave them: over a window of its memory,
over the bytes that it copies, over the code that it deploys and in the precompile it calls. -/
structure InRange (h : Host σ) (f : EVMInterpreter) (s : σ) : Prop where
  window : ∀ offset size cost memory, f.memory.ensure offset size = .ok (cost,memory) →
    ∀ n ∈ windowSums offset size, n < 2 ^ 64
  slice : ∀ (data : List UInt8) (src size : UInt64),
    src.toNat + min (data.length - src.toNat) size.toNat ≤ max src.toNat data.length
  deposit : ∀ code : List UInt8, code.length ≤ maxContractCodeSize →
    gasCodeDepositPerByte.toNat * code.length < 2 ^ 64
  precompile : ∀ target input gas, CallsPrecompile h f s target input gas → PrecompileInRange target input gas

/-- The frame is at a call of a precompile that leaves its types. -/
def CallsOverrun (h : Host σ) (f : EVMInterpreter) (s : σ) : Prop :=
  ∃ target input gas, CallsPrecompile h f s target input gas ∧ Overruns target input gas

theorem inRange_iff : InRange h f s ↔ ¬ CallsOverrun h f s := by
  constructor
  · rintro hin ⟨target,input,gas,hcalls,hoverruns⟩
    exact (precompileInRange_iff hcalls.length_le).mp (hin.precompile target input gas hcalls) hoverruns
  · intro hnot
    refine ⟨fun _ _ _ _ hensure => windowSums_lt hensure,fun data src size => by omega,fun code hcode => ?_,?_⟩
    · have hprice : gasCodeDepositPerByte.toNat = 200 := rfl
      unfold maxContractCodeSize at hcode
      rw [hprice]
      omega
    · exact fun target input gas hcalls => (precompileInRange_iff hcalls.length_le).mpr fun hoverruns =>
        hnot ⟨target,input,gas,hcalls,hoverruns⟩

end Arithmetic

section Rounds
variable {σ : Type} {h : Host σ} {P : Platform} {Z : Precompiles} {f f' : EVMInterpreter} {s s' : σ}

theorem step_of_opcode {op : Opcode} (hopcode : f.opcode = some op) (henough : op.staticGas ≤ f.gasRemaining) :
    step P Z f = perform P Z op { f with gasRemaining := f.gasRemaining - op.staticGas } := by
  obtain ⟨byte,hbyte,hop⟩ := Option.bind_eq_some_iff.mp hopcode
  unfold step
  rw [hbyte]
  dsimp only
  rw [hop]
  exact if_neg (UInt64.not_lt.mpr henough)

theorem perform_panics_iff {op : Opcode} {p : EvmM Unit} (hkind : op.frameKind = none) (hp : execute P op = some p)
    {f : EVMInterpreter} {past : Prop}
    (hpast : Framed.After h p f s (fun r _ _ => r = .error .panicked ↔ past)) :
    (perform P Z op f).Gives h s (fun o _ => o = .panicked ↔ past) := by
  have hrun : Framed.After h (dispatch P op) f s (fun r _ _ => r = .error .panicked ↔ past) := by
    unfold dispatch
    rw [hp]
    refine Framed.after_bind.mpr (hpast.mono ?_)
    rintro (e | ⟨⟩) f₁ s₁ hend
    · refine Iff.trans ⟨fun he => ?_,fun he => ?_⟩ hend
      · cases he
        rfl
      · cases he
        rfl
    · exact iff_of_false (by rintro ⟨⟩) fun htrue => absurd (hend.mpr htrue) (by rintro ⟨⟩)
  unfold perform
  rw [hkind]
  refine after_outcome hrun ?_
  rintro ((_ | _) | flow) f₁ s₁ hend
  · exact iff_of_false (by rintro ⟨⟩) fun htrue => absurd (hend.mpr htrue) (by rintro ⟨⟩)
  · exact iff_of_true rfl (hend.mp rfl)
  · refine iff_of_false ?_ fun htrue => absurd (hend.mpr htrue) (by rintro ⟨⟩)
    cases flow with
    | goOn | jumped | exit status => rintro ⟨⟩

theorem eq_of_copies {op : Opcode} (hcopies : op.copies = true) :
    op = .CALLDATACOPY ∨ op = .CODECOPY ∨ op = .EXTCODECOPY := by
  cases op with
  | CALLDATACOPY | CODECOPY | EXTCODECOPY => simp
  | _ => cases hcopies

theorem step_panics_iff (hf : f.memory.Valid) (s : σ) : ((step P Z f).run h s).1 = .panicked ↔ PastEnd h f s := by
  by_cases hcopies : ∃ op, f.opcode = some op ∧ op.copies = true ∧ op.staticGas ≤ f.gasRemaining
  · obtain ⟨op,hopcode,hcopies,henough⟩ := hcopies
    rw [step_of_opcode hopcode henough]
    unfold PastEnd
    rw [hopcode]
    generalize hf₀ : ({ f with gasRemaining := f.gasRemaining - op.staticGas } : EVMInterpreter) = f₀
    have hmemory : f₀.memory.Valid := hf₀ ▸ hf
    have hpaid : ∀ price above data, CopiesPast f₀ price above data ↔ CopiesPast f (op.staticGas.toNat + price) above data :=
      fun price above data => hf₀ ▸ copiesPast_paid henough above data
    rcases eq_of_copies hcopies with rfl | rfl | rfl
    · have hcopy := after_copyFrom (h := h) (f := f₀) (fun f => f.ctx.calldata)
        (fun _ _ hctx _ => congrArg EVMContext.calldata hctx) hmemory s
      rw [hpaid, ← hf₀] at hcopy
      exact hf₀ ▸ perform_panics_iff rfl rfl hcopy
    · have hcopy := after_copyFrom (h := h) (f := f₀) (fun f => f.code) (fun _ _ _ hcode => hcode) hmemory s
      rw [hpaid, ← hf₀] at hcopy
      exact hf₀ ▸ perform_panics_iff rfl rfl hcopy
    · have hcopy := after_extCodeCopy (h := h) (f := f₀) hmemory s
      simp only [hpaid] at hcopy
      rw [← hf₀] at hcopy
      exact hf₀ ▸ perform_panics_iff rfl rfl hcopy
  · refine iff_of_false (fun hpanics => hcopies ?_) fun hpast => hcopies ?_
    · have hspec := step_spec (P := P) (Z := Z) (c := False) (Journalled.free h) hf False.elim s
      unfold Program.Gives at hspec
      rw [hpanics] at hspec
      exact hspec
    · unfold PastEnd at hpast
      split at hpast
      · rename_i hopcode
        exact ⟨_,hopcode,rfl,UInt64.le_iff_toNat_le.mpr (le_of_copiesPast hpast)⟩
      · rename_i hopcode
        exact ⟨_,hopcode,rfl,UInt64.le_iff_toNat_le.mpr (le_of_copiesPast hpast)⟩
      · rename_i hopcode
        obtain ⟨word,hpast⟩ := hpast
        exact ⟨_,hopcode,rfl,UInt64.le_iff_toNat_le.mpr ((Nat.le_add_right _ _).trans (le_of_copiesPast hpast))⟩
      · exact hpast.elim

theorem resume_not_panicked {c : Prop} {f₁ child : EVMInterpreter} {sub : SubFrame} {s₁ : σ}
    (hbegins : Begins (.free h.snapshots) c f s f₁ sub s₁) (status : ExitStatus) (s₂ : σ) :
    ((resume f₁ sub status child).run h s₂).1 ≠ .panicked := by
  obtain ⟨kind,paid,-,-,-,henters⟩ := hbegins
  have hopened : (Journal.free h.snapshots).opened sub.snapshot s s₁ := trivial
  have hbroken : (Journal.free h.snapshots).broken s₁ s₂ := trivial
  have hresumed : Framed.After h (resumeFrame sub status child) f₁ s₂
      (Closed (.free h.snapshots) False s sub.billed.toNat f₁) :=
    after_resumeFrame (Journalled.free h) henters.valid hopened hbroken (fun _ => trivial) False.elim
  refine after_outcome (R := fun o _ => o ≠ .panicked) hresumed ?_
  rintro (e | ⟨⟩) f₂ s₃ hclosed
  · cases e with
    | panicked => exact absurd rfl hclosed.2.1
    | error e => rintro ⟨⟩
  · rintro ⟨⟩

theorem round_panics {n : ℕ} (hf : f.memory.Valid) {s : σ}
    (hround : ((round P Z (run P Z n) f).run h s).1 = some .panicked) : PastEnd h f s ∨
      ∃ f₁ sub s₁, (step P Z f).run h s = (.enter f₁ sub,s₁) ∧ ((run P Z n sub.frame).run h s₁).1 = .panicked := by
  have hspec := step_spec (P := P) (Z := Z) (c := False) (Journalled.free h) hf False.elim s
  unfold Program.Gives at hspec
  rw [round, Program.run_bind] at hround
  rcases hstep : (step P Z f).run h s with ⟨f₁ | ⟨f₁,sub⟩ | ⟨status,f₁⟩ | _,s₁⟩
  · rw [hstep] at hround
    cases hround
  · rw [hstep] at hround hspec
    dsimp only at hround
    rw [Program.run_bind] at hround
    rcases hdone : (run P Z n sub.frame).run h s₁ with ⟨⟨status,child⟩ | _ | _,s₂⟩
    · rw [hdone] at hround
      dsimp only [comeBack] at hround
      rw [Program.run_bind] at hround
      exact absurd (Option.some.inj hround) (resume_not_panicked hspec status s₂)
    · exact Or.inr ⟨f₁,sub,s₁,rfl,by rw [hdone]⟩
    · rw [hdone] at hround
      cases hround
  · rw [hstep] at hround
    cases hround
  · exact Or.inl ((step_panics_iff (P := P) (Z := Z) hf s).mp (by rw [hstep]))

theorem reaches_of_panics {n : ℕ} (hf : f.memory.Valid) {s : σ} (hrun : ((run P Z n f).run h s).1 = .panicked) :
    ∃ f' s', Reaches P Z h f s f' s' ∧ PastEnd h f' s' := by
  induction n generalizing f s with
  | zero => cases hrun
  | succ n ih =>
    have hspec := round_free (P := P) (Z := Z) (h := h) n hf s
    unfold Program.Gives at hspec
    have hpanics : ((round P Z (run P Z n) f).run h s).1 = some .panicked →
        ∃ f' s', Reaches P Z h f s f' s' ∧ PastEnd h f' s' := by
      intro hround
      rcases round_panics hf hround with hpast | ⟨f₁,sub,s₁,hstep,hsub⟩
      · exact ⟨f,s,.here f s,hpast⟩
      · have hstepped := step_spec (P := P) (Z := Z) (c := False) (Journalled.free h) hf False.elim s
        unfold Program.Gives at hstepped
        rw [hstep] at hstepped
        obtain ⟨f',s',hreaches,hpast⟩ := ih hstepped.memory hsub
        exact ⟨f',s',.within hstep hreaches,hpast⟩
    rw [run, Program.run_bind] at hrun
    rcases hround : (round P Z (run P Z n) f).run h s with ⟨_ | f₁ | ⟨f₁,sub⟩ | ⟨status,f₁⟩ | _,s₁⟩
    · rw [hround] at hrun
      cases hrun
    · rw [hround] at hrun hspec
      obtain ⟨f',s',hreaches,hpast⟩ := ih hspec.valid hrun
      exact ⟨f',s',.next n hround hreaches,hpast⟩
    · rw [hround] at hspec
      exact hspec.elim
    · rw [hround] at hrun
      cases hrun
    · exact hpanics (by rw [hround])

/-- A run that reaches such a copy panics, once it has the fuel to come to it. -/
theorem Reaches.panics (hreaches : Reaches P Z h f s f' s') (hf : f.memory.Valid) (hpast : PastEnd h f' s') :
    ∃ n, ((run P Z n f).run h s).1 = .panicked := by
  induction hreaches with
  | here f s =>
    have hpanics := (step_panics_iff (P := P) (Z := Z) hf s).mpr hpast
    refine ⟨1,?_⟩
    rcases hstep : (step P Z f).run h s with ⟨o,s₁⟩
    rw [hstep] at hpanics
    dsimp only at hpanics
    subst hpanics
    rw [run, Program.run_bind, round, Program.run_bind, hstep]
    rfl
  | @next f f₁ f' s s₁ s' fuel hround hrest ih =>
    have hspec := round_free (P := P) (Z := Z) (h := h) fuel hf s
    unfold Program.Gives at hspec
    rw [hround] at hspec
    obtain ⟨n,hn⟩ := ih hspec.valid hpast
    refine ⟨max fuel n + 1,?_⟩
    have hagain : (round P Z (run P Z (max fuel n)) f).run h s = (some (.next f₁),s₁) := by
      rw [← hround]
      apply round_more (fun f s hends => run_more (Nat.le_max_left fuel n) hends)
      rw [hround]
      rintro ⟨⟩
    rw [run, Program.run_bind, hagain]
    dsimp only
    rw [run_more (Nat.le_max_right fuel n) (by rw [hn]; rintro ⟨⟩), hn]
  | @within f f₁ f' sub s s₁ s' hstep hrest ih =>
    have hspec := step_spec (P := P) (Z := Z) (c := False) (Journalled.free h) hf False.elim s
    unfold Program.Gives at hspec
    rw [hstep] at hspec
    obtain ⟨n,hn⟩ := ih hspec.memory hpast
    refine ⟨n + 1,?_⟩
    rw [run, Program.run_bind, round, Program.run_bind, hstep]
    dsimp only
    rw [Program.run_bind, hn]
    rfl

theorem returns_iff (P : Platform) (Z : Precompiles) (h : Host σ) (ctx : EVMContext) (code : List UInt8) (s : σ) :
    (∃ n status f s', (run P Z n (.new ctx code)).run h s = (.finished status f,s')) ↔
      ∀ f s', Reaches P Z h (.new ctx code) s f s' → ¬ PastEnd h f s' := by
  constructor
  · rintro ⟨n,status,f,s',hrun⟩ f' s'' hreaches hpast
    obtain ⟨m,hm⟩ := hreaches.panics Memory.valid_new hpast
    have hleft := run_more (P := P) (Z := Z) (h := h) (f := .new ctx code) (s := s) (Nat.le_max_left n m)
      (by rw [hrun]; rintro ⟨⟩)
    have hright := run_more (P := P) (Z := Z) (h := h) (f := .new ctx code) (s := s) (Nat.le_max_right n m)
      (by rw [hm]; rintro ⟨⟩)
    rw [← hright, hleft, hrun] at hm
    cases hm
  · intro hnone
    obtain ⟨n,hn⟩ := run_ends (P := P) (Z := Z) (h := h) (f := .new ctx code) Memory.valid_new s
    rcases hrun : (run P Z n (.new ctx code)).run h s with ⟨⟨status,f⟩ | _ | _,s'⟩
    · exact ⟨n,status,f,s',hrun⟩
    · obtain ⟨f,s'',hreaches,hpast⟩ := reaches_of_panics (n := n) (P := P) (Z := Z) (h := h)
        (f := .new ctx code) (s := s) Memory.valid_new (by rw [hrun])
      exact absurd hpast (hnone f s'' hreaches)
    · rw [hrun] at hn
      exact absurd rfl hn

/-- Under any host, a run returns and works out nothing beyond its types if and only if none of
the rounds it comes to copies from behind the end of its source or calls such a precompile. -/
theorem evm_run_returns_iff (P : Platform) (Z : Precompiles) (h : Host σ) (ctx : EVMContext) (code : List UInt8) (s : σ) :
    ((∃ n status f s', (run P Z n (.new ctx code)).run h s = (.finished status f,s')) ∧
      ∀ f s', Reaches P Z h (.new ctx code) s f s' → InRange h f s') ↔
      ∀ f s', Reaches P Z h (.new ctx code) s f s' → ¬ PastEnd h f s' ∧ ¬ CallsOverrun h f s' := by
  rw [returns_iff]
  simp only [inRange_iff]
  constructor
  · exact fun hend f s' hreaches => ⟨hend.1 f s' hreaches,hend.2 f s' hreaches⟩
  · exact fun hnone => ⟨fun f s' hreaches => (hnone f s' hreaches).1,fun f s' hreaches => (hnone f s' hreaches).2⟩

end Rounds

section PastCalldata

/-- `PUSH1 1, PUSH1 1, PUSH0, CALLDATACOPY`: a byte from offset 1. -/
def copiesPastCalldata : List UInt8 := [0x60,1,0x60,1,0x5F,0x37]

/-- Without calldata, the offset is behind its end, and the run does not return. -/
theorem run_panics_past_calldata : ¬ ∃ n status f s', (run .integers noPrecompiles n
    (.new (plainContext 100000) copiesPastCalldata)).run (MockHost.host .integers) MockHost.new = (.finished status f,s') := by
  have hpanics : (match ((run .integers noPrecompiles 4 (.new (plainContext 100000) copiesPastCalldata)).run
      (MockHost.host .integers) MockHost.new).1 with
    | .panicked => true
    | _ => false) = true := by decide +kernel
  rintro ⟨n,status,f,s',hrun⟩
  rcases hfour : (run .integers noPrecompiles 4 (.new (plainContext 100000) copiesPastCalldata)).run
    (MockHost.host .integers) MockHost.new with ⟨⟨status',f'⟩ | _ | _,s''⟩
  · rw [hfour] at hpanics
    cases hpanics
  · have hleft := run_more (Nat.le_max_left n 4) (by rw [hrun]; rintro ⟨⟩)
    have hright := run_more (Nat.le_max_right n 4) (by rw [hfour]; rintro ⟨⟩)
    rw [hrun] at hleft
    rw [hleft, hfour] at hright
    cases hright
  · rw [hfour] at hpanics
    cases hpanics

end PastCalldata

end ZbxChain.Evm
