import ZbxChain.Staking.CallEffects
import ZbxChain.Staking.PipelineRules

/-! # What the operations on the validators keep

Tombstones and the keys of the registry stay, and some fields of a validator are written only by
delegations or only by its registration.
-/
namespace ZbxChain.Staking

namespace ValidatorSet

def statusOf (vs : ValidatorSet) (addr : Address) : Option ValidatorStatus :=
  (vs.get addr).map Validator.status

def Tombstoned (vs : ValidatorSet) (addr : Address) : Prop := vs.statusOf addr = some .tombstoned

def Keyed (vs : ValidatorSet) : Prop := ∀ addr v, vs.get addr = some v → v.address = addr

/-- No tombstone is lifted on the way from one set to the other, and no validator gets under
a wrong address. -/
structure Preserves (vs vs' : ValidatorSet) : Prop where
  tombstoned : ∀ addr, vs.Tombstoned addr → vs'.Tombstoned addr
  keyed : vs.Keyed → vs'.Keyed

instance : Std.Refl Preserves := ⟨fun _ => ⟨fun _ h => h,fun h => h⟩⟩
instance : IsTrans ValidatorSet Preserves :=
  ⟨fun _ _ _ h h' => ⟨fun addr ha => h'.tombstoned addr (h.tombstoned addr ha),fun hk => h'.keyed (h.keyed hk)⟩⟩

theorem Preserves.trans {u v w : ValidatorSet} (h : u.Preserves v) (h' : v.Preserves w) : u.Preserves w :=
  trans_of Preserves h h'

theorem preserves_of_eq {vs vs' : ValidatorSet} (h : vs'.validators = vs.validators) : vs.Preserves vs' := by
  have hget : ∀ addr, vs'.get addr = vs.get addr := fun addr => by rw [get, get, h]
  constructor
  · intro addr htomb
    rwa [Tombstoned, statusOf, hget]
  · intro hkeyed addr v hv
    exact hkeyed addr v (hget addr ▸ hv)

end ValidatorSet

open Staking.ValidatorSet

structure Validator.Quiet (f : Validator → Validator) : Prop where
  address : ∀ v, (f v).address = v.address
  tombstoned : ∀ v, v.status = .tombstoned → (f v).status = .tombstoned

section Operations
variable {P : Platform} {vs : ValidatorSet} {addr : Address}

theorem get_modify (vs : ValidatorSet) (addr : Address) (f : Validator → Validator) (a : Address) :
    (vs.modify addr f).get a = if a = addr then (vs.get addr).map f else vs.get a :=
  vs.validators.lookup_modify addr f a

theorem get_foldl_iterate (f : Validator → Validator) (l : List Address) (vs : ValidatorSet) (a : Address) :
    (l.foldl (fun vs addr => vs.modify addr f) vs).get a = (vs.get a).map f^[l.count a] := by
  induction l generalizing vs with
  | nil => simp
  | cons b l ih =>
    rw [List.foldl_cons, ih, get_modify, List.count_cons]
    by_cases hb : a = b
    · subst hb
      simp [Function.iterate_succ]
    · have hne : (b == a) = false := beq_eq_false_iff_ne.mpr (Ne.symm hb)
      simp [hb, hne]

theorem preserves_modify {f : Validator → Validator} (hf : Validator.Quiet f) :
    vs.Preserves (vs.modify addr f) := by
  constructor
  · intro a ha
    rw [Tombstoned, statusOf, get_modify]
    split
    · rename_i heq
      subst heq
      obtain ⟨v,hv,hstatus⟩ := Option.map_eq_some_iff.mp ha
      rw [hv, Option.map_some, Option.map_some, hf.tombstoned v hstatus]
    · exact ha
  · intro hkeyed a v hv
    rw [get_modify] at hv
    split at hv
    · rename_i heq
      subst heq
      obtain ⟨w,hw,rfl⟩ := Option.map_eq_some_iff.mp hv
      rw [hf.address, hkeyed a w hw]
    · exact hkeyed a v hv

theorem preserves_foldl {α : Type} {f : ValidatorSet → α → ValidatorSet}
    (hf : ∀ vs a, Preserves vs (f vs a)) (l : List α) (vs : ValidatorSet) :
    vs.Preserves (l.foldl f vs) := by
  induction l generalizing vs with
  | nil => exact refl_of _ vs
  | cons a l ih => exact trans_of _ (hf vs a) (ih (f vs a))

theorem preserves_register {address : Address} {blsPubkey : BlsPubKey} {selfStake : ℕ}
    {commissionBps : UInt16} {vs' : ValidatorSet}
    (h : vs.register address blsPubkey selfStake commissionBps = .ok vs') : vs.Preserves vs' := by
  unfold register at h
  split at h
  · cases h
  · rename_i hfresh
    rw [Bool.not_eq_true, Option.isSome_eq_false_iff, Option.isNone_iff_eq_none] at hfresh
    split at h
    · cases h
    · cases h
      constructor
      · intro a ha
        have hne : a ≠ address := by
          rintro rfl
          rw [Tombstoned, statusOf, hfresh] at ha
          cases ha
        rw [Tombstoned, statusOf, ValidatorSet.get, AList.lookup_insert_ne hne]
        exact ha
      · intro hkeyed a v hv
        rcases AList.lookup_insert_some hv with ⟨rfl,rfl⟩ | ⟨-,hv⟩
        · rfl
        · exact hkeyed a v hv

theorem preserves_registerWithPop {address : Address} {blsPubkey : BlsPubKey} {blsPop : BlsSignature}
    {selfStake : ℕ} {commissionBps : UInt16} {vs' : ValidatorSet}
    (h : vs.registerWithPop P address blsPubkey blsPop selfStake commissionBps = .ok vs') :
    vs.Preserves vs' := by
  unfold registerWithPop at h
  split at h
  · cases h
  · exact preserves_register h

theorem preserves_delegate {recipient : Address} {amount : ℕ} {vs' : ValidatorSet}
    (h : vs.delegate recipient amount = .ok vs') : vs.Preserves vs' := by
  unfold delegate at h
  split at h
  · cases h
  · split at h
    all_goals cases h
    all_goals exact preserves_modify ⟨fun _ => rfl,fun _ hv => hv⟩

theorem preserves_undelegate {source : Address} {amount : ℕ} {vs' : ValidatorSet}
    (h : vs.undelegate source amount = .ok vs') : vs.Preserves vs' := by
  unfold undelegate at h
  split at h
  · cases h
  · split at h
    · cases h
    · cases h
      exact preserves_modify ⟨fun _ => rfl,fun _ hv => hv⟩

theorem preserves_claimRewards {validator : Address} {amt : ℕ} {vs' : ValidatorSet}
    (h : vs.claimRewards validator = .ok (amt,vs')) : vs.Preserves vs' := by
  unfold claimRewards at h
  split at h
  · cases h
  · cases h
    exact preserves_modify ⟨fun _ => rfl,fun _ hv => hv⟩

theorem quiet_claimDelegatorShare (v : Validator) (delegatorStake : ℕ) :
    (v.claimDelegatorShare delegatorStake).2.address = v.address ∧
      (v.claimDelegatorShare delegatorStake).2.status = v.status := by
  unfold Validator.claimDelegatorShare
  split
  · exact ⟨rfl,rfl⟩
  · exact ⟨rfl,rfl⟩

theorem preserves_insert {v w : Validator} (hv : vs.get addr = some v) (haddress : w.address = v.address)
    (hstatus : w.status = v.status) :
    vs.Preserves ⟨vs.validators.insert addr w,vs.activeSet,vs.currentEpoch⟩ := by
  constructor
  · intro a ha
    rw [Tombstoned, statusOf, ValidatorSet.get]
    by_cases heq : a = addr
    · subst heq
      rw [Tombstoned, statusOf, hv] at ha
      rw [AList.lookup_insert, Option.map_some, hstatus]
      exact ha
    · rw [AList.lookup_insert_ne heq]
      exact ha
  · intro hkeyed a u hu
    rcases AList.lookup_insert_some hu with ⟨rfl,rfl⟩ | ⟨-,hu⟩
    · rw [haddress, hkeyed a v hv]
    · exact hkeyed a u hu

theorem creditReward_same (v : Validator) (committeeShare totalActiveStake : ℕ) :
    (v.creditReward committeeShare totalActiveStake).address = v.address ∧
      (v.creditReward committeeShare totalActiveStake).status = v.status := by
  unfold Validator.creditReward
  dsimp only
  split
  · exact ⟨rfl,rfl⟩
  · split
    · exact ⟨rfl,rfl⟩
    · exact ⟨rfl,rfl⟩

theorem quiet_creditReward (committeeShare totalActiveStake : ℕ) :
    Validator.Quiet (fun v => v.creditReward committeeShare totalActiveStake) :=
  ⟨fun v => (creditReward_same v _ _).1,fun v hv => (creditReward_same v _ _).2.trans hv⟩

theorem preserves_distributeBlockReward {height : UInt64} {proposer : Address} {fees : ℕ} :
    vs.Preserves (vs.distributeBlockReward height proposer fees) := by
  unfold distributeBlockReward
  dsimp only
  split
  · exact refl_of _ vs
  · split
    · exact refl_of _ vs
    · split
      · exact refl_of _ vs
      · refine Preserves.trans (preserves_modify ⟨?_,?_⟩) (preserves_foldl ?_ _ _)
        · exact fun _ => rfl
        · exact fun _ hv => hv
        · exact fun vs a => preserves_modify (quiet_creditReward _ _)

/-- A slash sets tombstones and clears none. -/
theorem quiet_slash (slashWei : ℕ) (forceTombstone : Bool) :
    Validator.Quiet (fun v => v.slash slashWei forceTombstone) := by
  refine ⟨fun _ => rfl,fun v hv => ?_⟩
  simp only [Validator.slash, hv]

theorem preserves_applySlashBurnV2 {offender : Address} {slashWei : ℕ} {splits : List (Address × ℕ)}
    {forceTombstone : Bool} :
    vs.Preserves (applySlashBurnV2 vs offender slashWei splits forceTombstone).1 := by
  unfold applySlashBurnV2
  dsimp only
  have hslashed : vs.Preserves (vs.modify offender (fun v => v.slash slashWei forceTombstone)) :=
    preserves_modify (quiet_slash slashWei forceTombstone)
  refine hslashed.trans (Preserves.trans (preserves_foldl ?_ splits _) (preserves_of_eq rfl))
  intro vs split
  exact preserves_modify ⟨fun _ => rfl,fun _ hv => hv⟩

theorem quiet_refund (record : SlashEvidenceRecord) (refundedWei bondWei : ℕ) :
    Validator.Quiet (fun v => v.refund record refundedWei bondWei) := by
  refine ⟨fun _ => rfl,fun v hv => ?_⟩
  simp [Validator.refund, hv]

theorem quiet_demote : Validator.Quiet Validator.demote := by
  refine ⟨fun v => ?_,fun v hv => ?_⟩
  · unfold Validator.demote
    split
    · rfl
    · rfl
  · simp [Validator.demote, hv]

theorem quiet_promote : Validator.Quiet Validator.promote := by
  refine ⟨fun v => ?_,fun v hv => ?_⟩
  · unfold Validator.promote
    split
    · rfl
    · rfl
  · simp [Validator.promote, hv]

theorem preserves_electActiveSet : vs.Preserves (vs.electActiveSet P).1 := by
  unfold electActiveSet
  dsimp only
  refine Preserves.trans (Preserves.trans (preserves_foldl ?_ _ _) (preserves_foldl ?_ _ _))
    (preserves_of_eq rfl)
  · exact fun vs a => preserves_modify quiet_demote
  · exact fun vs a => preserves_modify quiet_promote

theorem eligible_of_elected (h : addr ∈ (vs.electActiveSet P).2) :
    ∃ key v, vs.get key = some v ∧ v.isEligible = true ∧ v.address = addr := by
  obtain ⟨e,he,rfl⟩ := List.mem_map.mp h
  have hsorted := (StableSort.sortDesc_perm _).mem_iff.mp (List.mem_of_mem_take he)
  obtain ⟨v,hv,rfl⟩ := List.mem_map.mp hsorted
  obtain ⟨hmem,heligible⟩ := List.mem_filter.mp hv
  obtain ⟨key,hkey⟩ := AList.mem_values.mp (P.mem_iterOrder.mp hmem)
  exact ⟨key,v,hkey,heligible,rfl⟩

/-- Elections pass tombstoned validators over. -/
theorem notMem_electActiveSet (hkeyed : vs.Keyed) (h : vs.Tombstoned addr) :
    addr ∉ (vs.electActiveSet P).2 := by
  intro hmem
  obtain ⟨key,v,hv,heligible,rfl⟩ := eligible_of_elected hmem
  rw [hkeyed key v hv, Tombstoned, statusOf, hv, Option.map_some, Option.some.injEq] at h
  simp [Validator.isEligible, h] at heligible

end Operations

section Dispatch
variable {P : Platform} {faults : LedgerFaults} {call : StakingTx} {sender : Address} {sentValue : ℕ} {height : UInt64}
  {st : StakingState} {view : ExecView}

/-- No staking call clears a tombstone. -/
theorem preserves_callEffect {st' : StakingState} {accepted : Bool} {view' : ExecView}
    (h : CallEffect P faults call sender sentValue height st view st' accepted view') : st.vs.Preserves st'.vs := by
  cases h with
  | idle hvs => exact preserves_of_eq (congrArg ValidatorSet.validators hvs)
  | registered h => exact preserves_registerWithPop h
  | delegated _ _ h => exact preserves_delegate h
  | undelegated _ _ _ h => exact preserves_undelegate h
  | claimed h => exact preserves_claimRewards h
  | shared hget =>
    obtain ⟨haddress,hstatus⟩ := quiet_claimDelegatorShare _ _
    exact preserves_insert hget haddress hstatus
  | written | withdrawn => exact refl_of _ st.vs

theorem preserves_dispatchStakingTx (call : StakingTx) :
    st.vs.Preserves ((dispatchStakingTx P faults sender sentValue height st call).run
      ExecView.answer view).1.1.vs := preserves_callEffect (effect_dispatchStakingTx call)

end Dispatch

section Pipeline
open SlashingPipeline Stateful
variable {P : Platform} {sha3 : List UInt8 → H256} {bincode : EquivocationEvidence → List UInt8}
  {fault : ℕ → Option String}

def SlashingPipeline.Preserves (p p' : SlashingPipeline) : Prop := p.validators.Preserves p'.validators

theorem slashes_preserves : Slashes ValidatorSet.Preserves where
  burn := fun _ _ _ _ _ => preserves_applySlashBurnV2
  refund := fun _ record _ _ => preserves_modify (quiet_refund record _ _)

theorem keeps_ingestEquivocation (ev : EquivocationEvidence) (submitter : Address)
    (currentBlock currentEpoch : UInt64) (offenderStake : ℕ) :
    Keeps SlashingPipeline.Preserves
      (ingestEquivocation P sha3 bincode fault ev submitter currentBlock currentEpoch offenderStake) :=
  kept_ingestEquivocation ev submitter currentBlock currentEpoch offenderStake

theorem keeps_dispatchFileAppealTx (evidenceId : H256) (sender : Address) (sentValueWei : ℕ)
    (currentHeight : UInt64) :
    Keeps SlashingPipeline.Preserves
      (dispatchFileAppealTx fault evidenceId sender sentValueWei currentHeight) :=
  kept_dispatchFileAppealTx evidenceId sender sentValueWei currentHeight

theorem keeps_tickFinalize (currentBlock : UInt64) :
    Keeps SlashingPipeline.Preserves (tickFinalize fault currentBlock) :=
  kept_tickFinalize slashes_preserves currentBlock

theorem keeps_overturnAndRefund (evidenceId : H256) :
    Keeps SlashingPipeline.Preserves (overturnAndRefund fault evidenceId) :=
  kept_overturnAndRefund slashes_preserves evidenceId

end Pipeline

variable {α β : Type}

def SameField (g : Validator → α) (vs vs' : ValidatorSet) : Prop :=
  ∀ a, (vs'.get a).map g = (vs.get a).map g

instance {g : Validator → α} : Std.Refl (SameField g) := ⟨fun _ _ => rfl⟩
instance {g : Validator → α} : IsTrans ValidatorSet (SameField g) :=
  ⟨fun _ _ _ h h' a => (h' a).trans (h a)⟩

/-- A field that neither slashes nor rewards nor elections write. -/
structure Steady (g : Validator → α) : Prop where
  pending : ∀ v n, g { v with pendingRewards := n } = g v
  slash : ∀ v slashWei forceTombstone, g (Validator.slash v slashWei forceTombstone) = g v
  refund : ∀ v record refundedWei bondWei, g (Validator.refund v record refundedWei bondWei) = g v
  credit : ∀ v committeeShare totalActiveStake, g (Validator.creditReward v committeeShare totalActiveStake) = g v
  share : ∀ v delegatorStake, g (Validator.claimDelegatorShare v delegatorStake).2 = g v
  demote : ∀ v, g (Validator.demote v) = g v
  promote : ∀ v, g (Validator.promote v) = g v

theorem Steady.map {g : Validator → α} (hg : Steady g) (f : α → β) : Steady (fun v => f (g v)) where
  pending := fun v n => congrArg f (hg.pending v n)
  slash := fun v slashWei force => congrArg f (hg.slash v slashWei force)
  refund := fun v record refundedWei bondWei => congrArg f (hg.refund v record refundedWei bondWei)
  credit := fun v share total => congrArg f (hg.credit v share total)
  share := fun v stake => congrArg f (hg.share v stake)
  demote := fun v => congrArg f (hg.demote v)
  promote := fun v => congrArg f (hg.promote v)

theorem steady_fields : Steady (fun v => (v.delegatedStake,v.commissionBps)) := by
  constructor
  case credit =>
    intro v committeeShare totalActiveStake
    simp only [Validator.creditReward]
    split_ifs
    all_goals rfl
  case share =>
    intro v delegatorStake
    unfold Validator.claimDelegatorShare
    split
    · rfl
    · rfl
  case demote =>
    intro v
    unfold Validator.demote
    split
    · rfl
    · rfl
  case promote =>
    intro v
    unfold Validator.promote
    split
    · rfl
    · rfl
  all_goals
    intros
    rfl

theorem steady_delegatedStake : Steady Validator.delegatedStake := steady_fields.map Prod.fst

section Sets
variable {g : Validator → α} {vs : ValidatorSet} {P : Platform}

theorem sameField_modify {f : Validator → Validator} (h : ∀ v, g (f v) = g v) (addr : Address) :
    SameField g vs (vs.modify addr f) := by
  intro a
  rw [get_modify]
  split
  · rename_i heq
    rw [heq, Option.map_map]
    congr 1
    funext v
    exact h v
  · rfl

theorem sameField_foldl {f : ValidatorSet → β → ValidatorSet} (h : ∀ vs b, SameField g vs (f vs b))
    (l : List β) (vs : ValidatorSet) : SameField g vs (l.foldl f vs) := by
  induction l generalizing vs with
  | nil => exact refl_of _ vs
  | cons b l ih => exact trans_of _ (h vs b) (ih (f vs b))

theorem sameField_insert {addr : Address} {v w : Validator} (hget : vs.get addr = some v) (h : g w = g v) :
    SameField g vs { vs with validators := vs.validators.insert addr w } := by
  intro a
  by_cases ha : a = addr
  · subst ha
    rw [hget, ValidatorSet.get, AList.lookup_insert, Option.map_some, Option.map_some, h]
  · rw [ValidatorSet.get, AList.lookup_insert_ne ha]
    rfl

theorem sameField_of_eq {vs' : ValidatorSet} (h : vs'.validators = vs.validators) : SameField g vs vs' := by
  intro a
  rw [ValidatorSet.get, ValidatorSet.get, h]

variable (hg : Steady g)
include hg

theorem slashes_sameField : Slashes (SameField g) where
  burn := by
    intro vs offender slashWei splits forceTombstone
    have hslashed : SameField g vs (vs.modify offender (fun v => v.slash slashWei forceTombstone)) :=
      sameField_modify (fun v => hg.slash v _ _) offender
    refine trans_of _ hslashed (trans_of _ (sameField_foldl ?_ splits _) (sameField_of_eq rfl))
    exact fun vs split => sameField_modify (fun v => hg.pending v _) split.1
  refund := fun _ _ _ _ => sameField_modify (fun v => hg.refund v _ _ _) _

theorem sameField_distributeBlockReward (height : UInt64) (proposer : Address) (fees : ℕ) :
    SameField g vs (vs.distributeBlockReward height proposer fees) := by
  unfold ValidatorSet.distributeBlockReward
  dsimp only
  split
  · exact refl_of _ vs
  · split
    · exact refl_of _ vs
    · split
      · exact refl_of _ vs
      · refine trans_of _ (sameField_modify (fun v => hg.pending v _) proposer) (sameField_foldl ?_ _ _)
        exact fun vs a => sameField_modify (fun v => hg.credit v _ _) a

theorem sameField_electActiveSet : SameField g vs (vs.electActiveSet P).1 := by
  unfold ValidatorSet.electActiveSet
  dsimp only
  refine trans_of _ (sameField_foldl ?_ _ _) (trans_of _ (sameField_foldl ?_ _ _) (sameField_of_eq rfl))
  · exact fun vs a => sameField_modify hg.demote a
  · exact fun vs a => sameField_modify hg.promote a

theorem sameField_claimRewards {validator : Address} {amt : ℕ} {vs' : ValidatorSet}
    (h : vs.claimRewards validator = .ok (amt,vs')) : SameField g vs vs' := by
  unfold ValidatorSet.claimRewards at h
  split at h
  · cases h
  · cases h
    exact sameField_modify (fun v => hg.pending v _) validator

end Sets

end ZbxChain.Staking
