import ZbxChain.Staking.Tombstones

/-! # The active set, the statuses and the stakes

Registrations, elections, slashes and claims write the statuses and the active set apart from
each other. In every run they say the same, and an election seats those who come first by
stake and address, in whatever order the hash map yields them.
-/
namespace ZbxChain.Staking
open Staking.ValidatorSet Machine

/-- More stake, or as much and the smaller address. -/
def Validator.Precedes (v w : Validator) : Prop :=
  w.totalStake < v.totalStake ∨ v.totalStake = w.totalStake ∧ v.address.toNat < w.address.toNat

theorem Validator.Precedes.asymm {v w : Validator} (h : v.Precedes w) : ¬ w.Precedes v := by
  unfold Precedes at h ⊢
  omega

/-- `RewardDistributor::claim_rewards`. -/
def claimPendingRewards (vs : ValidatorSet) (validator : Address) : Except StakingError (ℕ × ValidatorSet) :=
  match vs.get validator with
  | none => .error (.notFound validator)
  | some v =>
    if v.pendingRewards = 0 then .error (.noPendingRewards validator)
    else .ok (v.pendingRewards,vs.modify validator (fun v => { v with pendingRewards := 0 }))

inductive SetCall where
  | register (address : Address) (blsPubkey : BlsPubKey) (selfStake : ℕ) (commissionBps : UInt16)
  | registerWithPop (P : Platform) (address : Address) (blsPubkey : BlsPubKey) (blsPop : BlsSignature)
      (selfStake : ℕ) (commissionBps : UInt16)
  | delegate (recipient : Address) (amount : ℕ)
  | undelegate (source : Address) (amount : ℕ)
  | electActiveSet (P : Platform)
  | applySlashBurnV2 (offender : Address) (slashWei : ℕ) (splits : List (Address × ℕ)) (forceTombstone : Bool)
  | distributeBlockReward (blockHeight : UInt64) (proposer : Address) (accumulatedFees : ℕ)
  | claimRewards (validator : Address)
  | claimPendingRewards (validator : Address)
  | claimDelegatorReward (validator delegator : Address) (delegatorStake : ℕ)

def ValidatorSet.after (vs : ValidatorSet) : Except StakingError ValidatorSet → ValidatorSet
  | .ok vs' => vs'
  | .error _ => vs

/-- A call, and the active set that an election returns. Each election has the iteration order
of its own platform. -/
def setStep (vs : ValidatorSet) : SetCall → ValidatorSet × Option (List Address)
  | .register address blsPubkey selfStake commissionBps =>
    (vs.after (vs.register address blsPubkey selfStake commissionBps),none)
  | .registerWithPop P address blsPubkey blsPop selfStake commissionBps =>
    (vs.after (vs.registerWithPop P address blsPubkey blsPop selfStake commissionBps),none)
  | .delegate recipient amount => (vs.after (vs.delegate recipient amount),none)
  | .undelegate source amount => (vs.after (vs.undelegate source amount),none)
  | .electActiveSet P => ((vs.electActiveSet P).1,some (vs.electActiveSet P).2)
  | .applySlashBurnV2 offender slashWei splits forceTombstone =>
    ((applySlashBurnV2 vs offender slashWei splits forceTombstone).1,none)
  | .distributeBlockReward blockHeight proposer accumulatedFees =>
    (vs.distributeBlockReward blockHeight proposer accumulatedFees,none)
  | .claimRewards validator => (vs.after ((vs.claimRewards validator).map Prod.snd),none)
  | .claimPendingRewards validator => (vs.after ((Staking.claimPendingRewards vs validator).map Prod.snd),none)
  | .claimDelegatorReward validator delegator delegatorStake =>
    ((vs.claimDelegatorReward validator delegator delegatorStake).2,none)

/-- The active validators are those in the list, where each stands once. -/
structure Seated (vs : ValidatorSet) : Prop where
  keyed : vs.Keyed
  active : ∀ a, vs.statusOf a = some .active ↔ a ∈ vs.activeSet
  distinct : vs.activeSet.Nodup

/-- The first validators of the registry that are eligible, in order, as many as there is room
for. -/
structure Top (vs : ValidatorSet) (l : List Address) : Prop where
  eligible : ∀ a ∈ l, ∃ v, vs.get a = some v ∧ v.isEligible = true
  ordered : l.Pairwise (fun a b => ∀ v w, vs.get a = some v → vs.get b = some w → v.Precedes w)
  first : ∀ a ∈ l, ∀ b, b ∉ l → ∀ v w, vs.get a = some v → vs.get b = some w → w.isEligible = true → v.Precedes w
  room : l.length ≤ maxValidators
  full : l.length = maxValidators ∨ ∀ b w, vs.get b = some w → w.isEligible = true → b ∈ l

section Sets
variable {vs vs' : ValidatorSet} {l l' : List Address}

theorem Top.unique (h : Top vs l) (h' : Top vs l') : l = l' := by
  have hnodup : ∀ {l}, Top vs l → l.Nodup := by
    intro l h
    refine h.ordered.imp_of_mem ?_
    rintro a b ha - hab rfl
    obtain ⟨v,hv,-⟩ := h.eligible a ha
    have hvv := hab v v hv hv
    exact hvv.asymm hvv
  have hsubset : ∀ {l l'}, Top vs l → Top vs l' → l ⊆ l' := by
    intro l l' h h' a ha
    obtain ⟨v,hv,heligible⟩ := h.eligible a ha
    by_contra hout
    have hlength : l'.length = maxValidators := by
      rcases h'.full with hfull | hall
      · exact hfull
      · exact absurd (hall a v hv heligible) hout
    -- a list that is full and misses `a` has a member that the other one misses
    have hother : ∃ b ∈ l', b ∉ l := by
      by_contra hnone
      push Not at hnone
      have hperm := ((hnodup h').subperm hnone).perm_of_length_le (hlength ▸ h.room)
      exact hout (hperm.mem_iff.mpr ha)
    obtain ⟨b,hb,hbl⟩ := hother
    obtain ⟨w,hw,hweligible⟩ := h'.eligible b hb
    exact (h.first a ha b hbl v w hv hw hweligible).asymm (h'.first b hb a hout w v hw hv heligible)
  have hperm : l.Perm l' := (List.perm_ext_iff_of_nodup (hnodup h) (hnodup h')).mpr
    fun a => ⟨fun ha => hsubset h h' ha,fun ha => hsubset h' h ha⟩
  refine hperm.eq_of_pairwise (fun a b ha hb hab hba => ?_) h.ordered h'.ordered
  obtain ⟨v,hv,-⟩ := h.eligible a ha
  obtain ⟨w,hw,-⟩ := h'.eligible b hb
  exact absurd (hba w v hw hv) (hab v w hv hw).asymm

/-- A set with the same stakes, in which the same validators are eligible, has the same top. -/
theorem Top.of_sameField (h : Top vs l)
    (hsame : SameField (fun v => (v.address,v.totalStake,v.isEligible)) vs vs') : Top vs' l := by
  have hback : ∀ {a v'}, vs'.get a = some v' → ∃ v, vs.get a = some v ∧ v.address = v'.address ∧
      v.totalStake = v'.totalStake ∧ v.isEligible = v'.isEligible := by
    intro a v' hv'
    have hfields := hsame a
    rw [hv'] at hfields
    obtain ⟨v,hv,heq⟩ := Option.map_eq_some_iff.mp hfields.symm
    simp only [Prod.mk.injEq] at heq
    exact ⟨v,hv,heq⟩
  have hprecedes : ∀ {v w v' w' : Validator}, v.address = v'.address → v.totalStake = v'.totalStake →
      w.address = w'.address → w.totalStake = w'.totalStake → v.Precedes w → v'.Precedes w' := by
    intro v w v' w' hv hvs hw hws hprec
    unfold Validator.Precedes at hprec ⊢
    rwa [← hv, ← hvs, ← hw, ← hws]
  refine ⟨fun a ha => ?_,h.ordered.imp ?_,?_,h.room,h.full.imp_right fun hall b w' hw' heligible => ?_⟩
  · obtain ⟨v,hv,heligible⟩ := h.eligible a ha
    have hfields := hsame a
    rw [hv] at hfields
    obtain ⟨v',hv',heq⟩ := Option.map_eq_some_iff.mp hfields
    simp only [Prod.mk.injEq] at heq
    exact ⟨v',hv',heq.2.2.trans heligible⟩
  · intro a b hab v' w' hv' hw'
    obtain ⟨v,hv,hva,hvs,-⟩ := hback hv'
    obtain ⟨w,hw,hwa,hws,-⟩ := hback hw'
    exact hprecedes hva hvs hwa hws (hab v w hv hw)
  · intro a ha b hb v' w' hv' hw' heligible
    obtain ⟨v,hv,hva,hvs,-⟩ := hback hv'
    obtain ⟨w,hw,hwa,hws,hwe⟩ := hback hw'
    exact hprecedes hva hvs hwa hws (h.first a ha b hb v w hv hw (hwe.trans heligible))
  · obtain ⟨w,hw,-,-,hwe⟩ := hback hw'
    exact hall b w hw (hwe.trans heligible)

end Sets

section Elections
variable {P : Platform} {vs : ValidatorSet}

theorem mem_candidates (hkeyed : vs.Keyed) {e : Address × ℕ} :
    e ∈ vs.candidates P ↔ ∃ v, vs.get e.1 = some v ∧ v.isEligible = true ∧ v.totalStake = e.2 := by
  rw [candidates, (StableSort.sortDesc_perm _).mem_iff, List.mem_map]
  constructor
  · rintro ⟨v,hv,rfl⟩
    obtain ⟨hmem,heligible⟩ := List.mem_filter.mp hv
    obtain ⟨key,hkey⟩ := AList.mem_values.mp (P.mem_iterOrder.mp hmem)
    refine ⟨v,?_,heligible,rfl⟩
    rw [hkeyed key v hkey]
    exact hkey
  · rintro ⟨v,hv,heligible,hstake⟩
    refine ⟨v,List.mem_filter.mpr ⟨P.mem_iterOrder.mpr (AList.mem_values.mpr ⟨e.1,hv⟩),heligible⟩,?_⟩
    rw [hkeyed e.1 v hv, hstake]

theorem nodup_candidates (hkeyed : vs.Keyed) : ((vs.candidates P).map Prod.fst).Nodup := by
  have hvalues : vs.validators.values.map Validator.address = vs.validators.keys := by
    rw [AList.values, List.map_map, AList.keys, List.keys]
    refine List.map_congr_left fun e he => hkeyed e.1 e.2 ?_
    exact AList.mem_lookup_iff.mpr he
  have hnodup : (vs.validators.values.map Validator.address).Nodup := hvalues ▸ vs.validators.keys_nodup
  have hperm : ((vs.candidates P).map Prod.fst).Perm ((((P.iterOrder vs.validators.values).filter
      Validator.isEligible).map (fun v => (v.address,v.totalStake))).map Prod.fst) :=
    (StableSort.sortDesc_perm _).map Prod.fst
  rw [List.map_map] at hperm
  refine hperm.nodup_iff.mpr ?_
  have horder := ((P.iterOrder_perm vs.validators.values).map Validator.address).nodup_iff.mpr hnodup
  exact horder.sublist (List.filter_sublist.map Validator.address)

theorem ordered_candidates (hkeyed : vs.Keyed) :
    (vs.candidates P).Pairwise (fun e e' => e'.2 < e.2 ∨ e.2 = e'.2 ∧ e.1.toNat < e'.1.toNat) := by
  have hdistinct : (vs.candidates P).Pairwise (fun e e' => e.1 ≠ e'.1) := List.pairwise_map.mp (nodup_candidates hkeyed)
  refine (hdistinct.and (StableSort.sortDesc_pairwise _)).imp ?_
  rintro e e' ⟨hne,hle⟩
  have haddress : e.1.toNat ≠ e'.1.toNat := fun heq => hne (BitVec.eq_of_toNat_eq heq)
  rcases (Prod.Lex.toLex_le_toLex ..).mp hle with hless | ⟨hsame,haddr⟩
  · exact Or.inl hless
  · exact Or.inr ⟨hsame.symm,lt_of_le_of_ne haddr haddress⟩

/-- Whatever the order of the hash map, the top of the registry is elected. -/
theorem top_elected (hkeyed : vs.Keyed) : Top vs (vs.electActiveSet P).2 := by
  have hordered := ordered_candidates (P := P) hkeyed
  -- a candidate of a validator is told by its address and its stake
  have hpair : ∀ {e v}, e ∈ vs.candidates P → vs.get e.1 = some v → e = (v.address,v.totalStake) := by
    intro e v he hv
    obtain ⟨w,hw,-,hstake⟩ := (mem_candidates hkeyed).mp he
    obtain rfl := Option.some.inj (hv.symm.trans hw)
    exact Prod.ext (hkeyed _ _ hv).symm hstake.symm
  have hprecedes : ∀ {e e' : Address × ℕ} {v w}, e ∈ vs.candidates P → e' ∈ vs.candidates P →
      e'.2 < e.2 ∨ e.2 = e'.2 ∧ e.1.toNat < e'.1.toNat → vs.get e.1 = some v → vs.get e'.1 = some w →
      v.Precedes w := by
    intro e e' v w he he' hlt hv hw
    rw [hpair he hv, hpair he' hw] at hlt
    exact hlt
  refine ⟨fun a ha => ?_,?_,?_,?_,?_⟩
  · obtain ⟨e,he,rfl⟩ := List.mem_map.mp ha
    obtain ⟨v,hv,heligible,-⟩ := (mem_candidates hkeyed).mp (List.mem_of_mem_take he)
    exact ⟨v,hv,heligible⟩
  · refine List.pairwise_map.mpr ((hordered.sublist (List.take_sublist _ _)).imp_of_mem ?_)
    intro e e' he he' hlt v w hv hw
    exact hprecedes (List.mem_of_mem_take he) (List.mem_of_mem_take he') hlt hv hw
  · intro a ha b hb v w hv hw heligible
    obtain ⟨e,he,rfl⟩ := List.mem_map.mp ha
    have hcandidate : (b,w.totalStake) ∈ vs.candidates P := (mem_candidates hkeyed).mpr ⟨w,hw,heligible,rfl⟩
    rw [← List.take_append_drop maxValidators (vs.candidates P)] at hordered hcandidate
    rcases List.mem_append.mp hcandidate with hin | hout
    · exact absurd (List.mem_map_of_mem hin) hb
    · exact hprecedes (List.mem_of_mem_take he) (List.mem_of_mem_drop hout)
        ((List.pairwise_append.mp hordered).2.2 e he _ hout) hv hw
  · rw [electActiveSet, List.length_map]
    exact List.length_take_le _ _
  · rw [electActiveSet, List.length_map, List.length_take]
    rcases Nat.le_total maxValidators (vs.candidates P).length with hmany | hfew
    · exact Or.inl (Nat.min_eq_left hmany)
    · refine Or.inr fun b w hw heligible => ?_
      rw [List.take_of_length_le hfew]
      have hcandidate : (b,w.totalStake) ∈ vs.candidates P := (mem_candidates hkeyed).mpr ⟨w,hw,heligible,rfl⟩
      exact List.mem_map_of_mem hcandidate

theorem get_foldl_modify {f : Validator → Validator} (hf : ∀ v, f (f v) = f v) (l : List Address)
    (vs : ValidatorSet) (a : Address) :
    (l.foldl (fun vs addr => vs.modify addr f) vs).get a = if a ∈ l then (vs.get a).map f else vs.get a := by
  have hiterate : ∀ n, f^[n + 1] = f := by
    intro n
    induction n with
    | zero => rfl
    | succ n ih =>
      rw [Function.iterate_succ', ih]
      exact funext hf
  rw [get_foldl_iterate]
  split
  · rename_i ha
    obtain ⟨n,hn⟩ := Nat.exists_eq_add_of_lt (List.count_pos_iff.mpr ha)
    rw [hn, Nat.zero_add, hiterate]
  · rename_i ha
    rw [List.count_eq_zero.mpr ha]
    exact Option.map_id_apply

theorem demote_demote (v : Validator) : v.demote.demote = v.demote := by
  unfold Validator.demote
  split
  · rfl
  · rfl

theorem promote_promote (v : Validator) : v.promote.promote = v.promote := by
  unfold Validator.promote
  split
  · rfl
  · rfl

theorem get_electActiveSet (a : Address) :
    (vs.electActiveSet P).1.get a =
      if a ∈ (vs.electActiveSet P).2 then (vs.get a).map Validator.promote
      else if a ∈ vs.activeSet then (vs.get a).map Validator.demote else vs.get a := by
  have hget : (vs.electActiveSet P).1.get a = (((vs.electActiveSet P).2.foldl
      (fun vs addr => vs.modify addr Validator.promote)
        ((vs.activeSet.filter (fun addr => addr ∉ (vs.electActiveSet P).2)).foldl
          (fun vs addr => vs.modify addr Validator.demote) vs)).get a) := rfl
  rw [hget, get_foldl_modify promote_promote, get_foldl_modify demote_demote]
  by_cases hnew : a ∈ (vs.electActiveSet P).2
  · simp [hnew]
  · simp [hnew]

theorem isEligible_status {v : Validator} (h : v.isEligible = true) : v.status = .pending ∨ v.status = .active := by
  unfold Validator.isEligible at h
  cases hstatus : v.status with
  | pending => exact Or.inl rfl
  | active => exact Or.inr rfl
  | jailed | unbonding | inactive | tombstoned => simp [hstatus] at h

theorem sameField_elected (hkeyed : vs.Keyed) :
    SameField (fun v => (v.address,v.totalStake,v.isEligible)) vs (vs.electActiveSet P).1 := by
  intro a
  rw [get_electActiveSet]
  cases hv : vs.get a with
  | none => simp
  | some v =>
    split_ifs with hnew hold
    · obtain ⟨w,hw,heligible⟩ := (top_elected hkeyed).eligible a hnew
      obtain rfl := Option.some.inj (hv.symm.trans hw)
      rcases isEligible_status heligible with hstatus | hstatus
      · simp [Validator.promote, Validator.totalStake, Validator.isEligible, hstatus]
      · simp [Validator.promote, Validator.totalStake, Validator.isEligible, hstatus]
    · by_cases hactive : v.status = .active
      · simp [Validator.demote, Validator.totalStake, Validator.isEligible, hactive]
      · simp [Validator.demote, hactive]
    · rfl

theorem seated_elected (h : Seated vs) : Seated (vs.electActiveSet P).1 := by
  have htop : Top vs (vs.electActiveSet P).2 := top_elected h.keyed
  have hlist : (vs.electActiveSet P).1.activeSet = (vs.electActiveSet P).2 := rfl
  refine ⟨preserves_electActiveSet.keyed h.keyed,fun a => ?_,?_⟩
  · rw [hlist, statusOf, get_electActiveSet]
    split_ifs with hnew hold
    · obtain ⟨v,hv,heligible⟩ := htop.eligible a hnew
      have hstatus : v.promote.status = .active := by
        rcases isEligible_status heligible with hstatus | hstatus
        · simp [Validator.promote, hstatus]
        · simp [Validator.promote, hstatus]
      simp [hv, hstatus, hnew]
    · simp only [hnew, iff_false, Option.map_map]
      intro hactive
      obtain ⟨v,-,hstatus⟩ := Option.map_eq_some_iff.mp hactive
      by_cases hv : v.status = .active
      · simp [Validator.demote, hv] at hstatus
      · simp [Validator.demote, hv] at hstatus
    · simp only [hnew, iff_false]
      exact fun hactive => hold ((h.active a).mp hactive)
  · rw [hlist]
    exact (nodup_candidates h.keyed).sublist ((List.take_sublist _ _).map Prod.fst)

end Elections

section Steps
variable {vs vs' : ValidatorSet}

theorem Seated.of_sameField (h : Seated vs) (hkept : vs.Preserves vs') (hsame : SameField Validator.status vs vs')
    (hlist : vs'.activeSet = vs.activeSet) : Seated vs' := by
  refine ⟨hkept.keyed h.keyed,fun a => ?_,hlist ▸ h.distinct⟩
  have hstatus : vs'.statusOf a = vs.statusOf a := hsame a
  rw [hstatus, hlist]
  exact h.active a

theorem Seated.modify (h : Seated vs) (addr : Address) {f : Validator → Validator}
    (hf : ∀ v, (f v).address = v.address ∧ (f v).status = v.status) : Seated (vs.modify addr f) :=
  h.of_sameField (preserves_modify ⟨fun v => (hf v).1,fun v hv => (hf v).2.trans hv⟩)
    (sameField_modify (fun v => (hf v).2) addr) rfl

theorem seated_registered (h : Seated vs) {address : Address} {blsPubkey : BlsPubKey} {selfStake : ℕ}
    {commissionBps : UInt16} (hok : vs.register address blsPubkey selfStake commissionBps = .ok vs') : Seated vs' := by
  refine ⟨(preserves_register hok).keyed h.keyed,fun a => ?_,?_⟩
  · unfold register at hok
    split at hok
    · cases hok
    · rename_i hfresh
      rw [Bool.not_eq_true, Option.isSome_eq_false_iff, Option.isNone_iff_eq_none] at hfresh
      split at hok
      · cases hok
      · cases hok
        by_cases ha : a = address
        · subst ha
          have hout : a ∉ vs.activeSet := fun hmem => by
            have hactive := (h.active a).mpr hmem
            rw [statusOf, hfresh] at hactive
            cases hactive
          simp [statusOf, ValidatorSet.get, hout]
        · rw [statusOf, ValidatorSet.get, AList.lookup_insert_ne ha]
          exact h.active a
  · unfold register at hok
    split at hok
    · cases hok
    · split at hok
      · cases hok
      · cases hok
        exact h.distinct

theorem activeSet_foldl {β : Type} {f : ValidatorSet → β → ValidatorSet}
    (hf : ∀ vs b, (f vs b).activeSet = vs.activeSet) (l : List β) (vs : ValidatorSet) :
    (l.foldl f vs).activeSet = vs.activeSet := by
  induction l generalizing vs with
  | nil => rfl
  | cons b l ih => exact (ih (f vs b)).trans (hf vs b)

theorem slash_status_ne (v : Validator) (slashWei : ℕ) (forceTombstone : Bool) :
    (v.slash slashWei forceTombstone).status ≠ .active := by
  unfold Validator.slash
  cases hstatus : v.status with
  | pending | active | jailed | unbonding | inactive | tombstoned =>
    cases forceTombstone with
    | true => simp
    | false => simp

/-- A slash takes the offender out of the list, and out of the active validators. -/
theorem seated_slashed (h : Seated vs) (offender : Address) (slashWei : ℕ) (splits : List (Address × ℕ))
    (forceTombstone : Bool) : Seated (applySlashBurnV2 vs offender slashWei splits forceTombstone).1 := by
  have hrewarded : ∀ vs : ValidatorSet, SameField Validator.status vs (splits.foldl (fun vs split => vs.modify split.1
      (fun w => { w with pendingRewards := saturatingAdd128 w.pendingRewards split.2 })) vs) := by
    refine fun vs => sameField_foldl (fun vs split => ?_) splits vs
    refine sameField_modify ?_ split.1
    exact fun _ => rfl
  have hactiveSet : (applySlashBurnV2 vs offender slashWei splits forceTombstone).1.activeSet =
      vs.activeSet.filter (fun a => a ≠ offender) := by
    refine congrArg (List.filter _) (activeSet_foldl ?_ splits _)
    exact fun _ _ => rfl
  have hstatus : ∀ a, (applySlashBurnV2 vs offender slashWei splits forceTombstone).1.statusOf a =
      if a = offender then (vs.get offender).map (fun v => (v.slash slashWei forceTombstone).status)
      else vs.statusOf a := by
    intro a
    refine (hrewarded _ a).trans ?_
    rw [get_modify]
    split_ifs with ha
    · rw [Option.map_map]
      rfl
    · rfl
  refine ⟨preserves_applySlashBurnV2.keyed h.keyed,fun a => ?_,?_⟩
  · rw [hactiveSet, List.mem_filter, hstatus]
    split_ifs with ha
    · simp only [ha, ne_eq, not_true, decide_false, Bool.false_eq_true, and_false, iff_false]
      intro hactive
      obtain ⟨v,-,hslashed⟩ := Option.map_eq_some_iff.mp hactive
      exact slash_status_ne v slashWei forceTombstone hslashed
    · simp only [ha, ne_eq, not_false_eq_true, decide_true, and_true]
      exact h.active a
  · rw [hactiveSet]
    exact h.distinct.filter _

theorem seated_distributed (h : Seated vs) (height : UInt64) (proposer : Address) (fees : ℕ) :
    Seated (vs.distributeBlockReward height proposer fees) := by
  refine h.of_sameField preserves_distributeBlockReward ?_ ?_
  · unfold distributeBlockReward
    dsimp only
    split_ifs
    · exact refl_of _ vs
    · exact refl_of _ vs
    · exact refl_of _ vs
    · refine trans_of _ (sameField_modify ?_ proposer) (sameField_foldl (fun vs a => ?_) _ _)
      · exact fun _ => rfl
      · exact sameField_modify (fun v => (creditReward_same v _ _).2) a
  · unfold distributeBlockReward
    dsimp only
    split_ifs
    · rfl
    · rfl
    · rfl
    · refine activeSet_foldl ?_ _ _
      exact fun _ _ => rfl

theorem seated_setStep (h : Seated vs) (call : SetCall) : Seated (setStep vs call).1 := by
  have hafter : ∀ {result : Except StakingError ValidatorSet}, (∀ vs', result = .ok vs' → Seated vs') →
      Seated (vs.after result) := by
    rintro (e | vs') hok
    · exact h
    · exact hok vs' rfl
  cases call with
  | register address blsPubkey selfStake commissionBps => exact hafter fun vs' hok => seated_registered h hok
  | registerWithPop P address blsPubkey blsPop selfStake commissionBps =>
    refine hafter fun vs' hok => ?_
    unfold registerWithPop at hok
    split at hok
    · cases hok
    · exact seated_registered h hok
  | delegate recipient amount =>
    refine hafter fun vs' hok => ?_
    unfold delegate at hok
    split at hok
    · cases hok
    · split at hok
      all_goals cases hok
      all_goals refine h.modify recipient ?_
      all_goals exact fun _ => ⟨rfl,rfl⟩
  | undelegate source amount =>
    refine hafter fun vs' hok => ?_
    unfold undelegate at hok
    split at hok
    · cases hok
    · split at hok
      · cases hok
      · cases hok
        refine h.modify source ?_
        exact fun _ => ⟨rfl,rfl⟩
  | electActiveSet P => exact seated_elected h
  | applySlashBurnV2 offender slashWei splits forceTombstone => exact seated_slashed h offender slashWei splits forceTombstone
  | distributeBlockReward height proposer fees => exact seated_distributed h height proposer fees
  | claimRewards validator =>
    change Seated (vs.after ((vs.claimRewards validator).map Prod.snd))
    unfold claimRewards
    split
    · exact h
    · refine h.modify validator ?_
      exact fun _ => ⟨rfl,rfl⟩
  | claimPendingRewards validator =>
    change Seated (vs.after ((claimPendingRewards vs validator).map Prod.snd))
    unfold claimPendingRewards
    split
    · exact h
    · split
      · exact h
      · refine h.modify validator ?_
        exact fun _ => ⟨rfl,rfl⟩
  | claimDelegatorReward validator delegator delegatorStake =>
    change Seated (vs.claimDelegatorReward validator delegator delegatorStake).2
    unfold claimDelegatorReward
    split
    · exact h
    · split
      · exact h
      · rename_i v hv
        obtain ⟨haddress,hstatus⟩ := quiet_claimDelegatorShare v delegatorStake
        have hinserted : Seated { vs with
            validators := vs.validators.insert validator (v.claimDelegatorShare delegatorStake).2 } :=
          h.of_sameField (preserves_insert hv haddress hstatus) (sameField_insert hv hstatus) rfl
        dsimp only
        split
        · exact hinserted
        · exact hinserted

theorem seated_new : Seated .new :=
  ⟨nofun,fun _ => ⟨nofun,nofun⟩,List.nodup_nil⟩

end Steps

theorem top_iff {vs : ValidatorSet} {l l' : List Address} (h : Top vs l) : Top vs l' ↔ l' = l :=
  ⟨fun h' => h'.unique h,fun heq => heq ▸ h⟩

/-- After every call the active validators are those in the list, and after an election it is the
top of the registry, before and after the election, and no other list is. -/
def SeatsTop (calls : List SetCall) : Prop :=
  ∀ e ∈ history setStep .new calls, Seated (setStep e.before e.call).1 ∧
    ∀ P, e.call = .electActiveSet P →
      e.output = some (setStep e.before e.call).1.activeSet ∧
      (∀ l, Top e.before l ↔ l = (setStep e.before e.call).1.activeSet) ∧
      ∀ l, Top (setStep e.before e.call).1 l ↔ l = (setStep e.before e.call).1.activeSet

/-- Every run on a new set seats the top of the registry. -/
theorem seats_top (calls : List SetCall) : SeatsTop calls := by
  have hrun := (state_invariant setStep (G := fun _ _ => True) (I := Seated) seated_new
    (fun vs call h _ => seated_setStep h call) calls fun _ _ => trivial).1
  intro e he
  refine ⟨seated_setStep (hrun e he) e.call,fun P hcall => ?_⟩
  have htop : Top e.before (e.before.electActiveSet P).2 := top_elected (hrun e he).keyed
  rw [output_eq setStep he, hcall]
  refine ⟨rfl,fun l => top_iff htop,fun l => top_iff ?_⟩
  exact htop.of_sameField (sameField_elected (hrun e he).keyed)

end ZbxChain.Staking
