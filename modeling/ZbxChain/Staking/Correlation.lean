import ZbxChain.Staking.SlashingRegistry

/-! # Slashes that grow with the number of offenders

The factor of a slash is meant to count the offenders of the epoch. The registry reads a count
of the offender alone, which no submission raises, so every new record has the factor of a
first offender.
-/
namespace ZbxChain.Staking
open Machine

section Factors
variable {baseBps : ℕ} {j k N : UInt64}

/-- `checked_add` of `u128`. -/
def checkedAdd128 (x y : ℕ) : Option ℕ := if x + y ≤ maxU128 then some (x + y) else none

/-- `correlated_slash_bps` with every operation checked. -/
def correlatedSlashBpsChecked (baseBps : ℕ) (nSlashedThisEpoch nTotalValidators : UInt64) : Option ℕ :=
  if nTotalValidators = 0 then some baseBps else do
    let scaled ← checkedMul128 nSlashedThisEpoch.toNat 10000
    let tripled ← checkedMul128 3 (scaled / nTotalValidators.toNat)
    let factorFp ← checkedAdd128 10000 tripled
    let square ← checkedMul128 factorFp factorFp
    let slashed ← checkedMul128 baseBps (square / 10000)
    some (min (slashed / 10000) 10000)

/-- The square of the factor fits 128 bits. -/
def SquareFits (n : ℕ) (nTotalValidators : UInt64) : Prop :=
  (10000 + 3 * (n * 10000 / nTotalValidators.toNat)) ^ 2 < 2 ^ 128

theorem SquareFits.anti {m n : ℕ} (h : SquareFits n N) (hle : m ≤ n) : SquareFits m N := by
  have hratio : m * 10000 / N.toNat ≤ n * 10000 / N.toNat :=
    Nat.div_le_div_right (Nat.mul_le_mul_right 10000 hle)
  unfold SquareFits at *
  exact lt_of_le_of_lt (Nat.pow_le_pow_left (by omega) 2) h

theorem squareFits_zero (n : ℕ) : SquareFits n 0 := by
  have hratio : n * 10000 / (0 : UInt64).toNat = 0 := Nat.div_zero _
  unfold SquareFits
  rw [hratio]
  decide

theorem correlatedSlashBps_eq (hN : N ≠ 0) (hbase : baseBps ≤ 10000) (hfits : SquareFits k.toNat N) :
    correlatedSlashBps baseBps k N =
      min (baseBps * ((10000 + 3 * (k.toNat * 10000 / N.toNat)) ^ 2 / 10000) / 10000) 10000 := by
  unfold SquareFits at hfits
  unfold correlatedSlashBps
  rw [if_neg hN]
  dsimp only
  have hproduct := Nat.mul_le_mul_right ((10000 + 3 * (k.toNat * 10000 / N.toNat)) ^ 2 / 10000) hbase
  have hsquare : wrap128 ((10000 + 3 * (k.toNat * 10000 / N.toNat)) ^ 2) =
      (10000 + 3 * (k.toNat * 10000 / N.toNat)) ^ 2 := Nat.mod_eq_of_lt hfits
  rw [← Nat.pow_two, hsquare, wrap128, Nat.mod_eq_of_lt (by omega)]

theorem correlatedSlashBpsChecked_eq (hbase : baseBps ≤ 10000) (hfits : SquareFits k.toNat N) :
    correlatedSlashBpsChecked baseBps k N = some (correlatedSlashBps baseBps k N) := by
  by_cases hN : N = 0
  · rw [correlatedSlashBpsChecked, if_pos hN, correlatedSlashBps, if_pos hN]
  · have hk := k.toNat_lt
    have hratio : k.toNat * 10000 / N.toNat ≤ k.toNat * 10000 := Nat.div_le_self _ _
    have hproduct := Nat.mul_le_mul_right ((10000 + 3 * (k.toNat * 10000 / N.toNat)) ^ 2 / 10000) hbase
    rw [correlatedSlashBps_eq hN hbase hfits]
    unfold SquareFits at hfits
    unfold correlatedSlashBpsChecked checkedMul128 checkedAdd128 maxU128
    rw [if_neg hN, if_pos (by omega), Option.bind_eq_bind, Option.bind_some, if_pos (by omega), Option.bind_some,
      if_pos (by omega), Option.bind_some, ← Nat.pow_two, if_pos (by omega), Option.bind_some,
      if_pos (by omega), Option.bind_some]

theorem squareFits_of_checked (h : (correlatedSlashBpsChecked baseBps k N).isSome) : SquareFits k.toNat N := by
  by_cases hN : N = 0
  · subst hN
    exact squareFits_zero _
  · obtain ⟨bps,hbps⟩ := Option.isSome_iff_exists.mp h
    rw [correlatedSlashBpsChecked, if_neg hN] at hbps
    obtain ⟨scaled,hscaled,hbps⟩ := Option.bind_eq_some_iff.mp hbps
    obtain ⟨tripled,htripled,hbps⟩ := Option.bind_eq_some_iff.mp hbps
    obtain ⟨factorFp,hfactor,hbps⟩ := Option.bind_eq_some_iff.mp hbps
    obtain ⟨square,hsquare,-⟩ := Option.bind_eq_some_iff.mp hbps
    unfold checkedMul128 at hscaled htripled hsquare
    unfold checkedAdd128 at hfactor
    unfold SquareFits
    split at hscaled
    · cases hscaled
      split at htripled
      · cases htripled
        split at hfactor
        · cases hfactor
          split at hsquare
          · rename_i hfits
            unfold maxU128 at hfits
            rw [Nat.pow_two]
            omega
          · cases hsquare
        · cases hfactor
      · cases htripled
    · cases hscaled

theorem correlatedSlashBps_mono (hbase : baseBps ≤ 10000) (hle : j ≤ k) (hfits : SquareFits k.toNat N) :
    correlatedSlashBps baseBps j N ≤ correlatedSlashBps baseBps k N := by
  by_cases hN : N = 0
  · rw [correlatedSlashBps, if_pos hN, correlatedSlashBps, if_pos hN]
  · have hcount : j.toNat ≤ k.toNat := UInt64.le_iff_toNat_le.mp hle
    rw [correlatedSlashBps_eq hN hbase hfits, correlatedSlashBps_eq hN hbase (hfits.anti hcount)]
    gcongr

end Factors

section Submissions
variable (sha3 : List UInt8 → H256) (epoch : UInt64)

/-- The operands of `submit_evidence` but for the epoch. -/
structure SlashCall where
  evidence : SlashEvidenceV2
  submittedBy : Address
  currentBlock : UInt64
  offenderStake : ℕ
  deriving DecidableEq

def submitStep (reg : SlashingRegistryV2) (call : SlashCall) : SlashingRegistryV2 × Option SlashEvidenceRecord :=
  match reg.submitEvidence sha3 call.evidence call.submittedBy call.currentBlock epoch call.offenderStake with
  | .ok (.newRecord id,after) => (after,after.getRecord id)
  | .ok (_,after) => (after,none)
  | .error _ => (reg,none)

def newRecords (reg : SlashingRegistryV2) (calls : List SlashCall) : List (SlashCall × SlashEvidenceRecord) :=
  (history (submitStep sha3 epoch) reg calls).filterMap fun e => e.output.map (e.call,·)

/-- The number `k` counted from one, in 64 bits. -/
def ordinal (k : ℕ) : UInt64 := UInt64.ofNat (k + 1)

/-- Each new record has the slash of its number in the epoch, and the factors of these numbers are
exact, do not fall and are no more than the whole stake. -/
structure Correlated (reg : SlashingRegistryV2) (calls : List SlashCall) : Prop where
  slash : ∀ k call record, (newRecords sha3 epoch reg calls)[k]? = some (call,record) →
    record.finalSlashWei = slashAmountWei call.offenderStake
      (correlatedSlashBps (baseSlashBps record.evidenceType) (ordinal k) reg.totalValidators)
  exact : ∀ kind (k : UInt64), k.toNat ≤ (newRecords sha3 epoch reg calls).length →
    correlatedSlashBpsChecked (baseSlashBps kind) k reg.totalValidators =
      some (correlatedSlashBps (baseSlashBps kind) k reg.totalValidators)
  monotone : ∀ kind (j k : UInt64), j ≤ k → k.toNat ≤ (newRecords sha3 epoch reg calls).length →
    correlatedSlashBps (baseSlashBps kind) j reg.totalValidators ≤
      correlatedSlashBps (baseSlashBps kind) k reg.totalValidators
  capped : ∀ kind (k : UInt64), correlatedSlashBps (baseSlashBps kind) k reg.totalValidators ≤ 10000

/-- A stake so small, or a factor that grows so little, that the slash is that of a first offender. -/
def CountsAlike (stake baseBps : ℕ) (k N : UInt64) : Prop :=
  slashAmountWei stake (correlatedSlashBps baseBps 1 N) = slashAmountWei stake (correlatedSlashBps baseBps k N)

variable {sha3 epoch} {reg : SlashingRegistryV2} {calls : List SlashCall}

def Uncounted (epoch : UInt64) (reg : SlashingRegistryV2) : Prop :=
  ∀ addr, reg.epochSlashCount.lookup (epoch,addr) = none

theorem submitEvidence_ok {call : SlashCall} {outcome : SubmitOutcome} {after : SlashingRegistryV2}
    (h : reg.submitEvidence sha3 call.evidence call.submittedBy call.currentBlock epoch call.offenderStake =
      .ok (outcome,after)) :
    after.epochSlashCount = reg.epochSlashCount ∧ after.totalValidators = reg.totalValidators ∧
      ∀ id record, outcome = .newRecord id → after.getRecord id = some record → Uncounted epoch reg →
        record.finalSlashWei = slashAmountWei call.offenderStake
          (correlatedSlashBps (baseSlashBps record.evidenceType) 1 reg.totalValidators) := by
  unfold SlashingRegistryV2.submitEvidence at h
  split at h
  · cases h
  · rename_i offender _
    dsimp only at h
    split at h
    · split at h
      · cases h
        exact ⟨rfl,rfl,by rintro _ _ ⟨⟩⟩
      · split at h
        · cases h
          exact ⟨rfl,rfl,by rintro _ _ ⟨⟩⟩
        · cases h
          exact ⟨rfl,rfl,by rintro _ _ ⟨⟩⟩
    · cases h
      refine ⟨rfl,rfl,?_⟩
      rintro _ record ⟨⟩ hrecord huncounted
      rw [SlashingRegistryV2.getRecord, AList.lookup_insert] at hrecord
      cases hrecord
      dsimp only
      rw [huncounted offender]
      rfl

theorem submitStep_cases (call : SlashCall) :
    (submitStep sha3 epoch reg call).1.epochSlashCount = reg.epochSlashCount ∧
      (submitStep sha3 epoch reg call).1.totalValidators = reg.totalValidators ∧
      ∀ record, (submitStep sha3 epoch reg call).2 = some record → Uncounted epoch reg →
        record.finalSlashWei = slashAmountWei call.offenderStake
          (correlatedSlashBps (baseSlashBps record.evidenceType) 1 reg.totalValidators) := by
  unfold submitStep
  split
  · rename_i id after hsubmit
    obtain ⟨hcount,htotal,hnew⟩ := submitEvidence_ok hsubmit
    exact ⟨hcount,htotal,fun record => hnew id record rfl⟩
  · rename_i outcome after _ hsubmit
    obtain ⟨hcount,htotal,-⟩ := submitEvidence_ok hsubmit
    exact ⟨hcount,htotal,by rintro _ ⟨⟩⟩
  · exact ⟨rfl,rfl,by rintro _ ⟨⟩⟩

theorem finalSlash_newRecords (hreg : Uncounted epoch reg) {call : SlashCall} {record : SlashEvidenceRecord}
    (hmem : (call,record) ∈ newRecords sha3 epoch reg calls) :
    record.finalSlashWei = slashAmountWei call.offenderStake
      (correlatedSlashBps (baseSlashBps record.evidenceType) 1 reg.totalValidators) := by
  obtain ⟨e,he,hmade⟩ := List.mem_filterMap.mp hmem
  obtain ⟨made,hmade,hpair⟩ := Option.map_eq_some_iff.mp hmade
  cases hpair
  have hkept := (state_invariant (submitStep sha3 epoch) (G := fun _ _ => True)
    (I := fun s => s.epochSlashCount = reg.epochSlashCount ∧ s.totalValidators = reg.totalValidators)
    ⟨rfl,rfl⟩ (fun s call hs _ => ⟨(submitStep_cases call).1.trans hs.1,(submitStep_cases call).2.1.trans hs.2⟩)
    calls fun _ _ => trivial).1 e he
  rw [output_eq _ he] at hmade
  rw [← hkept.2]
  refine (submitStep_cases e.call).2.2 _ hmade fun addr => ?_
  rw [hkept.1]
  exact hreg addr

/-- Slashes are correlated in a run if, and only if, the number of the record makes no difference
to any of them, and no factor overflows. -/
theorem correlated_iff (sha3 : List UInt8 → H256) (epoch : UInt64) (reg : SlashingRegistryV2)
    (calls : List SlashCall) (hreg : Uncounted epoch reg) : Correlated sha3 epoch reg calls ↔
      (∀ k call record, (newRecords sha3 epoch reg calls)[k]? = some (call,record) →
        CountsAlike call.offenderStake (baseSlashBps record.evidenceType) (ordinal k) reg.totalValidators) ∧
      SquareFits (min (newRecords sha3 epoch reg calls).length (2 ^ 64 - 1)) reg.totalValidators := by
  have hbase : ∀ kind, baseSlashBps kind ≤ 10000 := fun kind => (baseSlashBps_le kind).trans (by decide)
  have hfirst : ∀ {k} {call : SlashCall} {record : SlashEvidenceRecord}, (newRecords sha3 epoch reg calls)[k]? = some (call,record) →
      record.finalSlashWei = slashAmountWei call.offenderStake
        (correlatedSlashBps (baseSlashBps record.evidenceType) 1 reg.totalValidators) :=
    fun hk => finalSlash_newRecords hreg (List.mem_of_getElem? hk)
  constructor
  · intro h
    refine ⟨fun k call record hk => (hfirst hk).symm.trans (h.slash k call record hk),?_⟩
    have hlast : (UInt64.ofNat (min (newRecords sha3 epoch reg calls).length (2 ^ 64 - 1))).toNat =
        min (newRecords sha3 epoch reg calls).length (2 ^ 64 - 1) := UInt64.toNat_ofNat_of_lt' (by
      change _ < 2 ^ 64
      omega)
    have hexact := h.exact .doubleSign _ (hlast.le.trans (Nat.min_le_left _ _))
    have hfits := squareFits_of_checked (Option.isSome_of_eq_some hexact)
    rwa [hlast] at hfits
  · rintro ⟨halike,hsquare⟩
    have hfits : ∀ k : UInt64, k.toNat ≤ (newRecords sha3 epoch reg calls).length →
        SquareFits k.toNat reg.totalValidators := by
      intro k hk
      have hlt := k.toNat_lt
      exact hsquare.anti (by omega)
    exact ⟨fun k call record hk => (hfirst hk).trans (halike k call record hk),
      fun kind k hk => correlatedSlashBpsChecked_eq (hbase kind) (hfits k hk),
      fun kind j k hle hk => correlatedSlashBps_mono (hbase kind) hle (hfits k hk),
      fun kind k => correlatedSlashBps_le (hbase kind)⟩

/-- Validator `v` has voted against the lock, with ten thousand wei at stake. -/
def surrogateCall (v : Address) : SlashCall := ⟨.surrogateVote 1 2 3 v,9,100,10000⟩

/-- The first offender of an epoch is slashed as such. -/
theorem first_correlated : Correlated H256.fromSlice 0 (.new 3) [surrogateCall 1] := by
  apply (correlated_iff H256.fromSlice 0 (.new 3) [surrogateCall 1] fun _ => rfl).mpr
  refine ⟨fun k call record hk => ?_,by unfold SquareFits; decide +kernel⟩
  cases k with
  | zero => rfl
  | succ k =>
    have hlength : (newRecords H256.fromSlice 0 (.new 3) [surrogateCall 1]).length = 1 := by decide +kernel
    have hbound := (List.getElem?_eq_some_iff.mp hk).1
    omega

/-- The second of three validators is slashed like the first one. -/
theorem second_slashed_as_first : ¬ ∀ (sha3 : List UInt8 → H256) (epoch N : UInt64), 1 ≤ N →
    ∀ calls : List SlashCall, (calls.map (·.evidence.offender)).Nodup →
      Correlated sha3 epoch (.new N) calls := by
  intro h
  have hcorrelated := h H256.fromSlice 0 3 (by decide) [surrogateCall 1,surrogateCall 2] (by decide)
  obtain ⟨record,hrecord,hwei,hkind⟩ : ∃ record, (newRecords H256.fromSlice 0 (.new 3)
      [surrogateCall 1,surrogateCall 2])[1]? = some (surrogateCall 2,record) ∧ record.finalSlashWei = 1999 ∧
        record.evidenceType = .surrogateVote := ⟨_,rfl,by decide +kernel,rfl⟩
  have hslash := hcorrelated.slash 1 (surrogateCall 2) record hrecord
  rw [hwei, hkind] at hslash
  revert hslash
  decide +kernel

end Submissions

end ZbxChain.Staking
