import Mathlib.Data.BitVec
import ZbxChain.Foundation.StableSort
import ZbxChain.Foundation.Table
import ZbxChain.Crypto.Platform

/-! # Epochs and the rotation of the validator set

The source's `sort_by` is stable and looks at the stakes alone.
-/
namespace ZbxChain

def MAX_VALIDATORS : ℕ := 100

/-- 100,000 ZBX in wei. -/
def MIN_VALIDATOR_STAKE : BitVec 128 := 100000 * 10 ^ 18

structure ValidatorEntry where
  address : Address
  stakeWei : BitVec 128
  blsPubkey : List UInt8
  deriving DecidableEq

def ValidatorEntry.stake (v : ValidatorEntry) : ℕ := v.stakeWei.toNat

structure EpochState where
  epoch : UInt64
  startBlock : UInt64
  endBlock : UInt64
  validators : List ValidatorEntry
  validatorHash : H256
  startStateRoot : H256
  deriving DecidableEq

namespace EpochState

def isLastBlock (s : EpochState) (blockNumber : UInt64) : Bool := blockNumber == s.endBlock

def computeValidatorHash (P : Platform) (validators : List ValidatorEntry) : H256 :=
  P.keccak256 (validators.flatMap (fun v =>
    v.address.asBytes ++ Bytes.bytesBE 16 v.stakeWei.toNat))

/-- `EpochState::new`; the block numbers wrap where the source stops on an overflow. -/
def new (P : Platform) (epoch epochLength : UInt64) (validators : List ValidatorEntry)
    (startStateRoot : H256) : EpochState :=
  let validators := (StableSort.sortDesc ValidatorEntry.stake validators).take MAX_VALIDATORS
  { epoch := epoch
    startBlock := (epoch - 1) * epochLength + 1
    endBlock := epoch * epochLength
    validators := validators
    validatorHash := computeValidatorHash P validators
    startStateRoot := startStateRoot }

end EpochState

inductive EpochEvent where
  | epochTransition (oldEpoch newEpoch : UInt64) (newState : EpochState)
  | blockProcessed (blockNumber epoch : UInt64)

structure EpochManager where
  current : EpochState
  history : Table UInt64 EpochState
  epochLength : UInt64
  pendingCandidates : List ValidatorEntry

namespace EpochManager

def new (P : Platform) (genesisValidators : List ValidatorEntry) (epochLength : UInt64) :
    EpochManager where
  current := EpochState.new P 1 epochLength genesisValidators H256.zero
  history := ∅
  epochLength := epochLength
  pendingCandidates := []

def updateCandidates (m : EpochManager) (candidates : List ValidatorEntry) : EpochManager :=
  { m with pendingCandidates := candidates }

/-- The validators that `rotate` hands to the next epoch. -/
def candidates (m : EpochManager) : List ValidatorEntry :=
  if m.pendingCandidates.isEmpty then m.current.validators
  else m.pendingCandidates.filter (fun v => MIN_VALIDATOR_STAKE ≤ v.stakeWei)

def rotate (P : Platform) (m : EpochManager) (stateRoot : H256) : EpochManager × EpochEvent :=
  let oldEpoch := m.current.epoch
  let newEpoch := oldEpoch + 1
  let newState := EpochState.new P newEpoch m.epochLength m.candidates stateRoot
  ({ m with
      current := newState
      history := m.history.insert oldEpoch m.current
      pendingCandidates := [] },
    .epochTransition oldEpoch newEpoch newState)

def onBlockCommitted (P : Platform) (m : EpochManager) (blockNumber : UInt64) (stateRoot : H256) :
    EpochManager × EpochEvent :=
  if m.current.isLastBlock blockNumber then m.rotate P stateRoot
  else (m,.blockProcessed blockNumber m.current.epoch)

def epochState (m : EpochManager) (epoch : UInt64) : Option EpochState :=
  if epoch = m.current.epoch then some m.current else m.history.lookup epoch

end EpochManager

/-- The candidates of one stake that get into the first hundred: those with more stake
come first. -/
def admitted (l : List ValidatorEntry) (stake : ℕ) : List ValidatorEntry :=
  (l.filter (fun v => v.stake = stake)).take
    (MAX_VALIDATORS - (l.filter (fun v => stake < v.stake)).length)

/-- Two orders of the candidates put those who are admitted with one stake in one order. -/
def TiesOrderedAlike (l l' : List ValidatorEntry) : Prop :=
  ∀ stake, MIN_VALIDATOR_STAKE.toNat ≤ stake → admitted l stake = admitted l' stake

namespace EpochManager

variable {P : Platform} {m : EpochManager} {l l' : List ValidatorEntry} {stateRoot : H256}

theorem onBlockCommitted_last :
    m.onBlockCommitted P m.current.endBlock stateRoot = m.rotate P stateRoot := by
  unfold onBlockCommitted EpochState.isLastBlock
  rw [if_pos (beq_self_eq_true _)]

theorem admitted_eligible {stake : ℕ} (hstake : MIN_VALIDATOR_STAKE.toNat ≤ stake) :
    admitted (l.filter (fun v => MIN_VALIDATOR_STAKE ≤ v.stakeWei)) stake = admitted l stake := by
  have hsame : (l.filter (fun v => MIN_VALIDATOR_STAKE ≤ v.stakeWei)).filter
      (fun v => v.stake = stake) = l.filter (fun v => v.stake = stake) := by
    rw [List.filter_filter]
    apply List.filter_congr
    intro v _
    have himp : v.stake = stake → MIN_VALIDATOR_STAKE ≤ v.stakeWei := by
      intro heq
      exact BitVec.le_def.mpr (hstake.trans_eq heq.symm)
    simpa using himp
  have hmore : (l.filter (fun v => MIN_VALIDATOR_STAKE ≤ v.stakeWei)).filter
      (fun v => stake < v.stake) = l.filter (fun v => stake < v.stake) := by
    rw [List.filter_filter]
    apply List.filter_congr
    intro v _
    have himp : stake < v.stake → MIN_VALIDATOR_STAKE ≤ v.stakeWei := by
      intro hlt
      exact BitVec.le_def.mpr (hstake.trans hlt.le)
    simpa using himp
  rw [admitted, admitted, hsame, hmore]

theorem admitted_ineligible {stake : ℕ} (hstake : stake < MIN_VALIDATOR_STAKE.toNat) :
    admitted (l.filter (fun v => MIN_VALIDATOR_STAKE ≤ v.stakeWei)) stake = [] := by
  have hnone : (l.filter (fun v => MIN_VALIDATOR_STAKE ≤ v.stakeWei)).filter
      (fun v => v.stake = stake) = [] := by
    rw [List.filter_eq_nil_iff]
    intro v hv heq
    have hmin : MIN_VALIDATOR_STAKE.toNat ≤ v.stake :=
      BitVec.le_def.mp (of_decide_eq_true (List.mem_filter.mp hv).2)
    rw [of_decide_eq_true heq] at hmin
    exact absurd hmin (Nat.not_le.mpr hstake)
  rw [admitted, hnone, List.take_nil]

/-- Two orders of the candidates lead to the same validators exactly where they put the
admitted candidates of each stake in the same order. -/
theorem rotate_validators_eq_iff (P : Platform) (m : EpochManager) (stateRoot : H256)
    (hperm : l.Perm l') :
    ((m.updateCandidates l).rotate P stateRoot).1.current.validators =
        ((m.updateCandidates l').rotate P stateRoot).1.current.validators ↔
      TiesOrderedAlike l l' := by
  by_cases hempty : l = []
  · subst hempty
    rw [List.nil_perm.mp hperm]
    exact iff_of_true rfl (fun _ _ => rfl)
  · have hempty' : l' ≠ [] := by
      rintro rfl
      exact hempty hperm.eq_nil
    have hcand : (m.updateCandidates l).candidates =
        l.filter (fun v => MIN_VALIDATOR_STAKE ≤ v.stakeWei) := by
      rw [candidates, if_neg (by simpa [updateCandidates] using hempty)]
      rfl
    have hcand' : (m.updateCandidates l').candidates =
        l'.filter (fun v => MIN_VALIDATOR_STAKE ≤ v.stakeWei) := by
      rw [candidates, if_neg (by simpa [updateCandidates] using hempty')]
      rfl
    have heligible := hperm.filter (fun v => decide (MIN_VALIDATOR_STAKE ≤ v.stakeWei))
    simp only [rotate, EpochState.new, hcand, hcand']
    rw [StableSort.take_sortDesc_eq_iff heligible]
    have hrooms : ∀ stake, ((l.filter (fun v => MIN_VALIDATOR_STAKE ≤ v.stakeWei)).filter
        (fun v => stake < v.stake)).length =
        ((l'.filter (fun v => MIN_VALIDATOR_STAKE ≤ v.stakeWei)).filter
        (fun v => stake < v.stake)).length := fun stake => (heligible.filter _).length_eq
    constructor
    · intro heq stake hstake
      have hs := heq stake
      rw [← admitted_eligible hstake, ← admitted_eligible (l := l') hstake, admitted, hs, hrooms]
      rfl
    · intro hties stake
      have hs : admitted (l.filter (fun v => MIN_VALIDATOR_STAKE ≤ v.stakeWei)) stake =
          admitted (l'.filter (fun v => MIN_VALIDATOR_STAKE ≤ v.stakeWei)) stake := by
        by_cases hstake : MIN_VALIDATOR_STAKE.toNat ≤ stake
        · rw [admitted_eligible hstake, admitted_eligible hstake, hties stake hstake]
        · rw [admitted_ineligible (Nat.not_le.mp hstake), admitted_ineligible (Nat.not_le.mp hstake)]
      rw [admitted, admitted, ← hrooms] at hs
      exact hs

/-- An epoch transition is the same for two orders of the candidates exactly where they put
the admitted candidates of each stake in the same order. -/
theorem transition_eq_iff (hperm : l.Perm l') :
    (((m.updateCandidates l).onBlockCommitted P m.current.endBlock stateRoot).1.current.validators =
        ((m.updateCandidates l').onBlockCommitted P m.current.endBlock stateRoot).1.current.validators ∧
      ((m.updateCandidates l).onBlockCommitted P m.current.endBlock stateRoot).1.current.validatorHash =
        ((m.updateCandidates l').onBlockCommitted P m.current.endBlock
          stateRoot).1.current.validatorHash) ↔
      TiesOrderedAlike l l' := by
  have hlast : (m.updateCandidates l).onBlockCommitted P m.current.endBlock stateRoot =
      (m.updateCandidates l).rotate P stateRoot := onBlockCommitted_last (m := m.updateCandidates l)
  have hlast' : (m.updateCandidates l').onBlockCommitted P m.current.endBlock stateRoot =
      (m.updateCandidates l').rotate P stateRoot := onBlockCommitted_last (m := m.updateCandidates l')
  rw [hlast, hlast', ← rotate_validators_eq_iff P m stateRoot hperm]
  constructor
  · exact And.left
  · intro heq
    exact ⟨heq,congrArg (EpochState.computeValidatorHash P) heq⟩

/-- No order of the candidates matters exactly where each stake that leaves room for anybody
is the stake of one of them at most. -/
theorem every_order_alike_iff (hnodup : l.Nodup) :
    (∀ l', l.Perm l' → TiesOrderedAlike l l') ↔
      ∀ stake, MIN_VALIDATOR_STAKE.toNat ≤ stake →
        (l.filter (fun v => v.stake = stake)).length ≤ 1 ∨
          MAX_VALIDATORS ≤ (l.filter (fun v => stake < v.stake)).length := by
  constructor
  · intro halike stake hstake
    have hback := halike l.reverse (List.reverse_perm l).symm stake hstake
    rw [admitted, admitted, List.filter_reverse, List.filter_reverse, List.length_reverse] at hback
    by_contra hties
    obtain ⟨hmany,hroom⟩ := not_or.mp hties
    -- the first and the last of one stake change places in the reversed list
    have hn := hnodup.filter (fun v => decide (v.stake = stake))
    obtain ⟨r,hr⟩ := Nat.exists_eq_succ_of_ne_zero (Nat.sub_ne_zero_of_lt (Nat.not_le.mp hroom))
    rw [hr] at hback
    cases hties : l.filter (fun v => v.stake = stake) with
    | nil => exact hmany (by rw [hties]; exact Nat.zero_le 1)
    | cons a rest =>
      rw [hties] at hmany hn hback
      cases hlast : rest.reverse with
      | nil =>
        rw [List.reverse_eq_nil_iff.mp hlast] at hmany
        exact hmany (le_refl 1)
      | cons b front =>
        rw [List.reverse_cons, hlast] at hback
        have hab : a = b := (List.cons.inj hback).1
        have hb : b ∈ rest := List.mem_reverse.mp (hlast ▸ List.mem_cons_self)
        exact (List.nodup_cons.mp hn).1 (hab ▸ hb)
  · intro hfew l' hperm stake hstake
    have hrooms : (l'.filter (fun v => stake < v.stake)).length =
        (l.filter (fun v => stake < v.stake)).length := (hperm.filter _).length_eq.symm
    rcases hfew stake hstake with hone | hfull
    · have heq : l.filter (fun v => v.stake = stake) = l'.filter (fun v => v.stake = stake) := by
        have hfilter := hperm.filter (fun v => decide (v.stake = stake))
        cases hties : l.filter (fun v => v.stake = stake) with
        | nil =>
          rw [hties] at hfilter
          exact (List.nil_perm.mp hfilter).symm
        | cons a rest =>
          rw [hties] at hone hfilter
          have hrest : rest = [] := List.length_eq_zero_iff.mp (Nat.le_zero.mp (Nat.le_of_succ_le_succ hone))
          rw [hrest] at hfilter ⊢
          exact List.singleton_perm.mp hfilter
      rw [admitted, admitted, heq, hrooms]
    · rw [admitted, admitted, hrooms, Nat.sub_eq_zero_of_le hfull, List.take_zero, List.take_zero]

section Candidates

def demoValidator (address : Address) (stakeWei : BitVec 128) : ValidatorEntry := ⟨address,stakeWei,[]⟩

def demoManager : EpochManager :=
  EpochManager.new Platform.integers [demoValidator 9 MIN_VALIDATOR_STAKE] 10

/-- Different stakes: both orders lead to the same set. -/
theorem transition_eq_different_stakes :
    ((demoManager.updateCandidates [demoValidator 1 MIN_VALIDATOR_STAKE,
          demoValidator 2 (2 * MIN_VALIDATOR_STAKE)]).onBlockCommitted Platform.integers
        demoManager.current.endBlock 0).1.current.validators =
      ((demoManager.updateCandidates [demoValidator 2 (2 * MIN_VALIDATOR_STAKE),
          demoValidator 1 MIN_VALIDATOR_STAKE]).onBlockCommitted Platform.integers
        demoManager.current.endBlock 0).1.current.validators := by
  refine ((transition_eq_iff (P := Platform.integers) (m := demoManager)
    (List.Perm.swap _ _ [])).mpr ?_).1
  apply (every_order_alike_iff (by decide)).mpr _ _ (List.Perm.swap _ _ [])
  intro stake _
  left
  by_cases h : stake = MIN_VALIDATOR_STAKE.toNat
  · subst h
    decide
  · have hone : (demoValidator 1 MIN_VALIDATOR_STAKE).stake ≠ stake := Ne.symm h
    simp only [List.filter_cons, decide_eq_true_eq, if_neg hone]
    split <;> simp

/-- Two candidates with the minimum stake come out in the order they went in. -/
theorem equal_stakes_keep_order :
    ¬ ∀ (P : Platform) (m : EpochManager) (l l' : List ValidatorEntry) (stateRoot : H256),
      l.Perm l' → (l.map ValidatorEntry.address).Nodup →
      ((m.updateCandidates l).onBlockCommitted P m.current.endBlock stateRoot).1.current.validators =
          ((m.updateCandidates l').onBlockCommitted P m.current.endBlock
            stateRoot).1.current.validators ∧
        ((m.updateCandidates l).onBlockCommitted P m.current.endBlock
            stateRoot).1.current.validatorHash =
          ((m.updateCandidates l').onBlockCommitted P m.current.endBlock
            stateRoot).1.current.validatorHash := by
  intro hclaim
  have hsame := hclaim Platform.integers demoManager
    [demoValidator 1 MIN_VALIDATOR_STAKE,demoValidator 2 MIN_VALIDATOR_STAKE]
    [demoValidator 2 MIN_VALIDATOR_STAKE,demoValidator 1 MIN_VALIDATOR_STAKE] 0
    (List.Perm.swap _ _ []) (by decide)
  exact absurd hsame.1 (by decide)

end Candidates

end EpochManager

end ZbxChain
