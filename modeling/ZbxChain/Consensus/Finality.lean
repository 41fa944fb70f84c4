import ZbxChain.Consensus.Coordinator
import ZbxChain.Consensus.EpochManager
import ZbxChain.Foundation.Quorum

/-! # The finality tracker, and the quorums of the consensus crate compared

Four places compute a quorum. The validator set and the epoch take two thirds of the
members and one more; the coordinator and the tracker take twice the tolerated faults and
one more, which is the same number only where the count is one more than a multiple of three.
-/
namespace ZbxChain

def EpochState.quorum (s : EpochState) : ℕ := s.validators.length * 2 / 3 + 1

namespace Finality

structure Checkpoint where
  blockNumber : UInt64
  blockHash : H256
  epoch : UInt64
  finalized : Bool
  votes : UInt32
  required : UInt32
  signers : List Address
  deriving DecidableEq

namespace Checkpoint

def new (block : UInt64) (hash : H256) (epoch : UInt64) (required : UInt32) : Checkpoint :=
  ⟨block,hash,epoch,false,0,required,[]⟩

def addVote (cp : Checkpoint) (signer : Address) : Checkpoint × Bool :=
  if signer ∈ cp.signers then (cp,false)
  else
    let votes := cp.votes + 1
    let finalized := cp.finalized || decide (cp.required ≤ votes)
    ({ cp with signers := cp.signers ++ [signer], votes := votes, finalized := finalized },finalized)

/-- The votes are by distinct signers, and a final checkpoint has the required number of them. -/
structure Counted (cp : Checkpoint) : Prop where
  nodup : cp.signers.Nodup
  votes_le : cp.votes.toNat ≤ cp.signers.length
  enough : cp.finalized = true → cp.required.toNat ≤ cp.signers.length

theorem counted_new (block : UInt64) (hash : H256) (epoch : UInt64) (required : UInt32) :
    (new block hash epoch required).Counted :=
  ⟨List.nodup_nil,le_rfl,by simp [new]⟩

theorem Counted.addVote {cp : Checkpoint} (h : cp.Counted) (signer : Address) :
    (cp.addVote signer).1.Counted ∧ (cp.addVote signer).1.required = cp.required := by
  unfold Checkpoint.addVote
  split
  · exact ⟨h,rfl⟩
  · rename_i hfresh
    have hvotes : (cp.votes + 1).toNat ≤ cp.signers.length + 1 := by
      have hle := h.votes_le
      rw [UInt32.toNat_add]
      exact (Nat.mod_le _ _).trans (Nat.add_le_add_right hle 1)
    refine ⟨⟨?_,?_,?_⟩,rfl⟩
    · simpa [List.nodup_append] using ⟨h.nodup,fun a ha heq => hfresh (heq ▸ ha)⟩
    · simpa using hvotes
    · intro hfinal
      simp only [List.length_append, List.length_singleton]
      rcases Bool.or_eq_true_iff.mp hfinal with hbefore | hnow
      · exact (h.enough hbefore).trans (Nat.le_succ _)
      · exact (UInt32.le_iff_toNat_le.mp (of_decide_eq_true hnow)).trans hvotes

theorem mem_addVote {cp : Checkpoint} {signer signer' : Address} (h : signer' ∈ (cp.addVote signer).1.signers) :
    signer' ∈ cp.signers ∨ signer' = signer := by
  unfold addVote at h
  split at h
  · exact .inl h
  · simpa using h

theorem finalized_addVote {cp : Checkpoint} {signer : Address} (h : (cp.addVote signer).2 = true) :
    (cp.addVote signer).1.finalized = true := by
  unfold addVote at h ⊢
  split at h
  · cases h
  · rename_i hfresh
    rwa [if_neg hfresh]

end Checkpoint

structure FinalityTracker where
  checkpoints : Table UInt64 Checkpoint
  lastFinalized : UInt64
  finalizedHash : H256
  epochLength : UInt64
  validatorCount : UInt32

namespace FinalityTracker

def new (epochLength : UInt64) (validatorCount : UInt32) : FinalityTracker :=
  ⟨∅,0,.zero,epochLength,validatorCount⟩

def requiredVotes (t : FinalityTracker) : UInt32 :=
  2 * ((if t.validatorCount = 0 then 0 else t.validatorCount - 1) / 3) + 1

/-- `on_block`; `none` where the source panics on a division by zero. -/
def onBlock (t : FinalityTracker) (number : UInt64) (hash : H256) : Option FinalityTracker :=
  if t.epochLength = 0 then none
  else some { t with
    checkpoints := t.checkpoints.insert number
      (.new number hash (number / t.epochLength) t.requiredVotes) }

def onVote (t : FinalityTracker) (block : UInt64) (signer : Address) : FinalityTracker × Bool :=
  match t.checkpoints.lookup block with
  | none => (t,false)
  | some cp =>
    let voted := cp.addVote signer
    let t := { t with checkpoints := t.checkpoints.insert block voted.1 }
    if voted.2 = true ∧ t.lastFinalized < block then
      ({ t with
        lastFinalized := block
        finalizedHash := voted.1.blockHash
        checkpoints := t.checkpoints.retain (fun n _ => decide (block ≤ n)) },true)
    else (t,false)

/-- A block is produced, or a vote for one comes in. -/
inductive TrackerCall where
  | onBlock (number : UInt64) (hash : H256)
  | onVote (block : UInt64) (signer : Address)
  deriving DecidableEq

/-- One call, with the block that it finalizes. Where the source panics, nothing is done. -/
def serve (t : FinalityTracker) : TrackerCall → FinalityTracker × Option UInt64
  | .onBlock number hash => ((t.onBlock number hash).getD t,none)
  | .onVote block signer =>
    ((t.onVote block signer).1,if (t.onVote block signer).2 then some block else none)

theorem toNat_requiredVotes (t : FinalityTracker) :
    t.requiredVotes.toNat = 2 * ((t.validatorCount.toNat - 1) / 3) + 1 := by
  have hlt := t.validatorCount.toNat_lt
  unfold requiredVotes
  split
  · rename_i hzero
    simp [hzero]
  · rename_i hpos
    have hne : t.validatorCount.toNat ≠ 0 := fun h => hpos (UInt32.toNat_inj.mp h)
    have hsub : (t.validatorCount - 1).toNat = t.validatorCount.toNat - 1 := by
      rw [UInt32.toNat_sub]
      simp only [UInt32.reduceToNat]
      omega
    simp only [UInt32.toNat_add, UInt32.toNat_mul, UInt32.toNat_div, hsub, UInt32.reduceToNat]
    omega

abbrev TrackerEntry := Machine.Entry FinalityTracker TrackerCall (Option UInt64)

theorem onVote_final {t : FinalityTracker} {block : UInt64} {signer : Address} {cp : Checkpoint}
    (hlookup : t.checkpoints.lookup block = some cp)
    (hfinal : (cp.addVote signer).2 = true ∧ t.lastFinalized < block) :
    t.onVote block signer = ({ t with
      lastFinalized := block
      finalizedHash := (cp.addVote signer).1.blockHash
      checkpoints := (t.checkpoints.insert block (cp.addVote signer).1).retain (fun n _ => decide (block ≤ n)) },true) := by
  rw [onVote, hlookup]
  exact if_pos hfinal

section Runs
variable {past : List TrackerEntry} {t : FinalityTracker}

def finalized (past : List TrackerEntry) : List UInt64 :=
  past.filterMap Machine.Entry.output

def VotedFor (past : List TrackerEntry) (block : UInt64)
    (signers : List Address) : Prop := ∀ signer ∈ signers, ∃ e ∈ past, e.call = .onVote block signer

/-- Votes for the block came from so many different signers. -/
def Backed (past : List TrackerEntry) (required : ℕ) (block : UInt64) :
    Prop := ∃ signers : List Address, signers.Nodup ∧ required ≤ signers.length ∧ VotedFor past block signers

/-- What holds after every run: the checkpoints hold the votes there were, and a finalized block is
above those before it. -/
structure Told (required : UInt32) (past : List TrackerEntry)
    (t : FinalityTracker) : Prop where
  quorum : t.requiredVotes = required
  checkpoints : ∀ block cp, t.checkpoints.lookup block = some cp →
    cp.Counted ∧ cp.required = required ∧ VotedFor past block cp.signers
  ascending : (finalized past).Pairwise (· < ·)
  last : ∀ block ∈ finalized past, block ≤ t.lastFinalized
  backed : ∀ block ∈ finalized past, Backed past required.toNat block

theorem VotedFor.snoc {block : UInt64} {signers : List Address} (h : VotedFor past block signers)
    (e : TrackerEntry) : VotedFor (past ++ [e]) block signers :=
  fun signer hsigner => by
    obtain ⟨e',he',hcall⟩ := h signer hsigner
    exact ⟨e',List.mem_append_left _ he',hcall⟩

theorem Backed.snoc {required : ℕ} {block : UInt64} (h : Backed past required block)
    (e : TrackerEntry) : Backed (past ++ [e]) required block := by
  obtain ⟨signers,hnodup,hrequired,hvoted⟩ := h
  exact ⟨signers,hnodup,hrequired,hvoted.snoc e⟩

variable {required : UInt32}

theorem Told.kept (h : Told required past t) {block : UInt64} {cp : Checkpoint}
    (hlookup : t.checkpoints.lookup block = some cp) (e : TrackerEntry) :
    cp.Counted ∧ cp.required = required ∧ VotedFor (past ++ [e]) block cp.signers := by
  obtain ⟨hcounted,hrequired,hvoted⟩ := h.checkpoints block cp hlookup
  exact ⟨hcounted,hrequired,hvoted.snoc e⟩

/-- A call that finalizes nothing. -/
theorem Told.silent (h : Told required past t) {e : TrackerEntry}
    {t' : FinalityTracker} (hout : e.output = none) (hcount : t'.requiredVotes = t.requiredVotes)
    (hlast : t'.lastFinalized = t.lastFinalized)
    (hcheckpoints : ∀ block cp, t'.checkpoints.lookup block = some cp →
      cp.Counted ∧ cp.required = required ∧ VotedFor (past ++ [e]) block cp.signers) :
    Told required (past ++ [e]) t' := by
  have hsame : finalized (past ++ [e]) = finalized past := by simp [finalized, List.filterMap_append, hout]
  refine ⟨hcount.trans h.quorum,hcheckpoints,hsame ▸ h.ascending,?_,?_⟩
  · rw [hsame, hlast]
    exact h.last
  · rw [hsame]
    exact fun block hblock => (h.backed block hblock).snoc e

theorem Told.step (h : Told required past t) (call : TrackerCall) :
    Told required (past ++ [⟨t,call,(t.serve call).2⟩]) (t.serve call).1 := by
  cases call with
  | onBlock number hash =>
    refine h.silent rfl ?_ ?_ ?_
    · simp only [serve, onBlock]
      split
      · rfl
      · rfl
    · simp only [serve, onBlock]
      split
      · rfl
      · rfl
    · intro block cp hcp
      simp only [serve, onBlock] at hcp
      split at hcp
      · exact h.kept hcp _
      · rcases AList.lookup_insert_some hcp with ⟨-,rfl⟩ | ⟨-,hold⟩
        · exact ⟨Checkpoint.counted_new ..,h.quorum,nofun⟩
        · exact h.kept hold _
  | onVote block signer =>
    cases hlookup : t.checkpoints.lookup block with
    | none =>
      have hvote : t.onVote block signer = (t,false) := by rw [onVote, hlookup]
      simp only [serve, hvote]
      exact h.silent rfl rfl rfl fun block' cp' hcp' => h.kept hcp' _
    | some cp =>
      obtain ⟨hcounted,hrequired,hvoted⟩ := h.checkpoints block cp hlookup
      have hadded : ∀ e : TrackerEntry, e.call = .onVote block signer → ∀ block' cp',
          (t.checkpoints.insert block (cp.addVote signer).1).lookup block' = some cp' →
            cp'.Counted ∧ cp'.required = required ∧ VotedFor (past ++ [e]) block' cp'.signers := by
        intro e he block' cp' hcp'
        rcases AList.lookup_insert_some hcp' with ⟨rfl,rfl⟩ | ⟨-,hold⟩
        · refine ⟨(hcounted.addVote signer).1,(hcounted.addVote signer).2.trans hrequired,?_⟩
          intro signer' hsigner'
          rcases Checkpoint.mem_addVote hsigner' with hsigner' | rfl
          · exact hvoted.snoc e signer' hsigner'
          · exact ⟨e,List.mem_append_right _ (List.mem_singleton_self e),he⟩
        · exact h.kept hold e
      by_cases hfinal : (cp.addVote signer).2 = true ∧ t.lastFinalized < block
      · have hvote := onVote_final hlookup hfinal
        simp only [serve, hvote, if_true]
        have hblocks : finalized (past ++ [⟨t,.onVote block signer,some block⟩]) = finalized past ++ [block] := by
          simp [finalized, List.filterMap_append]
        have hbelow : ∀ b ∈ finalized past, b < block := fun b hb =>
          UInt64.lt_of_le_of_lt (h.last b hb) hfinal.2
        refine ⟨h.quorum,fun block' cp' hcp' => hadded _ rfl block' cp' (AList.lookup_retain.mp hcp').1,?_,?_,?_⟩
        · rw [hblocks]
          exact List.pairwise_append.mpr ⟨h.ascending,List.pairwise_singleton _ _,fun b hb b' hb' =>
            List.mem_singleton.mp hb' ▸ hbelow b hb⟩
        · rw [hblocks]
          intro b hb
          rcases List.mem_append.mp hb with hb | hb
          · exact UInt64.le_of_lt (hbelow b hb)
          · exact List.mem_singleton.mp hb ▸ UInt64.le_refl _
        · rw [hblocks]
          intro b hb
          rcases List.mem_append.mp hb with hb | hb
          · exact (h.backed b hb).snoc _
          · rw [List.mem_singleton.mp hb]
            obtain ⟨hcounted',hrequired',hvoted'⟩ := hadded ⟨t,.onVote block signer,some block⟩ rfl block
              (cp.addVote signer).1 (AList.lookup_insert _)
            exact ⟨_,hcounted'.nodup,hrequired' ▸ hcounted'.enough (Checkpoint.finalized_addVote hfinal.1),hvoted'⟩
      · have hvote : t.onVote block signer =
            ({ t with checkpoints := t.checkpoints.insert block (cp.addVote signer).1 },false) := by
          rw [onVote, hlookup]
          exact if_neg hfinal
        simp only [serve, hvote]
        exact h.silent rfl rfl rfl fun block' cp' hcp' => hadded _ rfl block' cp' hcp'

/-- Finalized blocks go up, and behind each are the votes of a quorum of different signers. -/
theorem finalized_ascending (epochLength : UInt64) (validatorCount : UInt32) (calls : List TrackerCall) :
    let run := Machine.history serve (.new epochLength validatorCount) calls
    (finalized run).Pairwise (· < ·) ∧
      ∀ block ∈ finalized run, Backed run (2 * ((validatorCount.toNat - 1) / 3) + 1) block := by
  have htold : Told (FinalityTracker.new epochLength validatorCount).requiredVotes []
      (.new epochLength validatorCount) := ⟨rfl,by simp [FinalityTracker.new],List.Pairwise.nil,nofun,nofun⟩
  have hrun := Machine.trace_invariant serve (G := fun _ _ => True) htold (fun past t call h _ => h.step call) calls
    fun _ _ => trivial
  refine ⟨hrun.ascending,fun block hblock => ?_⟩
  have hbacked := hrun.backed block hblock
  rwa [toNat_requiredVotes] at hbacked

end Runs

end FinalityTracker

end Finality

theorem Coordinator.PacemakerCoordinator.quorum_new (P : Platform) (selfAddr : Address)
    (blsKey : BlsPrivKey) {n : UInt64} (hn : 1 ≤ n.toNat) (round epoch : UInt64)
    (config : PacemakerConfig) (now : ℕ) :
    (new P selfAddr blsKey n round epoch config now).quorum = 2 * ((n.toNat - 1) / 3) + 1 := by
  have hlt := n.toNat_lt
  have hsub : (n - 1).toNat = n.toNat - 1 := by
    rw [UInt64.toNat_sub]
    simp only [UInt64.reduceToNat]
    omega
  simp only [new, UInt64.toNat_add, UInt64.toNat_mul, UInt64.toNat_div, hsub, UInt64.reduceToNat]
  omega

open Quorum Coordinator Finality

/-- The quorums that the crate computes for `n` validators are safe ones and the same. -/
structure QuorumsSafe (n : ℕ) (vs : ValidatorSet) (s : EpochState) (c : PacemakerCoordinator) : Prop where
  validatorSet : Tolerates n vs.quorum
  epochState : Tolerates n s.quorum
  coordinator : Tolerates n c.quorum
  tracker : ∀ t : FinalityTracker, t.validatorCount.toNat = n → Tolerates n t.requiredVotes.toNat
  same : vs.quorum = s.quorum ∧ s.quorum = c.quorum ∧
    ∀ t : FinalityTracker, t.validatorCount.toNat = n → c.quorum = t.requiredVotes.toNat

/-- The four quorums are safe and the same exactly for the counts of three times some number
and one more. -/
theorem quorums_safe_iff (P : Platform) (vs : ValidatorSet) (s : EpochState) {n : UInt64}
    (hn : 1 ≤ n.toNat) (hvs : vs.validators.length = n.toNat) (hs : s.validators.length = n.toNat)
    (selfAddr : Address) (blsKey : BlsPrivKey) (round epoch : UInt64) (config : PacemakerConfig)
    (now : ℕ) :
    QuorumsSafe n.toNat vs s (.new P selfAddr blsKey n round epoch config now) ↔ n.toNat % 3 = 1 := by
  have hset : vs.quorum = 2 * n.toNat / 3 + 1 := by rw [vs.quorum_eq, hvs]
  have hepoch : s.quorum = 2 * n.toNat / 3 + 1 := by rw [EpochState.quorum, hs, Nat.mul_comm]
  have hcoord := PacemakerCoordinator.quorum_new P selfAddr blsKey hn round epoch config now
  constructor
  · intro h
    have hsafe := h.coordinator
    rw [hcoord] at hsafe
    exact (tolerates_twice_faults_iff hn).mp hsafe
  · intro hthree
    have hnarrow := (tolerates_twice_faults_iff hn).mpr hthree
    refine ⟨?_,?_,?_,?_,?_,?_,?_⟩
    · rw [hset]
      exact tolerates_supermajority hn
    · rw [hepoch]
      exact tolerates_supermajority hn
    · rwa [hcoord]
    · intro t ht
      rwa [t.toNat_requiredVotes, ht]
    · rw [hset, hepoch]
    · rw [hepoch, hcoord]
      omega
    · intro t ht
      rw [hcoord, t.toNat_requiredVotes, ht]

def demoSet (members : List Address) (h : members ≠ []) : ValidatorSet := .new members h

def demoEpoch (members : List Address) : EpochState :=
  ⟨1,1,100,members.map (fun a => ⟨a,MIN_VALIDATOR_STAKE,[]⟩),.zero,.zero⟩

theorem quorums_safe_of_four :
    QuorumsSafe 4 (demoSet [1,2,3,4] (by decide)) (demoEpoch [1,2,3,4])
      (.new .integers 1 1 4 1 0 .default 0) := by
  have hn : 1 ≤ (4 : UInt64).toNat := by decide
  exact (quorums_safe_iff .integers (demoSet [1,2,3,4] (by decide)) (demoEpoch [1,2,3,4]) hn rfl rfl
    1 1 1 0 .default 0).mpr rfl

/-- Of five validators one may be faulty: two sets of three share one member, and it may be that one. -/
theorem quorums_unsafe_of_five :
    ¬ QuorumsSafe 5 (demoSet [1,2,3,4,5] (by decide)) (demoEpoch [1,2,3,4,5])
      (.new .integers 1 1 5 1 0 .default 0) := by
  intro h
  exact absurd h.coordinator.intersects (by decide)

end ZbxChain
