import ZbxChain.Crypto.Platform
import ZbxChain.Foundation.Table

/-! # Votes, quorum certificates, vote accumulators and equivocation evidence

The errors of the consensus carry the texts of the source.
-/
namespace ZbxChain

inductive ConsensusError where
  | safetyViolation (reason : String)
  | staleRound (got locked : UInt64)
  | invalidProposer (round : UInt64)
  | duplicateVote (voter : String)
  | staleProposal (proposalRound highestQc : UInt64)
  | invalidTimeoutCertificate
  | equivocation (round : UInt64) (seen attempted : H256)
  | remoteEquivocation (validator : Address) (round : UInt64) (phase : UInt8) (hashA hashB : H256)
  | invalidQC (round : UInt64)
  | invalidMessage (reason : String)
  | invalidEpoch (expected got : UInt64)
  deriving DecidableEq

namespace Address

def nibbles (a : Address) : List ℕ :=
  a.asBytes.flatMap (fun b => [b.toNat / 16, b.toNat % 16])

/-- EIP-55: a letter is upper-case where the hash of the lower-case text has a
hex digit of at least 8. -/
def toChecksum (P : Platform) (a : Address) : String :=
  let hex := a.nibbles.map Nat.digitChar
  let hashNibbles := (P.keccak256 (hex.map (fun c => UInt8.ofNat c.toNat))).asBytes.flatMap
    (fun b => [b.toNat / 16, b.toNat % 16])
  "0x" ++ String.ofList ((hex.zip hashNibbles).map
    (fun p => if p.1.isAlpha ∧ 8 ≤ p.2 then p.1.toUpper else p.1))

/-- `{:?}` of an address. -/
def debug (P : Platform) (a : Address) : String := "Address(" ++ a.toChecksum P ++ ")"

end Address

/-- What a validator signs when it votes. -/
structure VoteData where
  blockHash : H256
  blockNumber : UInt64
  phase : UInt8
  epoch : UInt64
  deriving DecidableEq

def VoteData.signingBytes (d : VoteData) : List UInt8 :=
  d.blockHash.asBytes ++ beBytes64 d.blockNumber ++ [d.phase] ++ beBytes64 d.epoch

def VoteData.signingHash (P : Platform) (d : VoteData) : H256 := P.keccak256 d.signingBytes

structure Vote where
  data : VoteData
  voter : Address
  signature : BlsSignature
  deriving DecidableEq

structure QuorumCertificate where
  voteData : VoteData
  aggSignature : BlsSignature
  signers : List Address
  signerPubkeys : List BlsPubKey
  deriving DecidableEq

namespace QuorumCertificate

def blockHash (qc : QuorumCertificate) : H256 := qc.voteData.blockHash
def blockNumber (qc : QuorumCertificate) : UInt64 := qc.voteData.blockNumber
def phase (qc : QuorumCertificate) : UInt8 := qc.voteData.phase

/-- An empty key list is taken for the genesis certificate and accepted. -/
def verify (P : Platform) (qc : QuorumCertificate) : Bool :=
  if qc.signerPubkeys.isEmpty then true
  else P.verifyAggregate qc.aggSignature qc.signerPubkeys (qc.voteData.signingHash P)

end QuorumCertificate

/-- Collects the votes for one `VoteData` until there are `quorum` of them. -/
structure VoteAccumulator where
  data : VoteData
  votes : Table Address (Vote × BlsPubKey)
  quorum : ℕ
  deriving DecidableEq

namespace VoteAccumulator

def new (data : VoteData) (quorum : ℕ) : VoteAccumulator := ⟨data,∅,quorum⟩

def formQc (P : Platform) (acc : VoteAccumulator) : QuorumCertificate :=
  let entries := P.iterOrder acc.votes.values
  { voteData := acc.data
    aggSignature := (P.aggregateSignatures (entries.map (·.1.signature))).getD 0
    signers := entries.map (·.1.voter)
    signerPubkeys := entries.map (·.2) }

def addVote (P : Platform) (acc : VoteAccumulator) (vote : Vote) (pubkey : BlsPubKey) :
    VoteAccumulator × Except ConsensusError (Option QuorumCertificate) :=
  if vote.data ≠ acc.data then (acc, .ok none)
  else if (acc.votes.lookup vote.voter).isSome then
    (acc, .error (.duplicateVote (vote.voter.debug P)))
  else if ¬ P.verifySingle vote.signature pubkey (vote.data.signingHash P) then (acc, .ok none)
  else
    let acc' := { acc with votes := acc.votes.insert vote.voter (vote,pubkey) }
    if acc'.quorum ≤ acc'.votes.len then (acc', .ok (some (acc'.formQc P))) else (acc', .ok none)

/-- What `addVote` counts: a first vote of its voter, for the data collected, that verifies. -/
def Counts (P : Platform) (acc : VoteAccumulator) (vote : Vote) (pubkey : BlsPubKey) : Prop :=
  vote.data = acc.data ∧ acc.votes.lookup vote.voter = none ∧
    P.verifySingle vote.signature pubkey (vote.data.signingHash P) = true

def record (acc : VoteAccumulator) (vote : Vote) (pubkey : BlsPubKey) : VoteAccumulator :=
  { acc with votes := acc.votes.insert vote.voter (vote,pubkey) }

/-- Each vote stands under its voter and is for the data collected. -/
def Keyed (acc : VoteAccumulator) : Prop :=
  ∀ a v pk, acc.votes.lookup a = some (v,pk) → v.voter = a ∧ v.data = acc.data

variable {P : Platform} {acc : VoteAccumulator} {vote : Vote} {pubkey : BlsPubKey}

@[simp] theorem record_data : (acc.record vote pubkey).data = acc.data := rfl
@[simp] theorem record_quorum : (acc.record vote pubkey).quorum = acc.quorum := rfl

/-- A vote that counts is recorded, and may complete a certificate. -/
theorem addVote_of_counts (h : acc.Counts P vote pubkey) :
    acc.addVote P vote pubkey = (acc.record vote pubkey,
      .ok (if acc.quorum ≤ acc.votes.len + 1 then some ((acc.record vote pubkey).formQc P)
        else none)) := by
  obtain ⟨hdata,hnew,hsig⟩ := h
  have hlen : (acc.votes.insert vote.voter (vote,pubkey)).len = acc.votes.len + 1 :=
    AList.len_insert hnew
  unfold addVote
  rw [if_neg (not_not.mpr hdata), hnew]
  simp only [Option.isSome_none, Bool.false_eq_true, ↓reduceIte, hsig, not_true_eq_false, hlen]
  split
  · rfl
  · rfl

theorem addVote_of_not_counts (h : ¬ acc.Counts P vote pubkey) :
    (acc.addVote P vote pubkey).1 = acc ∧
      ∀ qc, (acc.addVote P vote pubkey).2 ≠ .ok (some qc) := by
  unfold addVote
  by_cases hdata : vote.data = acc.data
  · rw [if_neg (not_not.mpr hdata)]
    cases hnew : acc.votes.lookup vote.voter with
    | some entry => exact ⟨rfl,fun _ => nofun⟩
    | none =>
      have hsig : ¬ P.verifySingle vote.signature pubkey (vote.data.signingHash P) = true :=
        fun hsig => h ⟨hdata,hnew,hsig⟩
      simp only [Option.isSome_none, Bool.false_eq_true, ↓reduceIte, hsig, not_false_eq_true]
      exact ⟨trivial,fun _ => nofun⟩
  · rw [if_pos hdata]
    exact ⟨rfl,fun _ => nofun⟩

theorem addVote_spec (acc : VoteAccumulator)
    (hsig : P.verifySingle vote.signature pubkey (vote.data.signingHash P) = true) :
    (acc.addVote P vote pubkey).1.data = acc.data ∧
      (acc.addVote P vote pubkey).1.quorum = acc.quorum ∧
      (acc.addVote P vote pubkey).1.votes.keySet =
        if vote.data = acc.data then insert vote.voter acc.votes.keySet else acc.votes.keySet := by
  by_cases hcounts : acc.Counts P vote pubkey
  · rw [addVote_of_counts hcounts, if_pos hcounts.1]
    exact ⟨rfl,rfl,AList.keySet_insert⟩
  · rw [(addVote_of_not_counts hcounts).1]
    refine ⟨rfl,rfl,?_⟩
    split
    · rename_i hdata
      have hvoted : vote.voter ∈ acc.votes.keySet := by
        by_contra hnew
        rw [AList.mem_keySet] at hnew
        exact hcounts ⟨hdata,Option.eq_none_iff_forall_ne_some.mpr (fun v hv => hnew ⟨v,hv⟩),hsig⟩
      exact (Finset.insert_eq_of_mem hvoted).symm
    · rfl

@[simp] theorem voteData_formQc : (acc.formQc P).voteData = acc.data := rfl

theorem mem_signers_formQc (h : acc.Keyed) {a : Address} :
    a ∈ (acc.formQc P).signers ↔ a ∈ acc.votes.keySet := by
  simp only [formQc, List.mem_map, P.mem_iterOrder, AList.mem_values, AList.mem_keySet]
  constructor
  · rintro ⟨⟨v,pk⟩,⟨k,hk⟩,rfl⟩
    exact ⟨(v,pk),(h k v pk hk).1 ▸ hk⟩
  · rintro ⟨⟨v,pk⟩,hk⟩
    exact ⟨(v,pk),⟨a,hk⟩,(h a v pk hk).1⟩

/-- A certificate has as many signers as votes. -/
theorem card_signers_formQc (h : acc.Keyed) :
    (acc.formQc P).signers.toFinset.card = acc.votes.len := by
  have hset : (acc.formQc P).signers.toFinset = acc.votes.keySet := by
    ext a
    rw [List.mem_toFinset, mem_signers_formQc h]
  rw [hset, AList.card_keySet]

end VoteAccumulator

structure EquivocationEvidence where
  validator : Address
  round : UInt64
  phase : UInt8
  voteA : Vote
  voteB : Vote
  pubkey : BlsPubKey

namespace EquivocationEvidence

/-- The structural checks of `verify`: one validator, one round, one phase, two hashes. -/
def conflicting (ev : EquivocationEvidence) : Bool :=
  !(ev.voteA.voter != ev.voteB.voter
    || ev.voteA.voter != ev.validator
    || ev.voteA.data.blockNumber != ev.voteB.data.blockNumber
    || ev.voteA.data.phase != ev.voteB.data.phase
    || ev.voteA.data.blockHash == ev.voteB.data.blockHash
    || ev.voteA.data.blockNumber != ev.round
    || ev.voteA.data.phase != ev.phase)

def verify (P : Platform) (ev : EquivocationEvidence) : Bool :=
  if !ev.conflicting then false
  else P.verifySingle ev.voteA.signature ev.pubkey (ev.voteA.data.signingHash P)
    && P.verifySingle ev.voteB.signature ev.pubkey (ev.voteB.data.signingHash P)

end EquivocationEvidence

end ZbxChain
