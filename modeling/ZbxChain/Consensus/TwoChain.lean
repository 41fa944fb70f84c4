import ZbxChain.Consensus.HighestQc
import ZbxChain.Consensus.HotStuff

/-! # Which block the two-chain rule commits, and the requests for votes

Two certificates of consecutive rounds commit the block of the older one. The machine hands out
the proposal it has just received instead, so a run commits the right blocks just when the rule
never fires on a proposal other than the older certificate's block.

The round of a request is at most one above the highest certificate, and while it is above, the
guard remembers it. A later proposal for the same round is then equivocal, a repetition or
stale; pruning only forgets rounds at which every proposal is stale.
-/
namespace ZbxChain.HotStuff2
open Machine

section Commits
open HotStuffConsensus (demoBlock demoRules demoCertificate)

/-- Every block an entry commits is the one that `prev_qc` certified. -/
def CommitsOlder (P : Platform) (e : Step) : Prop :=
  ∀ x ∈ commits e, ∃ pqc ∈ e.before.prevQc, x.1.header.hash P = pqc.blockHash

/-- The two highest certificates are of consecutive rounds, and a proposal of the next
round that the equivocation guard lets through is not the older one's block. -/
def Misfires (P : Platform) (hs : HotStuff2) : Call → Prop
  | .proposal block justify _ =>
    justify.blockNumber = hs.highestQc.blockNumber ∧
      (∀ prevHash ∈ hs.votedAt.lookup (justify.blockNumber + 1),
        prevHash = block.header.hash P) ∧
      ∃ pqc ∈ hs.prevQc, hs.highestQc.blockNumber = pqc.blockNumber + 1 ∧
        block.header.hash P ≠ pqc.blockHash
  | _ => False

def Ordered (hs : HotStuff2) : Prop :=
  ∀ pqc ∈ hs.prevQc, pqc.blockNumber < hs.highestQc.blockNumber

variable {P : Platform} {hs hs' : HotStuff2} {block : Block} {justify qc : QuorumCertificate} {now : ℕ}

theorem Ordered.raises (h : Ordered hs) (hr : Raises hs hs') : Ordered hs' := by
  intro pqc hpqc
  rcases hr with ⟨hhigh,hprev⟩ | ⟨hlt,hprev⟩
  · rw [hprev] at hpqc
    rw [hhigh]
    exact h pqc hpqc
  · rw [hprev] at hpqc
    cases hpqc
    exact hlt

theorem ordered_run (genesisQc : QuorumCertificate) (validator : Address)
    (validators : { l : List Address // l ≠ [] }) (calls : List Call) {e : Step}
    (he : e ∈ history (step P) (new genesisQc validator validators) calls) : Ordered e.before := by
  have hstart : Ordered (new genesisQc validator validators) := fun _ h => nomatch h
  have hinv := state_invariant (step P) (G := fun _ _ => True) hstart
    (fun s call hs _ => hs.raises (raises_step call)) calls (fun _ _ => trivial)
  exact hinv.1 e he

theorem mem_commitRule {ev : Hs2Event} : ev ∈ hs.commitRule block justify ↔
    ev = .committed block justify ∧
      ∃ pqc ∈ hs.prevQc, justify.blockNumber = pqc.blockNumber + 1 := by
  unfold commitRule
  cases hs.prevQc with
  | none => simp
  | some pqc =>
    dsimp only
    split
    · rename_i hnext
      simp [hnext]
    · rename_i hnext
      simp [hnext]

theorem committedOf_eq {ev : Hs2Event} {x : Block × QuorumCertificate} :
    committedOf ev = some x ↔ ev = .committed x.1 x.2 := by
  cases ev with
  | committed block qc => simp [committedOf, Prod.ext_iff]
  | voteRequest | proposalRequired | timeoutBroadcast | newLeaderPropose => simp [committedOf]

theorem committed_mem_onProposal {b : Block} : .committed b qc ∈
      events (hs.onProposal P block justify now).2 ↔
    ¬ justify.blockNumber < hs.highestQc.blockNumber ∧
      (∀ prevHash ∈ hs.votedAt.lookup (justify.blockNumber + 1),
        prevHash = block.header.hash P) ∧
      .committed b qc ∈ hs.commitRule block justify := by
  rcases onProposal_cases P hs block justify now with
    ⟨hstale,h⟩ | ⟨hfresh,⟨prevHash,hvoted,hne,h⟩ | ⟨hvoted,h⟩ | ⟨hvoted,h⟩⟩
  · simp [h, events, hstale]
  · simp [h, events, hvoted, hne]
  · simp [h, events, hvoted, hfresh]
  · simp [h, events, hvoted, hfresh]

theorem mem_commits {e : Step} (hout : e.output = (step P e.before e.call).2)
    {x : Block × QuorumCertificate} : x ∈ commits e ↔
      (∃ now, e.call = .proposal x.1 x.2 now) ∧
        ¬ x.2.blockNumber < e.before.highestQc.blockNumber ∧
        (∀ prevHash ∈ e.before.votedAt.lookup (x.2.blockNumber + 1),
          prevHash = x.1.header.hash P) ∧
        ∃ pqc ∈ e.before.prevQc, x.2.blockNumber = pqc.blockNumber + 1 := by
  rcases step_cases P e.before e.call with
    ⟨block,justify,now,hcall⟩ | ⟨committedRound,hcall⟩ | ⟨hother,h⟩
  · rw [commits, hout, List.mem_filterMap, hcall]
    simp only [committedOf_eq, exists_eq_right, step, committed_mem_onProposal, mem_commitRule,
      Hs2Event.committed.injEq, Call.proposal.injEq]
    constructor
    · rintro ⟨hfresh,hvoted,⟨rfl,rfl⟩,hnext⟩
      exact ⟨⟨now,rfl,rfl,rfl⟩,hfresh,hvoted,hnext⟩
    · rintro ⟨⟨_,rfl,rfl,rfl⟩,hfresh,hvoted,hnext⟩
      exact ⟨hfresh,hvoted,⟨rfl,rfl⟩,hnext⟩
  · rw [commits, hout, hcall]
    simp [step, events]
  · rw [commits, hout, h.commits]
    constructor
    · intro hmem
      cases hmem
    · rintro ⟨⟨now,hcall⟩,-⟩
      exact absurd hcall (hother _ _ _)

theorem Ordered.fires (h : Ordered hs) {pqc : QuorumCertificate} (hpqc : pqc ∈ hs.prevQc) :
    ¬ qc.blockNumber < hs.highestQc.blockNumber ∧ qc.blockNumber = pqc.blockNumber + 1 ↔
      qc.blockNumber = hs.highestQc.blockNumber ∧
        hs.highestQc.blockNumber = pqc.blockNumber + 1 := by
  have hlt := h pqc hpqc
  constructor
  · rintro ⟨hfresh,hnext⟩
    have heq : qc.blockNumber = hs.highestQc.blockNumber := by
      rw [UInt64.not_lt, hnext, UInt64.le_iff_toNat_le, UInt64.toNat_add] at hfresh
      rw [hnext, ← UInt64.toNat_inj, UInt64.toNat_add]
      have hone : (1 : UInt64).toNat = 1 := rfl
      have hbound := hs.highestQc.blockNumber.toNat_lt
      rw [UInt64.lt_iff_toNat_lt] at hlt
      omega
    exact ⟨heq,heq ▸ hnext⟩
  · rintro ⟨heq,hnext⟩
    rw [heq]
    exact ⟨UInt64.lt_irrefl _,hnext⟩

theorem commitsOlder_iff {e : Step} (hout : e.output = (step P e.before e.call).2)
    (h : Ordered e.before) : CommitsOlder P e ↔ ¬ Misfires P e.before e.call := by
  constructor
  · intro holder hmis
    cases hcall : e.call with
    | proposal block justify now =>
      rw [hcall] at hmis
      obtain ⟨heq,hvoted,pqc,hpqc,hnext,hne⟩ := hmis
      obtain ⟨hfresh,hfires⟩ := (h.fires hpqc).mpr ⟨heq,hnext⟩
      have hmem : (block,justify) ∈ commits e :=
        (mem_commits hout).mpr ⟨⟨now,hcall⟩,hfresh,hvoted,pqc,hpqc,hfires⟩
      obtain ⟨pqc',hpqc',hhash⟩ := holder _ hmem
      cases Option.mem_unique hpqc hpqc'
      exact hne hhash
    | vote | timeoutShare | checkTimer | pruneVotedBelow | registerValidatorPubkey =>
      rw [hcall] at hmis
      exact hmis
  · rintro hmis ⟨block,justify⟩ hmem
    obtain ⟨⟨now,hcall⟩,hfresh,hvoted,pqc,hpqc,hfires⟩ := (mem_commits hout).mp hmem
    obtain ⟨heq,hnext⟩ := (h.fires hpqc).mp ⟨hfresh,hfires⟩
    refine ⟨pqc,hpqc,?_⟩
    by_contra hne
    rw [hcall] at hmis
    exact hmis ⟨heq,hvoted,pqc,hpqc,hnext,hne⟩

/-- A run commits the blocks of the older certificates just when no call of it misfires. -/
theorem commitsOlder_iff_neverMisfires (P : Platform) (genesisQc : QuorumCertificate)
    (validator : Address) (validators : { l : List Address // l ≠ [] }) (calls : List Call) :
    (∀ e ∈ history (step P) (new genesisQc validator validators) calls, CommitsOlder P e) ↔
      ∀ e ∈ history (step P) (new genesisQc validator validators) calls,
        ¬ Misfires P e.before e.call := by
  refine forall₂_congr ?_
  intro e he
  exact commitsOlder_iff (output_eq _ he) (ordered_run genesisQc validator validators calls he)

def demoChain : ℕ → Block
  | 0 => demoBlock 0 0 1
  | n + 1 => demoBlock ((demoChain n).header.hash .integers) (.ofNat (n + 1)) 1

def demoData (n : ℕ) : VoteData := ⟨(demoChain n).header.hash .integers,.ofNat n,0,0⟩

def demoRound (n : ℕ) : List Call :=
  [.proposal (demoChain (n + 1)) (if n = 0 then genesisQc else demoCertificate 1 (demoData n)) 0,
    .vote ((demoRules 1).ballot .integers (demoData (n + 1))) (demoRules 1).pubKey 0]

def demoRun : List Call :=
  .registerValidatorPubkey 1 (demoRules 1).pubKey :: (List.range 3).flatMap demoRound

instance (e : Step) : Decidable (CommitsOlder P e) := List.decidableBAll _ _

/-- With certificates of the first and the second block the third block is committed. -/
theorem newest_committed_demoRun :
    ¬ (∀ e ∈ history (step .integers) (new genesisQc 1 ⟨[1],by decide⟩) demoRun,
        CommitsOlder .integers e) ∧
      ∃ e ∈ history (step .integers) (new genesisQc 1 ⟨[1],by decide⟩) demoRun,
        e.before.prevQc.map (·.blockHash) = some ((demoChain 1).header.hash .integers) ∧
          (commits e).map Prod.fst = [demoChain 3] := by
  have hnewest : ∃ e ∈ history (step .integers) (new genesisQc 1 ⟨[1],by decide⟩) demoRun,
      e.before.prevQc.map (·.blockHash) = some ((demoChain 1).header.hash .integers) ∧
        (commits e).map Prod.fst = [demoChain 3] ∧ ¬ CommitsOlder .integers e := by
    decide +kernel
  obtain ⟨e,he,hprev,hcommits,hnot⟩ := hnewest
  exact ⟨fun hall => hnot (hall e he),e,he,hprev,hcommits⟩

end Commits

open HotStuffConsensus (demoBlock demoCertificate)

/-- Proposals are justified below the last round, and pruning stays within reach of the
highest certificate. -/
def Admissible (hs : HotStuff2) : Call → Prop
  | .proposal _ justify _ => justify.blockNumber.toNat < 2 ^ 64 - 1
  | .pruneVotedBelow committedRound =>
    committedRound.toNat ≤ hs.highestQc.blockNumber.toNat + 1
  | _ => True

instance (hs : HotStuff2) : (call : Call) → Decidable (Admissible hs call)
  | .proposal _ justify _ => inferInstanceAs (Decidable (justify.blockNumber.toNat < 2 ^ 64 - 1))
  | .pruneVotedBelow committedRound =>
    inferInstanceAs (Decidable (committedRound.toNat ≤ hs.highestQc.blockNumber.toNat + 1))
  | .vote .. | .timeoutShare .. | .checkTimer .. | .registerValidatorPubkey .. =>
    inferInstanceAs (Decidable True)

def WithinReach (hs : HotStuff2) : Prop :=
  ∀ round hash, hs.votedAt.lookup round = some hash →
    round.toNat ≤ hs.highestQc.blockNumber.toNat + 1

/-- The machine remembers the vote it was asked for, or its round is over. -/
def Remembers (hs : HotStuff2) (data : VoteData) : Prop :=
  hs.votedAt.lookup data.blockNumber = some data.blockHash ∧
      data.blockNumber.toNat ≤ hs.highestQc.blockNumber.toNat + 1 ∨
    data.blockNumber.toNat ≤ hs.highestQc.blockNumber.toNat

/-- The table of voted rounds loses nothing but rounds that are over. -/
structure Forgets (hs hs' : HotStuff2) : Prop where
  raised : hs.highestQc.blockNumber.toNat ≤ hs'.highestQc.blockNumber.toNat
  kept : ∀ round hash, hs.votedAt.lookup round = some hash →
    hs'.votedAt.lookup round = some hash ∨ round.toNat ≤ hs'.highestQc.blockNumber.toNat
  origin : ∀ round hash, hs'.votedAt.lookup round = some hash →
    hs.votedAt.lookup round = some hash

/-- The invariant of a run: what is on record, what is remembered, what was asked. -/
structure Guarded (past : List Step) (hs : HotStuff2) : Prop where
  within : WithinReach hs
  remembered : ∀ data ∈ past.flatMap requests, Remembers hs data
  distinct : ((past.flatMap requests).map (·.blockNumber)).Nodup

variable {P : Platform} {hs hs' : HotStuff2} {block : Block} {justify : QuorumCertificate} {now : ℕ}
  {call : Call} {data : VoteData} {past : List Step} {e : Step}

theorem Raises.forgets (h : Raises hs hs') (hvoted : hs'.votedAt = hs.votedAt) : Forgets hs hs' := by
  refine ⟨UInt64.le_iff_toNat_le.mp h.le,?_,?_⟩
  · intro round hash hlook
    rw [hvoted]
    exact Or.inl hlook
  · intro round hash hlook
    rw [hvoted] at hlook
    exact hlook

theorem forgets_pruneVotedBelow {committedRound : UInt64}
    (h : committedRound.toNat ≤ hs.highestQc.blockNumber.toNat + 1) :
    Forgets hs (hs.pruneVotedBelow committedRound) := by
  refine ⟨Nat.le_refl _,?_,?_⟩
  · intro round hash hlook
    by_cases hkeep : committedRound ≤ round
    · exact Or.inl (AList.lookup_retain.mpr ⟨hlook,decide_eq_true hkeep⟩)
    · rw [UInt64.not_le, UInt64.lt_iff_toNat_lt] at hkeep
      have hover : round.toNat ≤ hs.highestQc.blockNumber.toNat := by omega
      exact Or.inr hover
  · intro round hash hlook
    exact (AList.lookup_retain.mp hlook).1

theorem Remembers.forgets (hr : Remembers hs data) (h : Forgets hs hs') : Remembers hs' data := by
  have hraised := h.raised
  rcases hr with ⟨hlook,hreach⟩ | hover
  · rcases h.kept _ _ hlook with hlook' | hover
    · exact Or.inl ⟨hlook',by omega⟩
    · exact Or.inr hover
  · exact Or.inr (by omega)

theorem WithinReach.forgets (hw : WithinReach hs) (h : Forgets hs hs') : WithinReach hs' := by
  intro round hash hlook
  have hreach := hw round hash (h.origin round hash hlook)
  have hraised := h.raised
  omega

theorem Guarded.forgets (hg : Guarded past hs) (h : Forgets hs hs') : Guarded past hs' :=
  ⟨hg.within.forgets h,fun data hdata => (hg.remembered data hdata).forgets h,hg.distinct⟩

theorem Guarded.silent (hg : Guarded past hs) (he : requests e = []) :
    Guarded (past ++ [e]) hs := by
  have hsame : (past ++ [e]).flatMap requests = past.flatMap requests := by
    simp [List.flatMap_append, he]
  obtain ⟨hwithin,hremembered,hdistinct⟩ := hg
  exact ⟨hwithin,by rwa [hsame],by rwa [hsame]⟩

theorem Remembers.votedFor (hr : Remembers hs data) {round : UInt64}
    (hnone : hs.votedAt.lookup round = none) :
    Remembers (hs.votedFor P block round now) data := by
  rcases hr with ⟨hlook,hreach⟩ | hover
  · have hne : data.blockNumber ≠ round := by
      intro heq
      rw [heq, hnone] at hlook
      cases hlook
    refine Or.inl ⟨?_,hreach⟩
    simp only [HotStuff2.votedFor, AList.lookup_insert_ne hne, hlook]
  · exact Or.inr hover

/-- A request for the round next to the highest certificate keeps the invariant, if that
round is not on record. -/
theorem Guarded.votedFor (hg : Guarded past hs) {round epoch : UInt64}
    (hround : round.toNat = hs.highestQc.blockNumber.toNat + 1)
    (hnone : hs.votedAt.lookup round = none)
    (he : requests e = [⟨block.header.hash P,round,0,epoch⟩]) :
    Guarded (past ++ [e]) (hs.votedFor P block round now) := by
  have hsplit : (past ++ [e]).flatMap requests =
      past.flatMap requests ++ [⟨block.header.hash P,round,0,epoch⟩] := by
    simp [List.flatMap_append, he]
  refine ⟨?_,?_,?_⟩
  · intro round' hash hlook
    rcases AList.lookup_insert_some hlook with ⟨rfl,-⟩ | ⟨-,hold⟩
    · exact hround.le
    · exact hg.within round' hash hold
  · intro data hdata
    rw [hsplit] at hdata
    rcases List.mem_append.mp hdata with hold | hnew
    · exact (hg.remembered data hold).votedFor hnone
    · cases List.mem_singleton.mp hnew
      exact Or.inl ⟨AList.lookup_insert _,hround.le⟩
  · have hfresh : ∀ data ∈ past.flatMap requests, data.blockNumber ≠ round := by
      intro data hdata heq
      rcases hg.remembered data hdata with ⟨hlook,-⟩ | hover
      · rw [heq, hnone] at hlook
        cases hlook
      · rw [heq] at hover
        omega
    rw [hsplit, List.map_append, List.map_singleton]
    refine List.nodup_append.mpr ⟨hg.distinct,List.nodup_singleton _,?_⟩
    intro number hold number' hnew heq
    obtain ⟨data,hdata,rfl⟩ := List.mem_map.mp hold
    rw [List.mem_singleton.mp hnew] at heq
    exact hfresh data hdata heq

theorem highestQc_adoptQc (h : ¬ justify.blockNumber < hs.highestQc.blockNumber) :
    (hs.adoptQc justify).highestQc.blockNumber = justify.blockNumber := by
  unfold adoptQc
  split
  · rfl
  · rename_i hle
    exact UInt64.le_antisymm (UInt64.not_lt.mp h) (UInt64.not_lt.mp hle)

theorem requests_commitRule : (hs.commitRule block justify).filterMap requestOf = [] := by
  refine List.filterMap_eq_nil_iff.mpr ?_
  intro ev hev
  rw [(mem_commitRule.mp hev).1]
  rfl

theorem guarded_onProposal (hg : Guarded past hs) (hnext : justify.blockNumber.toNat < 2 ^ 64 - 1)
    (he : e.output = (hs.onProposal P block justify now).2) :
    Guarded (past ++ [e]) (hs.onProposal P block justify now).1 := by
  have hadopt : Forgets hs (hs.adoptQc justify) := (raises_adoptQc hs justify).forgets votedAt_adoptQc
  rcases onProposal_cases P hs block justify now with
    ⟨-,h⟩ | ⟨hfresh,⟨prevHash,-,-,h⟩ | ⟨-,h⟩ | ⟨hnone,h⟩⟩
  · rw [h] at he ⊢
    exact hg.silent (by rw [requests, he]; rfl)
  · rw [h] at he ⊢
    exact (hg.forgets hadopt).silent (by rw [requests, he]; rfl)
  · rw [h] at he ⊢
    exact (hg.forgets hadopt).silent (by rw [requests, he]; exact requests_commitRule)
  · rw [h] at he ⊢
    have hround : (justify.blockNumber + 1).toNat =
        (hs.adoptQc justify).highestQc.blockNumber.toNat + 1 := by
      rw [highestQc_adoptQc hfresh, toNat_add_one (by omega)]
    have hvoted : (hs.adoptQc justify).votedAt.lookup (justify.blockNumber + 1) = none := by
      rw [votedAt_adoptQc, hnone]
    have hasked : requests e =
        [⟨block.header.hash P,justify.blockNumber + 1,0,hs.currentEpoch⟩] := by
      rw [requests, he, events, List.filterMap_append, requests_commitRule]
      rfl
    exact (hg.forgets hadopt).votedFor hround hvoted hasked

theorem guarded_step (hg : Guarded past hs) (hok : Admissible hs call) :
    Guarded (past ++ [⟨hs,call,(step P hs call).2⟩]) (step P hs call).1 := by
  rcases step_cases P hs call with ⟨block,justify,now,rfl⟩ | ⟨committedRound,rfl⟩ | ⟨-,h⟩
  · exact guarded_onProposal hg hok rfl
  · exact (hg.forgets (forgets_pruneVotedBelow hok)).silent rfl
  · exact (hg.forgets (h.raises.forgets h.votedAt)).silent h.requests

theorem guarded_run (genesisQc : QuorumCertificate) (validator : Address)
    (validators : { l : List Address // l ≠ [] }) (calls : List Call)
    (hok : ∀ e ∈ history (step P) (new genesisQc validator validators) calls,
      Admissible e.before e.call) :
    Guarded (history (step P) (new genesisQc validator validators) calls)
      (final (step P) (new genesisQc validator validators) calls) := by
  refine trace_invariant (step P) (G := Admissible) (J := Guarded) ?_
    (fun past hs call hg hcall => guarded_step hg hcall) calls hok
  exact ⟨fun _ _ h => (nomatch h),fun _ h => (nomatch h),List.nodup_nil⟩

theorem onProposal_of_error (hw : WithinReach hs) (hnext : justify.blockNumber.toNat < 2 ^ 64 - 1)
    {err : ConsensusError} (herr : (hs.onProposal P block justify now).2 = .error err) :
    (hs.onProposal P block justify now).1 = hs := by
  rcases onProposal_cases P hs block justify now with
    ⟨-,h⟩ | ⟨-,⟨prevHash,hvoted,-,h⟩ | ⟨-,h⟩ | ⟨-,h⟩⟩
  · rw [h]
  · rw [h]
    have hreach := hw _ _ hvoted
    rw [toNat_add_one (by omega)] at hreach
    refine adoptQc_of_le ?_
    rw [UInt64.lt_iff_toNat_lt]
    omega
  · rw [h] at herr
    cases herr
  · rw [h] at herr
    cases herr

/-- No round is voted for twice in a run, and a refused proposal changes nothing. -/
theorem votes_once (P : Platform) (genesisQc : QuorumCertificate) (validator : Address)
    (validators : { l : List Address // l ≠ [] }) (calls : List Call)
    (hok : ∀ e ∈ history (step P) (new genesisQc validator validators) calls,
      Admissible e.before e.call) :
    (∀ data ∈ (history (step P) (new genesisQc validator validators) calls).flatMap requests,
      ∀ data' ∈ (history (step P) (new genesisQc validator validators) calls).flatMap requests,
        data.blockNumber = data'.blockNumber → data.blockHash = data'.blockHash) ∧
    ∀ e ∈ history (step P) (new genesisQc validator validators) calls,
      ∀ block justify now, e.call = .proposal block justify now →
        ∀ err, e.output = .error err → (step P e.before e.call).1 = e.before := by
  constructor
  · have hg := guarded_run genesisQc validator validators calls hok
    intro data hdata data' hdata' hnumber
    rw [List.inj_on_of_nodup_map hg.distinct hdata hdata' hnumber]
  · intro e he block justify now hcall err herr
    obtain ⟨xs,ys,hsplit,hbefore⟩ := history_split _ he
    have hnext := hok e he
    rw [hsplit, history_append] at hok
    have hg := guarded_run genesisQc validator validators xs
      (fun e' he' => hok e' (List.mem_append_left _ he'))
    rw [← hbefore] at hg
    rw [hcall] at hnext
    rw [output_eq _ he, hcall] at herr
    rw [hcall]
    exact onProposal_of_error hg.within hnext herr

def demoPruned : List Call :=
  demoRun ++ [.pruneVotedBelow 4, .proposal (demoBlock 7 3 1) (demoCertificate 1 (demoData 2)) 0]

theorem votes_once_demoPruned :
    (∀ data ∈ (history (step .integers) (new genesisQc 1 ⟨[1],by decide⟩) demoPruned).flatMap requests,
      ∀ data' ∈ (history (step .integers) (new genesisQc 1 ⟨[1],by decide⟩) demoPruned).flatMap
          requests,
        data.blockNumber = data'.blockNumber → data.blockHash = data'.blockHash) ∧
    ∀ e ∈ history (step .integers) (new genesisQc 1 ⟨[1],by decide⟩) demoPruned,
      ∀ block justify now, e.call = .proposal block justify now →
        ∀ err, e.output = .error err → (step .integers e.before e.call).1 = e.before :=
  votes_once .integers genesisQc 1 ⟨[1],by decide⟩ demoPruned (by decide +kernel)

end ZbxChain.HotStuff2
