import ZbxChain.Consensus.TimeoutShares
import ZbxChain.Consensus.TwoChain

/-! # The round a machine is in

Proposals, quorum certificates and timeout certificates each set the round from their own
source: the justification, the accumulator, the share listed first. None of them looks at
the round the machine is in.
-/
namespace ZbxChain.HotStuff2
open Machine
open HotStuffConsensus (demoBlock)

/-- The timer is checked with the round of the machine. -/
def Timely (hs : HotStuff2) : Call → Prop
  | .checkTimer currentRound _ => currentRound = hs.currentRound
  | _ => True

def CompletesQc (P : Platform) (hs : HotStuff2) (vote : Vote) (pubkey : BlsPubKey) : Prop :=
  vote.voter ∈ hs.validatorSet ∧ hs.validatorPubkeys.lookup vote.voter = some pubkey ∧
    (∀ seen ∈ hs.seenVotes.lookup (vote.data.blockNumber,vote.data.phase,vote.voter),
      seen.1 = vote.data.blockHash) ∧
    ∃ acc ∈ hs.voteAccum, acc.Counts P vote pubkey ∧ acc.quorum ≤ acc.votes.len + 1

/-- The share is the first of its validator, verifies, completes the quorum of the pool,
and the signatures aggregate. -/
def CompletesTc (P : Platform) (acc : TcAccumulator) (d : Share) : Prop :=
  acc.shares.lookup d.1.validator = none ∧ Signed P d ∧ acc.quorum ≤ acc.shares.len + 1 ∧
    (P.aggregateSignatures (d.1.signature :: acc.shares.values.map (·.1.signature))).isSome = true

/-- The round of the share that the hash table lists first once `d` is in it. -/
def firstRound (P : Platform) (acc : TcAccumulator) (d : Share) : UInt64 :=
  ((P.iterOrder (acc.shares.insert d.1.validator d).entries).head?.map (·.2.1.round)).getD 0

/-- A call takes the machine to `round`, from wherever it is. -/
def Enters (P : Platform) (hs : HotStuff2) (round : UInt64) : Call → Prop
  | .proposal _ justify _ => ¬ justify.blockNumber < hs.highestQc.blockNumber ∧
      hs.votedAt.lookup (justify.blockNumber + 1) = none ∧ round = justify.blockNumber + 1
  | .vote vote pubkey _ => CompletesQc P hs vote pubkey ∧ round = hs.currentRound + 1
  | .timeoutShare share pubkey => CompletesTc P hs.tcAccum (share,pubkey) ∧
      round = firstRound P hs.tcAccum (share,pubkey) + 1
  | _ => False

/-- The accumulator collects for the round of the machine, the pool holds signed shares. -/
structure InRound (P : Platform) (hs : HotStuff2) : Prop where
  phase : ∀ height blockHash, hs.phase ≠ .committed height blockHash
  accum : ∀ data ∈ hs.voteAccum.map (·.data), data.blockNumber = hs.currentRound
  pooled : ∃ delivered, Pooled P delivered hs.tcAccum
  quorum : hs.tcAccum.quorum = hs.quorum

/-- Nothing that the round depends on has changed. -/
structure SameView (hs hs' : HotStuff2) : Prop where
  phase : hs'.phase = hs.phase
  accum : hs'.voteAccum.map (·.data) = hs.voteAccum.map (·.data)
  tcAccum : hs'.tcAccum = hs.tcAccum
  quorum : hs'.quorum = hs.quorum

variable {P : Platform} {hs hs' : HotStuff2} {vote : Vote} {pubkey : BlsPubKey} {now : ℕ}
  {round : UInt64}

theorem currentRound_eq (hphase : ∀ height blockHash, hs.phase ≠ .committed height blockHash)
    (h : hs'.phase = hs.phase) : hs'.currentRound = hs.currentRound := by
  unfold currentRound
  rw [h]
  cases hcase : hs.phase with
  | waitingProposal round => rfl
  | voted round blockHash => rfl
  | viewChange round => rfl
  | committed height blockHash => exact absurd hcase (hphase height blockHash)

theorem SameView.refl (hs : HotStuff2) : SameView hs hs := ⟨rfl,rfl,rfl,rfl⟩

theorem InRound.sameView (h : InRound P hs) (hsame : SameView hs hs') :
    InRound P hs' ∧ hs'.currentRound = hs.currentRound := by
  have hround := currentRound_eq h.phase hsame.phase
  refine ⟨⟨?_,?_,?_,?_⟩,hround⟩
  · rw [hsame.phase]
    exact h.phase
  · rw [hsame.accum, hround]
    exact h.accum
  · rw [hsame.tcAccum]
    exact h.pooled
  · rw [hsame.tcAccum, hsame.quorum]
    exact h.quorum

theorem inRound_waiting (hphase : hs.phase = .waitingProposal round) (haccum : hs.voteAccum = none)
    (hpooled : ∃ delivered, Pooled P delivered hs.tcAccum) (hquorum : hs.tcAccum.quorum = hs.quorum) :
    InRound P hs ∧ hs.currentRound = round := by
  refine ⟨⟨?_,?_,hpooled,hquorum⟩,?_⟩
  · rw [hphase]
    exact fun _ _ => nofun
  · rw [haccum]
    exact fun _ => nofun
  · rw [currentRound, hphase]

section Proposals

theorem sameView_adoptQc (hs : HotStuff2) (qc : QuorumCertificate) : SameView hs (hs.adoptQc qc) := by
  unfold adoptQc
  split
  · exact ⟨rfl,rfl,rfl,rfl⟩
  · exact SameView.refl hs

theorem enters_onProposal (h : InRound P hs) (block : Block) (justify : QuorumCertificate) :
    InRound P (hs.onProposal P block justify now).1 ∧
      (Enters P hs (hs.onProposal P block justify now).1.currentRound
          (.proposal block justify now) ∨
        (∀ round, ¬ Enters P hs round (.proposal block justify now)) ∧
          (hs.onProposal P block justify now).1.currentRound = hs.currentRound) := by
  have hadopt := h.sameView (sameView_adoptQc hs justify)
  rcases onProposal_cases P hs block justify now with
    ⟨hstale,heq⟩ | ⟨hfresh,⟨prevHash,hvoted,-,heq⟩ | ⟨hvoted,heq⟩ | ⟨hvoted,heq⟩⟩
  · rw [heq]
    exact ⟨h,Or.inr ⟨fun _ henter => henter.1 hstale,rfl⟩⟩
  · rw [heq]
    refine ⟨hadopt.1,Or.inr ⟨fun _ henter => ?_,hadopt.2⟩⟩
    rw [henter.2.1] at hvoted
    cases hvoted
  · rw [heq]
    refine ⟨hadopt.1,Or.inr ⟨fun _ henter => ?_,hadopt.2⟩⟩
    rw [henter.2.1] at hvoted
    cases hvoted
  · rw [heq]
    refine ⟨⟨fun _ _ => nofun,?_,hadopt.1.pooled,hadopt.1.quorum⟩,Or.inl ⟨hfresh,hvoted,rfl⟩⟩
    intro data hdata
    cases hdata
    rfl

end Proposals

section Votes

theorem onQuorum_view (P : Platform) (hs : HotStuff2) (qc : QuorumCertificate) (now : ℕ) :
    (hs.onQuorum P qc now).1.phase = .waitingProposal (qc.blockNumber + 1) ∧
      (hs.onQuorum P qc now).1.voteAccum = none ∧
      (hs.onQuorum P qc now).1.tcAccum = .new hs.quorum ∧
      (hs.onQuorum P qc now).1.quorum = hs.quorum ∧
      qc.blockNumber ≤ (hs.onQuorum P qc now).1.highestQc.blockNumber := by
  have hhigh : qc.blockNumber ≤ ({ hs with
      roundTimer := hs.roundTimer.onQuorumReached now }.adoptQc qc).highestQc.blockNumber :=
    le_highestQc_adoptQc
  have hquorum := (sameView_adoptQc { hs with
    roundTimer := hs.roundTimer.onQuorumReached now } qc).quorum
  unfold onQuorum
  dsimp only at hquorum ⊢
  rw [hquorum]
  split
  · exact ⟨rfl,rfl,rfl,rfl,hhigh⟩
  · exact ⟨rfl,rfl,rfl,rfl,hhigh⟩

/-- The accumulator's quorum moves the machine on from the round of its data. -/
theorem tallyVote_view (P : Platform) (hs : HotStuff2) (vote : Vote) (pubkey : BlsPubKey) (now : ℕ) :
    (∃ acc ∈ hs.voteAccum, (acc.Counts P vote pubkey ∧ acc.quorum ≤ acc.votes.len + 1) ∧
      (hs.tallyVote P vote pubkey now).1.phase = .waitingProposal (acc.data.blockNumber + 1) ∧
      (hs.tallyVote P vote pubkey now).1.voteAccum = none ∧
      (hs.tallyVote P vote pubkey now).1.tcAccum = .new hs.quorum ∧
      (hs.tallyVote P vote pubkey now).1.quorum = hs.quorum ∧
      acc.data.blockNumber ≤ (hs.tallyVote P vote pubkey now).1.highestQc.blockNumber) ∨
    (¬ ∃ acc ∈ hs.voteAccum, acc.Counts P vote pubkey ∧ acc.quorum ≤ acc.votes.len + 1) ∧
      SameView hs (hs.tallyVote P vote pubkey now).1 := by
  unfold tallyVote
  cases haccum : hs.voteAccum with
  | none => exact Or.inr ⟨by simp,SameView.refl hs⟩
  | some acc =>
    by_cases hcounts : acc.Counts P vote pubkey
    · by_cases hreach : acc.quorum ≤ acc.votes.len + 1
      · refine Or.inl ⟨acc,rfl,⟨hcounts,hreach⟩,?_⟩
        simp only [VoteAccumulator.addVote_of_counts hcounts, if_pos hreach]
        exact onQuorum_view P _ _ now
      · refine Or.inr ⟨?_,?_⟩
        · rintro ⟨acc',hacc',-,hreach'⟩
          cases hacc'
          exact hreach hreach'
        · simp only [VoteAccumulator.addVote_of_counts hcounts, if_neg hreach]
          exact ⟨rfl,by rw [haccum]; rfl,rfl,rfl⟩
    · obtain ⟨hsame,hnone⟩ := VoteAccumulator.addVote_of_not_counts hcounts
      refine Or.inr ⟨?_,?_⟩
      · rintro ⟨acc',hacc',hcounts',-⟩
        cases hacc'
        exact hcounts hcounts'
      · dsimp only
        split
        · rename_i qc hqc
          exact absurd hqc (hnone qc)
        · exact ⟨rfl,by rw [haccum, hsame],rfl,rfl⟩

theorem onVote_view (P : Platform) (hs : HotStuff2) (vote : Vote) (pubkey : BlsPubKey) (now : ℕ) :
    (CompletesQc P hs vote pubkey ∧ ∃ acc ∈ hs.voteAccum,
      (hs.onVote P vote pubkey now).1.phase = .waitingProposal (acc.data.blockNumber + 1) ∧
      (hs.onVote P vote pubkey now).1.voteAccum = none ∧
      (hs.onVote P vote pubkey now).1.tcAccum = .new hs.quorum ∧
      (hs.onVote P vote pubkey now).1.quorum = hs.quorum ∧
      acc.data.blockNumber ≤ (hs.onVote P vote pubkey now).1.highestQc.blockNumber) ∨
    ¬ CompletesQc P hs vote pubkey ∧ SameView hs (hs.onVote P vote pubkey now).1 := by
  unfold onVote CompletesQc
  split
  · rename_i hstranger
    exact Or.inr ⟨fun hqc => hstranger hqc.1,SameView.refl hs⟩
  rename_i hmember
  cases hregistered : hs.validatorPubkeys.lookup vote.voter with
  | none => exact Or.inr ⟨fun hqc => Option.some_ne_none _ hqc.2.1.symm,SameView.refl hs⟩
  | some registered =>
    dsimp only
    split
    · rename_i hkey
      exact Or.inr ⟨fun hqc => hkey (Option.some.inj hqc.2.1),SameView.refl hs⟩
    rename_i hkey
    split
    · rename_i hsig
      exact Or.inr ⟨fun ⟨_,_,_,_,_,hcounts,_⟩ => hsig hcounts.2.2,SameView.refl hs⟩
    have hsome : some registered = some pubkey := congrArg some (not_not.mp hkey)
    have hin : vote.voter ∈ hs.validatorSet := not_not.mp hmember
    cases hseen : hs.seenVotes.lookup (vote.data.blockNumber,vote.data.phase,vote.voter) with
    | none =>
      dsimp only
      rcases tallyVote_view P { hs with
        seenVotes := hs.seenVotes.insert (vote.data.blockNumber,vote.data.phase,vote.voter)
          (vote.data.blockHash,vote,pubkey) } vote pubkey now with
        ⟨acc,hacc,hquorum,hview⟩ | ⟨hnot,hview⟩
      · exact Or.inl ⟨⟨hin,hsome,fun _ => nofun,acc,hacc,hquorum⟩,acc,hacc,hview⟩
      · exact Or.inr ⟨fun hqc => hnot hqc.2.2.2,hview.phase,hview.accum,hview.tcAccum,hview.quorum⟩
    | some seen =>
      dsimp only
      split
      · rename_i hconflict
        exact Or.inr ⟨fun hqc => hconflict (hqc.2.2.1 _ rfl),SameView.refl hs⟩
      · rename_i hsame
        rcases tallyVote_view P hs vote pubkey now with
          ⟨acc,hacc,hquorum,hview⟩ | ⟨hnot,hview⟩
        · refine Or.inl ⟨⟨hin,hsome,?_,acc,hacc,hquorum⟩,acc,hacc,hview⟩
          rintro _ ⟨⟩
          exact not_not.mp hsame
        · exact Or.inr ⟨fun hqc => hnot hqc.2.2.2,hview⟩

theorem enters_onVote (h : InRound P hs) (vote : Vote) (pubkey : BlsPubKey) :
    InRound P (hs.onVote P vote pubkey now).1 ∧
      (Enters P hs (hs.onVote P vote pubkey now).1.currentRound (.vote vote pubkey now) ∨
        (∀ round, ¬ Enters P hs round (.vote vote pubkey now)) ∧
          (hs.onVote P vote pubkey now).1.currentRound = hs.currentRound) := by
  rcases onVote_view P hs vote pubkey now with
    ⟨hqc,acc,hacc,hphase,haccum,htc,hquorum,-⟩ | ⟨hnot,hview⟩
  · have hdata := h.accum acc.data (Option.mem_map_of_mem _ hacc)
    obtain ⟨hin,hround⟩ := inRound_waiting hphase haccum ⟨[],htc ▸ pooled_new P hs.quorum⟩
      (by rw [htc, hquorum]; rfl)
    exact ⟨hin,Or.inl ⟨hqc,by rw [hround, hdata]⟩⟩
  · obtain ⟨hin,hround⟩ := h.sameView hview
    exact ⟨hin,Or.inr ⟨fun _ henter => hnot henter.1,hround⟩⟩

end Votes

section Timeouts
variable {delivered : List Share} {acc : TcAccumulator}

theorem addShare_of_unsigned {d : Share} (h : ¬ Signed P d) : acc.addShare P d.1 d.2 = (acc,none) := by
  have hsig : ¬ P.verifySingle d.1.signature d.2 (d.1.signingHash P) = true := h
  unfold TcAccumulator.addShare
  simp only [hsig, Bool.false_eq_true, not_false_eq_true, if_true, ite_self]

/-- A certificate comes from a completed quorum, is of the first share's round, and passes
its own check. -/
theorem addShare_forms (hpool : Pooled P delivered acc) (share : TimeoutShare) (pubkey : BlsPubKey) :
    (∃ delivered', Pooled P delivered' (acc.addShare P share pubkey).1) ∧
      (acc.addShare P share pubkey).1.quorum = acc.quorum ∧
      (∀ tc, (acc.addShare P share pubkey).2 = some tc → CompletesTc P acc (share,pubkey) ∧
        tc.round = firstRound P acc (share,pubkey) ∧ tc.verify P acc.quorum = true) ∧
      ((acc.addShare P share pubkey).2 = none → ¬ CompletesTc P acc (share,pubkey)) := by
  by_cases hsigned : Signed P (share,pubkey)
  · have hnext := hpool.addShare hsigned
    refine ⟨⟨_,hnext.1⟩,hnext.2,?_⟩
    rcases hpool.addShare_cases hsigned with ⟨hknown,heq⟩ | ⟨hfresh,heq⟩
    · rw [heq]
      refine ⟨fun tc htc => absurd htc (Option.some_ne_none tc).symm,fun _ hc => ?_⟩
      have hsome := (hpool.isSome_lookup _).mpr hknown
      rw [hc.1] at hsome
      cases hsome
    · have hins := hpool.insert hsigned hfresh
      have hkept := kept_of_fresh hfresh
      have hbuilt := hins.isSome_buildTc
      have hvalues : acc.shares.values = kept delivered := by
        rw [AList.values, hpool.entries, List.map_map, Function.comp_def, List.map_id']
      rw [hkept, List.map_cons, ← hvalues] at hbuilt
      have hnew : acc.shares.lookup share.validator = none := by
        rw [AList.lookup_eq_none, AList.mem_keys, hpool.keys]
        exact hfresh
      rw [heq]
      simp only [← hpool.len]
      split
      · rename_i hreach
        refine ⟨fun tc htc => ⟨⟨hnew,hsigned,hreach,?_⟩,?_,?_⟩,fun hnone hc => ?_⟩
        · rw [← hbuilt, htc]
          rfl
        · exact round_buildTc htc
        · have hcount : acc.quorum ≤ (kept (delivered ++ [(share,pubkey)])).length := by
            rw [hkept, List.length_cons, ← hpool.len]
            exact hreach
          exact (hins.buildTc_spec htc).2.2 _ hcount
        · have hagg := hc.2.2.2
          rw [← hbuilt, hnone] at hagg
          cases hagg
      · rename_i hfew
        exact ⟨fun tc htc => absurd htc (Option.some_ne_none tc).symm,fun _ hc => hfew hc.2.2.1⟩
  · have heq : acc.addShare P share pubkey = (acc,none) := addShare_of_unsigned hsigned
    rw [heq]
    exact ⟨⟨delivered,hpool⟩,rfl,fun tc htc => absurd htc (Option.some_ne_none tc).symm,fun _ hc => hsigned hc.2.1⟩

theorem enters_onTimeoutShare (h : InRound P hs) (share : TimeoutShare) (pubkey : BlsPubKey) :
    InRound P (hs.onTimeoutShare P share pubkey).1 ∧
      (Enters P hs (hs.onTimeoutShare P share pubkey).1.currentRound (.timeoutShare share pubkey) ∨
        (∀ round, ¬ Enters P hs round (.timeoutShare share pubkey)) ∧
          (hs.onTimeoutShare P share pubkey).1.currentRound = hs.currentRound) := by
  obtain ⟨delivered,hpool⟩ := h.pooled
  obtain ⟨hpooled,hacc,hforms,hnone⟩ := addShare_forms hpool share pubkey
  rw [h.quorum] at hacc hforms
  cases htc : (hs.tcAccum.addShare P share pubkey).2 with
  | none =>
    have heq : hs.onTimeoutShare P share pubkey =
        ({ hs with tcAccum := (hs.tcAccum.addShare P share pubkey).1 }, .ok []) := by
      unfold onTimeoutShare
      simp only [htc]
    rw [heq]
    exact ⟨⟨h.phase,h.accum,hpooled,hacc⟩,Or.inr ⟨fun _ henter => hnone htc henter.1,rfl⟩⟩
  | some tc =>
    obtain ⟨hcompletes,hround,hverify⟩ := hforms tc htc
    have heq : (hs.onTimeoutShare P share pubkey).1 = { hs with
        tcAccum := (hs.tcAccum.addShare P share pubkey).1
        phase := .waitingProposal (tc.round + 1), voteAccum := none } := by
      unfold onTimeoutShare
      simp only [htc, hverify, not_true_eq_false, if_false]
      split
      · rfl
      · rfl
    obtain ⟨hin,hwait⟩ := inRound_waiting (congrArg phase heq) (congrArg voteAccum heq)
      (by rw [heq]; exact hpooled) (by rw [heq]; exact hacc)
    exact ⟨hin,Or.inl ⟨hcompletes,hround ▸ hwait⟩⟩

end Timeouts

/-- A call takes the machine to the round it enters, if any, and otherwise leaves it where
it is. -/
theorem enters_step (h : InRound P hs) (call : Call) (htimely : Timely hs call) :
    InRound P (step P hs call).1 ∧
      (Enters P hs (step P hs call).1.currentRound call ∨
        (∀ round, ¬ Enters P hs round call) ∧ (step P hs call).1.currentRound = hs.currentRound) := by
  cases call with
  | proposal block justify now => exact enters_onProposal h block justify
  | vote vote pubkey now => exact enters_onVote h vote pubkey
  | timeoutShare share pubkey => exact enters_onTimeoutShare h share pubkey
  | checkTimer currentRound now =>
    cases htimely
    rw [step]
    unfold checkTimer
    split
    · refine ⟨⟨?_,h.accum,h.pooled,h.quorum⟩,Or.inr ⟨fun _ => id,rfl⟩⟩
      intro height blockHash hphase
      cases hphase
    · exact ⟨h,Or.inr ⟨fun _ => id,rfl⟩⟩
  | pruneVotedBelow committedRound =>
    have hsame : SameView hs (hs.pruneVotedBelow committedRound) := ⟨rfl,rfl,rfl,rfl⟩
    obtain ⟨hin,hround⟩ := h.sameView hsame
    exact ⟨hin,Or.inr ⟨fun _ => id,hround⟩⟩
  | registerValidatorPubkey addr pk =>
    have hsame : SameView hs (hs.registerValidatorPubkey addr pk) := by
      unfold registerValidatorPubkey
      split
      · split
        · exact SameView.refl hs
        · exact ⟨rfl,rfl,rfl,rfl⟩
      · exact ⟨rfl,rfl,rfl,rfl⟩
    obtain ⟨hin,hround⟩ := h.sameView hsame
    exact ⟨hin,Or.inr ⟨fun _ => id,hround⟩⟩

theorem Enters.unique {round round' : UInt64} {call : Call} (h : Enters P hs round call)
    (h' : Enters P hs round' call) : round = round' := by
  cases call with
  | proposal block justify now => exact h.2.2.trans h'.2.2.symm
  | vote vote pubkey now => exact h.2.trans h'.2.symm
  | timeoutShare share pubkey => exact h.2.trans h'.2.symm
  | checkTimer currentRound now => exact h.elim
  | pruneVotedBelow committedRound => exact h.elim
  | registerValidatorPubkey addr pk => exact h.elim

theorem inRound_new (P : Platform) (genesisQc : QuorumCertificate) (validator : Address)
    (validators : { l : List Address // l ≠ [] }) :
    InRound P (new genesisQc validator validators) :=
  ⟨fun _ _ => nofun,fun _ => nofun,⟨[],pooled_new P _⟩,rfl⟩

theorem inRound_run (P : Platform) (genesisQc : QuorumCertificate) (validator : Address)
    (validators : { l : List Address // l ≠ [] }) (calls : List Call)
    (htimely : ∀ e ∈ history (step P) (new genesisQc validator validators) calls,
      Timely e.before e.call) :
    ∀ e ∈ history (step P) (new genesisQc validator validators) calls, InRound P e.before := by
  exact (state_invariant (step P) (G := Timely) (inRound_new P genesisQc validator validators)
    (fun _ call hs htimely => (enters_step hs call htimely).1) calls htimely).1

/-- A call enters no round by a timeout certificate, and none past the last one. -/
def Certified (P : Platform) (hs : HotStuff2) (call : Call) : Prop :=
  (∀ share pubkey, call = .timeoutShare share pubkey →
    ¬ CompletesTc P hs.tcAccum (share,pubkey)) ∧ ¬ Enters P hs 0 call

/-- The round is at most the one after the highest certificate. -/
def Caught (hs : HotStuff2) : Prop := hs.currentRound.toNat ≤ hs.highestQc.blockNumber.toNat + 1

theorem toNat_add_one_of_ne {x : UInt64} (h : x + 1 ≠ 0) : (x + 1).toNat = x.toNat + 1 := by
  refine toNat_add_one ?_
  by_contra hlast
  have hx := x.toNat_lt
  have hmax : x.toNat = 2 ^ 64 - 1 := by omega
  exact h (UInt64.toNat_inj.mp (by rw [UInt64.toNat_add, hmax]; rfl))

theorem caught_step (h : InRound P hs) (hcaught : Caught hs) (call : Call)
    (htimely : Timely hs call) (hcert : Certified P hs call) :
    Caught (step P hs call).1 ∧ hs.currentRound ≤ (step P hs call).1.currentRound := by
  have hraises : Raises hs (step P hs call).1 := raises_step call
  have hhigher := UInt64.le_iff_toNat_le.mp hraises.le
  unfold Caught at hcaught ⊢
  rcases (enters_step h call htimely).2 with henter | ⟨-,hsame⟩
  · cases call with
    | proposal block justify now =>
      obtain ⟨hfresh,hvoted,hround⟩ := henter
      have hnonzero : justify.blockNumber + 1 ≠ 0 := fun hzero =>
        hcert.2 ⟨hfresh,hvoted,hzero.symm⟩
      have hnext := toNat_add_one_of_ne hnonzero
      have hhigh := UInt64.le_iff_toNat_le.mp (UInt64.not_lt.mp hfresh)
      have hadopt : justify.blockNumber ≤ (hs.onProposal P block justify now).1.highestQc.blockNumber := by
        rcases onProposal_cases P hs block justify now with
          ⟨hstale,-⟩ | ⟨-,⟨_,hother,-,-⟩ | ⟨hother,-⟩ | ⟨-,heq⟩⟩
        · exact absurd hstale hfresh
        · rw [hvoted] at hother
          cases hother
        · rw [hvoted] at hother
          cases hother
        · rw [heq]
          exact le_highestQc_adoptQc
      have hadopt := UInt64.le_iff_toNat_le.mp hadopt
      rw [hround, hnext, UInt64.le_iff_toNat_le, hnext]
      exact ⟨Nat.succ_le_succ hadopt,by omega⟩
    | vote vote pubkey now =>
      obtain ⟨hqc,hround⟩ := henter
      have hnonzero : hs.currentRound + 1 ≠ 0 := fun hzero => hcert.2 ⟨hqc,hzero.symm⟩
      have hnext := toNat_add_one_of_ne hnonzero
      have hhigh : hs.currentRound ≤ (hs.onVote P vote pubkey now).1.highestQc.blockNumber := by
        rcases onVote_view P hs vote pubkey now with ⟨-,acc,hacc,-,-,-,-,hle⟩ | ⟨hnot,-⟩
        · rwa [h.accum acc.data (Option.mem_map_of_mem _ hacc)] at hle
        · exact absurd hqc hnot
      have hhigh := UInt64.le_iff_toNat_le.mp hhigh
      rw [hround, UInt64.le_iff_toNat_le, hnext]
      exact ⟨Nat.succ_le_succ hhigh,Nat.le_succ _⟩
    | timeoutShare share pubkey => exact absurd henter.1 (hcert.1 share pubkey rfl)
    | checkTimer currentRound now => exact henter.elim
    | pruneVotedBelow committedRound => exact henter.elim
    | registerValidatorPubkey addr pk => exact henter.elim
  · rw [hsame]
    exact ⟨by omega,UInt64.le_refl _⟩

/-- Over any run, the round never falls just when no call enters a round below the one the
machine is in; and that is so as long as no share completes a timeout certificate and no
round is past the last one. -/
theorem rounds_forward_iff (P : Platform) (genesisQc : QuorumCertificate) (validator : Address)
    (validators : { l : List Address // l ≠ [] }) (calls : List Call)
    (htimely : ∀ e ∈ history (step P) (new genesisQc validator validators) calls,
      Timely e.before e.call) :
    ((∀ e ∈ history (step P) (new genesisQc validator validators) calls,
        e.before.currentRound ≤ (step P e.before e.call).1.currentRound) ↔
      ∀ e ∈ history (step P) (new genesisQc validator validators) calls,
        ∀ round, Enters P e.before round e.call → e.before.currentRound ≤ round) ∧
    ((∀ e ∈ history (step P) (new genesisQc validator validators) calls,
        Certified P e.before e.call) →
      ∀ e ∈ history (step P) (new genesisQc validator validators) calls,
        e.before.currentRound ≤ (step P e.before e.call).1.currentRound) := by
  have hin := inRound_run P genesisQc validator validators calls htimely
  constructor
  · refine forall₂_congr ?_
    intro e he
    rcases (enters_step (hin e he) e.call (htimely e he)).2 with henter | ⟨hnot,hsame⟩
    · constructor
      · intro hle round hround
        rwa [hround.unique henter]
      · intro hle
        exact hle _ henter
    · rw [hsame]
      exact ⟨fun _ round hround => absurd hround (hnot round),fun _ => UInt64.le_refl _⟩
  · intro hcert
    have hstart : InRound P (new genesisQc validator validators) ∧
        Caught (new genesisQc validator validators) :=
      ⟨inRound_new P genesisQc validator validators,Nat.le_add_left 1 _⟩
    have hcaught := state_invariant (step P) (I := fun hs => InRound P hs ∧ Caught hs)
      (G := fun hs call => Timely hs call ∧ Certified P hs call) hstart
      (fun hs call h hg => ⟨(enters_step h.1 call hg.1).1,(caught_step h.1 h.2 call hg.1 hg.2).1⟩)
      calls (fun e he => ⟨htimely e he,hcert e he⟩)
    intro e he
    obtain ⟨hround,hc⟩ := hcaught.1 e he
    exact (caught_step hround hc e.call (htimely e he) (hcert e he)).2

instance (hs : HotStuff2) : (call : Call) → Decidable (Timely hs call)
  | .checkTimer currentRound _ => inferInstanceAs (Decidable (currentRound = hs.currentRound))
  | .proposal _ _ _ | .vote _ _ _ | .timeoutShare _ _ | .pruneVotedBelow _
  | .registerValidatorPubkey _ _ => isTrue trivial

def demoLate : List Call :=
  [.timeoutShare (demoShare 1 1).1 (demoShare 1 1).2,
    .timeoutShare (demoShare 2 1).1 (demoShare 2 1).2,
    .proposal (demoBlock 0 1 2) genesisQc 0]

/-- The late proposal takes the machine back from round 2 to round 1, where it votes. -/
theorem round_falls_demoLate :
    (∀ e ∈ history (step .integers) (new genesisQc 1 ⟨[1, 2],by decide⟩) demoLate,
      Timely e.before e.call) ∧
    ¬ ∀ e ∈ history (step .integers) (new genesisQc 1 ⟨[1, 2],by decide⟩) demoLate,
      e.before.currentRound ≤ (step .integers e.before e.call).1.currentRound := by
  decide +kernel

theorem rounds_forward_demoRun :
    ((∀ e ∈ history (step .integers) (new genesisQc 1 ⟨[1],by decide⟩) demoRun,
        e.before.currentRound ≤ (step .integers e.before e.call).1.currentRound) ↔
      ∀ e ∈ history (step .integers) (new genesisQc 1 ⟨[1],by decide⟩) demoRun,
        ∀ round, Enters .integers e.before round e.call → e.before.currentRound ≤ round) ∧
    ((∀ e ∈ history (step .integers) (new genesisQc 1 ⟨[1],by decide⟩) demoRun,
        Certified .integers e.before e.call) →
      ∀ e ∈ history (step .integers) (new genesisQc 1 ⟨[1],by decide⟩) demoRun,
        e.before.currentRound ≤ (step .integers e.before e.call).1.currentRound) :=
  rounds_forward_iff .integers genesisQc 1 ⟨[1],by decide⟩ demoRun (by decide +kernel)

end ZbxChain.HotStuff2
