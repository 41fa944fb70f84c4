import ZbxChain.Consensus.VoteIntake

/-! # What the accumulators hold along a run

Every vote in an accumulator was delivered by an earlier call and was authentic in the state it
met, and the quorum of an accumulator is that of the validator set at the call that opened it. A
certificate is an accumulator with as many votes.

The set may be swapped while votes are collected. A certificate answers to the current set as
long as no swap between two votes of one number and phase raises the quorum or drops the earlier
voter.
-/
namespace ZbxChain.HotStuffConsensus
open Machine

section Accumulators
/-- The block number and phase under which votes for `data` are collected. -/
def voteKey (data : VoteData) : UInt64 × UInt8 := (data.blockNumber,data.phase)

/-- The call delivered `vote`, which was authentic there. -/
def Delivers (P : Platform) (e : Step) (vote : Vote) : Prop :=
  ∃ pk, e.call = .vote vote pk ∧ e.before.Authentic P vote pk

structure Tally (P : Platform) (past : List Step) (acc : VoteAccumulator) : Prop where
  votes : ∀ a v pk, acc.votes.lookup a = some (v,pk) →
    v.voter = a ∧ v.data = acc.data ∧ ∃ e ∈ past, Delivers P e v
  opened : ∃ e ∈ past, ∃ v, Delivers P e v ∧ voteKey v.data = voteKey acc.data ∧
    acc.quorum = e.before.validatorSet.quorum

/-- Each accumulator stands under its own key and is a tally of the past. -/
def Tallied (P : Platform) (past : List Step) (cs : HotStuffConsensus) : Prop :=
  ∀ key acc, cs.voteAccumulators.lookup key = some acc → voteKey acc.data = key ∧ Tally P past acc

variable {P : Platform} {past more : List Step} {e : Step} {cs cs' : HotStuffConsensus}
  {acc : VoteAccumulator} {vote : Vote} {pk : BlsPubKey} {qc : QuorumCertificate}

theorem Tally.mono (h : Tally P past acc) : Tally P (past ++ more) acc := by
  obtain ⟨hvotes,e,he,v,hdelivers,hkey,hquorum⟩ := h
  refine ⟨?_,e,List.mem_append_left _ he,v,hdelivers,hkey,hquorum⟩
  intro a v pk hlook
  obtain ⟨hvoter,hdata,e',he',hdel⟩ := hvotes a v pk hlook
  exact ⟨hvoter,hdata,e',List.mem_append_left _ he',hdel⟩

theorem Tally.keyed (h : Tally P past acc) : acc.Keyed := by
  intro a v pk hlook
  obtain ⟨hvoter,hdata,-⟩ := h.votes a v pk hlook
  exact ⟨hvoter,hdata⟩

theorem Tally.record (h : Tally P past acc) (he : e ∈ past) (hdelivers : Delivers P e vote)
    (hdata : vote.data = acc.data) : Tally P past (acc.record vote pk) := by
  refine ⟨?_,h.opened⟩
  intro a v pk' hlook
  rcases AList.lookup_insert_some hlook with ⟨rfl,hv⟩ | ⟨_,hold⟩
  · cases hv
    exact ⟨rfl,hdata,e,he,hdelivers⟩
  · exact h.votes a v pk' hold

theorem Tallied.accumulator (h : Tallied P past cs) (hcs : e.before = cs)
    (hdelivers : Delivers P e vote) :
    voteKey (cs.accumulator vote.data).data = voteKey vote.data ∧
      Tally P (past ++ [e]) (cs.accumulator vote.data) := by
  unfold HotStuffConsensus.accumulator
  cases hlook : cs.voteAccumulators.lookup (vote.data.blockNumber,vote.data.phase) with
  | some acc =>
    obtain ⟨hkey,htally⟩ := h _ acc hlook
    exact ⟨hkey,htally.mono⟩
  | none =>
    refine ⟨rfl,?_,e,by simp,vote,hdelivers,rfl,by rw [hcs]; rfl⟩
    intro a v pk hvote
    cases hvote

theorem Tallied.congr (h : Tallied P past cs) (hacc : cs'.voteAccumulators = cs.voteAccumulators) :
    Tallied P (past ++ more) cs' := by
  intro key acc hlook
  obtain ⟨hkey,htally⟩ := h key acc (hacc ▸ hlook)
  exact ⟨hkey,htally.mono⟩

theorem tallied_acceptVote (h : Tallied P past cs) (hcs : e.before = cs)
    (hcall : e.call = .vote vote pk) : Tallied P (past ++ [e]) (cs.acceptVote P vote pk).1 := by
  by_cases hin : cs.Authentic P vote pk ∧ ¬ cs.Equivocates vote
  · have hdelivers : Delivers P e vote := ⟨pk,hcall,hcs ▸ hin.1⟩
    obtain ⟨hkey,htally⟩ := h.accumulator hcs hdelivers
    rw [acceptVote_of_authentic hin.1 hin.2]
    intro key acc hlook
    simp only [accumulate, accumulator_remember, voteAccumulators_remember] at hlook
    rcases AList.lookup_insert_some hlook with ⟨rfl,rfl⟩ | ⟨_,hold⟩
    · by_cases hcounts : (cs.accumulator vote.data).Counts P vote pk
      · rw [VoteAccumulator.addVote_of_counts hcounts]
        exact ⟨hkey,htally.record (by simp) hdelivers hcounts.1⟩
      · rw [(VoteAccumulator.addVote_of_not_counts hcounts).1]
        exact ⟨hkey,htally⟩
    · obtain ⟨hkey',htally'⟩ := h key acc hold
      exact ⟨hkey',htally'.mono⟩
  · obtain ⟨-,hacc,-,-⟩ := acceptVote_of_filtered hin
    exact h.congr hacc

theorem voteAccumulators_onProposal (block : Block) (parentQc : QuorumCertificate) :
    (cs.onProposal P block parentQc).1.voteAccumulators = cs.voteAccumulators := by
  by_cases h : cs.Proposable P block parentQc
  · rw [onProposal_of_proposable h]
  · rcases (onProposal_of_not_proposable h).2 with hstate | hstate
    · rw [hstate]
    · rw [hstate]

theorem tallied_step (call : Call) (h : Tallied P past cs) :
    Tallied P (past ++ [⟨cs,call,(step P cs call).2⟩]) (step P cs call).1 := by
  cases call with
  | proposal block parentQc => exact h.congr (voteAccumulators_onProposal block parentQc)
  | vote vote pk =>
    have htally := tallied_acceptVote (e := ⟨cs,.vote vote pk,(step P cs (.vote vote pk)).2⟩) h rfl rfl
    intro key acc hlook
    rw [step, (onVote_tally P cs vote pk).voteAccumulators] at hlook
    exact htally key acc hlook
  | timeout => exact h.congr rfl
  | updateValidatorSet addrs => exact h.congr rfl
  | rotateEpochSeed seed => exact h.congr rfl
  | registerValidatorPubkey addr pk =>
    obtain ⟨keys,-,hkeys⟩ := registerValidatorPubkey_eq cs addr pk
    rw [step, hkeys]
    exact h.congr rfl
  | pruneSeenVotesBelow committedRound => exact h.congr rfl

theorem tallied_run (hstart : cs.voteAccumulators = ∅) (calls : List Call) :
    Tallied P (history (step P) cs calls) (final (step P) cs calls) := by
  refine trace_invariant (step P) (G := fun _ _ => True) ?_
    (fun past s a hpast _ => tallied_step a hpast) calls (fun _ _ => trivial)
  intro key acc hlook
  rw [hstart] at hlook
  cases hlook

theorem formedQc_spec (h : cs.formedQc P (.vote vote pk) = some qc) :
    cs.Authentic P vote pk ∧ ¬ cs.Equivocates vote ∧
      (cs.accumulator vote.data).Counts P vote pk ∧
      (cs.accumulator vote.data).quorum ≤ (cs.accumulator vote.data).votes.len + 1 ∧
      qc = ((cs.accumulator vote.data).record vote pk).formQc P := by
  have hok : (cs.acceptVote P vote pk).2 = .ok (some qc) := by
    rcases onVote_cases P cs vote pk with
      ⟨hnone,-,-⟩ | ⟨qc',hsome,hok,-⟩
    · rw [hnone] at h
      cases h
    · rw [hsome] at h
      cases h
      exact hok
  by_cases hin : cs.Authentic P vote pk ∧ ¬ cs.Equivocates vote
  · rw [acceptVote_of_authentic hin.1 hin.2] at hok
    simp only [accumulate, accumulator_remember] at hok
    by_cases hcounts : (cs.accumulator vote.data).Counts P vote pk
    · rw [VoteAccumulator.addVote_of_counts hcounts] at hok
      simp only [Except.ok.injEq, Option.ite_none_right_eq_some, Option.some.injEq] at hok
      exact ⟨hin.1,hin.2,hcounts,hok.1,hok.2.symm⟩
    · exact absurd hok ((VoteAccumulator.addVote_of_not_counts hcounts).2 qc)
  · obtain ⟨-,-,-,hno⟩ := acceptVote_of_filtered hin
    exact absurd hok (hno qc)

theorem formedQc_of_counts (hauth : cs.Authentic P vote pk) (hneq : ¬ cs.Equivocates vote)
    (hcounts : (cs.accumulator vote.data).Counts P vote pk)
    (hquorum : (cs.accumulator vote.data).quorum ≤ (cs.accumulator vote.data).votes.len + 1) :
    cs.formedQc P (.vote vote pk) =
      some (((cs.accumulator vote.data).record vote pk).formQc P) := by
  have hok : (cs.acceptVote P vote pk).2 =
      .ok (some (((cs.accumulator vote.data).record vote pk).formQc P)) := by
    rw [acceptVote_of_authentic hauth hneq]
    simp only [accumulate, accumulator_remember]
    rw [VoteAccumulator.addVote_of_counts hcounts, if_pos hquorum]
  simp only [formedQc, hok]

theorem formedQc_tally (hstart : cs.voteAccumulators = ∅) {xs : List Call} {call : Call}
    (h : (final (step P) cs xs).formedQc P call = some qc) :
    ∃ acc, Tally P (history (step P) cs (xs ++ [call])) acc ∧ acc.quorum ≤ acc.votes.len ∧
      qc = acc.formQc P ∧ ∃ vote pk, call = .vote vote pk ∧ acc.data = vote.data := by
  cases call with
  | vote vote pk =>
    obtain ⟨hauth,-,hcounts,hquorum,hqc⟩ := formedQc_spec h
    have hdelivers : Delivers P ⟨final (step P) cs xs,.vote vote pk,
        (step P (final (step P) cs xs) (.vote vote pk)).2⟩ vote := ⟨pk,rfl,hauth⟩
    obtain ⟨-,htally⟩ := (tallied_run hstart xs).accumulator rfl hdelivers
    refine ⟨_,?_,?_,hqc,vote,pk,rfl,hcounts.1.symm⟩
    · rw [history_append, history_cons, history_nil]
      exact htally.record (by simp) hdelivers hcounts.1
    · have hlen : ((final (step P) cs xs).accumulator vote.data).votes.len + 1 =
          (((final (step P) cs xs).accumulator vote.data).record vote pk).votes.len :=
        (AList.len_insert hcounts.2.1).symm
      exact hquorum.trans hlen.le
  | proposal | timeout | updateValidatorSet | rotateEpochSeed | registerValidatorPubkey
  | pruneSeenVotesBelow => cases h

theorem Tally.signers (h : Tally P past acc) {a : Address} (ha : a ∈ (acc.formQc P).signers) :
    ∃ e ∈ past, ∃ v, Delivers P e v ∧ v.voter = a ∧ v.data = acc.data := by
  rw [VoteAccumulator.mem_signers_formQc h.keyed, AList.mem_keySet] at ha
  obtain ⟨⟨v,pk⟩,hlook⟩ := ha
  obtain ⟨hvoter,hdata,e,he,hdelivers⟩ := h.votes a v pk hlook
  exact ⟨e,he,v,hdelivers,hvoter,hdata⟩

end Accumulators

/-- At least a quorum of distinct signers, all of them members, each with a vote for the
certified data that the run brought under its registered key. -/
def LiveQuorum (P : Platform) (run : List Step) (vs : ValidatorSet) (qc : QuorumCertificate) : Prop :=
  vs.quorum ≤ qc.signers.toFinset.card ∧ ∀ a ∈ qc.signers, a ∈ vs.validators ∧
    ∃ e ∈ run, ∃ vote, Delivers P e vote ∧ vote.voter = a ∧ vote.data = qc.voteData

/-- From a call to a later one: when both bring votes of one number and phase, the
quorum has not grown and the earlier voter has not been dropped. -/
def KeepsRound (a e : Step) : Prop :=
  ∀ v ∈ a.call.delivered, ∀ v' ∈ e.call.delivered, voteKey v.data = voteKey v'.data →
    e.before.validatorSet.quorum ≤ a.before.validatorSet.quorum ∧
      (v.voter ∈ a.before.validatorSet.validators → v.voter ∈ e.before.validatorSet.validators)

instance (a e : Step) : Decidable (KeepsRound a e) :=
  inferInstanceAs (Decidable (∀ v ∈ a.call.delivered, ∀ v' ∈ e.call.delivered, _))

variable {P : Platform} {past : List Step} {a e : Step} {v v' : Vote} {pk' : BlsPubKey}

theorem keepsRound_of_mem (hlive : (past ++ [e]).Pairwise KeepsRound) (ha : a ∈ past ++ [e])
    (hdelivers : Delivers P a v) (hcall : e.call = .vote v' pk')
    (hkey : voteKey v.data = voteKey v'.data) :
    e.before.validatorSet.quorum ≤ a.before.validatorSet.quorum ∧
      v.voter ∈ e.before.validatorSet.validators := by
  obtain ⟨pk,hacall,hmember,-⟩ := hdelivers
  obtain ⟨-,-,hcross⟩ := List.pairwise_append.mp hlive
  rcases List.mem_append.mp ha with hold | hnew
  · obtain ⟨hquorum,hkeep⟩ := hcross a hold e (List.mem_singleton_self e) v
      (by rw [hacall]; rfl) v' (by rw [hcall]; rfl) hkey
    exact ⟨hquorum,hkeep hmember⟩
  · cases List.mem_singleton.mp hnew
    exact ⟨le_rfl,hmember⟩

/-- In a run whose swaps keep every round, each certificate has a quorum of the
validator set current at its formation. -/
theorem liveQuorum_of_keepsRound (myAddress : Address) (rules : SafetyRules) (vs : ValidatorSet)
    (calls : List Call)
    (hlive : (history (step P) (.new myAddress rules vs) calls).Pairwise KeepsRound) :
    ∀ e ∈ history (step P) (.new myAddress rules vs) calls, ∀ qc,
      e.before.formedQc P e.call = some qc →
        LiveQuorum P (history (step P) (.new myAddress rules vs) calls) e.before.validatorSet qc := by
  intro e he qc hqc
  obtain ⟨xs,ys,hsplit,hbefore⟩ := history_split _ he
  have hout := output_eq _ he
  rw [hbefore] at hqc
  obtain ⟨acc,htally,hquorum,rfl,vote,pk,hcall,hdata⟩ := formedQc_tally rfl hqc
  have hpast : history (step P) (.new myAddress rules vs) (xs ++ [e.call]) =
      history (step P) (.new myAddress rules vs) xs ++ [e] := by
    rw [history_append, history_cons, history_nil, ← hbefore, ← hout]
  have hlive' : (history (step P) (.new myAddress rules vs) xs ++ [e]).Pairwise KeepsRound := by
    rw [hsplit, history_append, history_cons, ← hbefore, ← hout, ← List.singleton_append,
      ← List.append_assoc] at hlive
    exact (List.pairwise_append.mp hlive).1
  rw [hpast] at htally
  constructor
  · obtain ⟨e₀,he₀,v₀,hdel₀,hkey₀,hq₀⟩ := htally.opened
    rw [hdata] at hkey₀
    have hle := (keepsRound_of_mem hlive' he₀ hdel₀ hcall hkey₀).1
    rw [VoteAccumulator.card_signers_formQc htally.keyed]
    omega
  · intro b hb
    obtain ⟨e₀,he₀,v₀,hdel₀,rfl,hdata₀⟩ := htally.signers hb
    have hkey₀ : voteKey v₀.data = voteKey vote.data := by rw [hdata₀, hdata]
    have hrun : e₀ ∈ history (step P) (.new myAddress rules vs) calls := by
      rw [hsplit, history_append, history_cons, ← hbefore, ← hout, ← List.singleton_append, ← List.append_assoc]
      exact List.mem_append_left _ he₀
    exact ⟨(keepsRound_of_mem hlive' he₀ hdel₀ hcall hkey₀).2,e₀,hrun,v₀,hdel₀,rfl,hdata₀⟩

/-- A swap that only reorders the set does no harm to the certificate of its two members. -/
theorem liveQuorum_reordered_set :
    ((final (step .integers) (.new 1 (demoRules 1) (.new [1,2] (by decide)))
      [demoRegister 1, demoRegister 2, demoVote 1 ⟨7,1,0,0⟩,
        .updateValidatorSet ⟨[2,1],by decide⟩]).formedQc .integers
      (demoVote 2 ⟨7,1,0,0⟩)).map (·.signers) = some [2,1] ∧
    ∀ e ∈ history (step .integers) (.new 1 (demoRules 1) (.new [1,2] (by decide)))
        [demoRegister 1, demoRegister 2, demoVote 1 ⟨7,1,0,0⟩, .updateValidatorSet ⟨[2,1],by decide⟩,
          demoVote 2 ⟨7,1,0,0⟩],
      ∀ qc, e.before.formedQc .integers e.call = some qc →
        LiveQuorum .integers (history (step .integers) (.new 1 (demoRules 1) (.new [1,2] (by decide)))
          [demoRegister 1, demoRegister 2, demoVote 1 ⟨7,1,0,0⟩, .updateValidatorSet ⟨[2,1],by decide⟩,
            demoVote 2 ⟨7,1,0,0⟩]) e.before.validatorSet qc := by
  refine ⟨by decide +kernel,?_⟩
  apply liveQuorum_of_keepsRound
  decide +kernel

/-- Validators 1 and 2 form a quorum of two; between their votes 1 leaves and 3 joins. -/
theorem not_liveQuorum_after_swap :
    ¬ ∀ e ∈ history (step .integers) (.new 1 (demoRules 1) (.new [1,2] (by decide)))
        [demoRegister 1, demoRegister 2, demoVote 1 ⟨7,1,0,0⟩, .updateValidatorSet ⟨[2,3],by decide⟩,
          demoVote 2 ⟨7,1,0,0⟩],
      ∀ qc, e.before.formedQc .integers e.call = some qc →
        LiveQuorum .integers (history (step .integers) (.new 1 (demoRules 1) (.new [1,2] (by decide)))
          [demoRegister 1, demoRegister 2, demoVote 1 ⟨7,1,0,0⟩, .updateValidatorSet ⟨[2,3],by decide⟩,
            demoVote 2 ⟨7,1,0,0⟩]) e.before.validatorSet qc := by
  intro h
  have hsigners : ((final (step .integers) (.new 1 (demoRules 1) (.new [1,2] (by decide)))
      [demoRegister 1, demoRegister 2, demoVote 1 ⟨7,1,0,0⟩,
        .updateValidatorSet ⟨[2,3],by decide⟩]).formedQc .integers
      (demoVote 2 ⟨7,1,0,0⟩)).map (·.signers) = some [2,1] := by decide +kernel
  obtain ⟨qc,hqc,hlist⟩ := Option.map_eq_some_iff.mp hsigners
  have hlive := h _ (mem_history _ _ [demoRegister 1, demoRegister 2, demoVote 1 ⟨7,1,0,0⟩,
    .updateValidatorSet ⟨[2,3],by decide⟩] _ []) qc hqc
  have hmember := (hlive.2 1 (by rw [hlist]; decide)).1
  exact absurd hmember (by decide +kernel)

end ZbxChain.HotStuffConsensus
