import ZbxChain.Consensus.HotStuff

/-! # What the certificate behind a proposal proves

`QuorumCertificate::verify` checks the aggregate signature against the keys that the
certificate itself lists, and takes an empty list for the genesis certificate. Neither
it nor `on_proposal` compares the list with the registered keys or its length with the
quorum.
-/
namespace ZbxChain.HotStuffConsensus

variable (P : Platform) (cs : HotStuffConsensus)

/-- Aggregate verification of this certificate means that each listed key signed. -/
def SoundFor (Signed : BlsPubKey → VoteData → Prop) (qc : QuorumCertificate) : Prop :=
  P.verifyAggregate qc.aggSignature qc.signerPubkeys (qc.voteData.signingHash P) = true →
    ∀ pk ∈ qc.signerPubkeys, Signed pk qc.voteData

/-- The genesis certificate, or one that a quorum of members signed with their
registered keys. -/
def Justified (Signed : BlsPubKey → VoteData → Prop) (qc : QuorumCertificate) : Prop :=
  qc.blockNumber = 0 ∨ ∃ S : Finset Address, (∀ a ∈ S, a ∈ cs.validatorSet.validators ∧
    ∃ pk, cs.validatorPubkeys.lookup a = some pk ∧ Signed pk qc.voteData) ∧
      cs.validatorSet.quorum ≤ S.card

def castsVote (result : Except ConsensusError (List ConsensusEvent)) : Prop :=
  ∃ events vote, result = .ok events ∧ ConsensusEvent.voteCast vote ∈ events

def listedMembers (qc : QuorumCertificate) : Finset Address :=
  (cs.validatorSet.validators.filter (fun a =>
    (cs.validatorPubkeys.lookup a).any (fun pk => decide (pk ∈ qc.signerPubkeys)))).toFinset

variable {P cs} {block : Block} {qc : QuorumCertificate}

theorem castsVote_iff_proposable :
    castsVote (cs.onProposal P block qc).2 ↔ cs.Proposable P block qc := by
  by_cases h : cs.Proposable P block qc
  · rw [onProposal_of_proposable h]
    exact ⟨fun _ => h,fun _ => ⟨_,_,rfl,List.mem_singleton_self _⟩⟩
  · obtain ⟨⟨e,he⟩,-⟩ := onProposal_of_not_proposable h
    rw [he]
    constructor
    · rintro ⟨events,vote,hok,-⟩
      cases hok
    · intro hp
      exact absurd hp h

theorem mem_listedMembers {a : Address} : a ∈ cs.listedMembers qc ↔
    a ∈ cs.validatorSet.validators ∧
      ∃ pk, cs.validatorPubkeys.lookup a = some pk ∧ pk ∈ qc.signerPubkeys := by
  simp only [listedMembers, List.mem_toFinset, List.mem_filter, Option.any_eq_true,
    decide_eq_true_eq]

theorem quorum_pos (vs : ValidatorSet) : 0 < vs.quorum := by
  have := vs.quorum_eq
  omega

/-- A vote for a proposal vouches for its justification just when the certificate is
of number 0, lists the registered keys of a quorum of members, or the proposal falls to
one of the other checks. -/
theorem justified_iff_listed (P : Platform) (cs : HotStuffConsensus) (block : Block)
    (qc : QuorumCertificate) :
    (∀ Signed, SoundFor P Signed qc → castsVote (cs.onProposal P block qc).2 →
        cs.Justified Signed qc) ↔
      qc.blockNumber = 0 ∨ cs.validatorSet.quorum ≤ (cs.listedMembers qc).card ∨
        ¬ cs.Proposable P block qc := by
  constructor
  · intro hall
    by_contra hno
    push Not at hno
    obtain ⟨hnumber,hfew,hproposable⟩ := hno
    -- the least relation that is sound for this certificate
    have hjust := hall (fun pk _ => pk ∈ qc.signerPubkeys) (fun _ pk hpk => hpk)
      (castsVote_iff_proposable.mpr hproposable)
    rcases hjust with hzero | ⟨S,hS,hquorum⟩
    · exact hnumber hzero
    · have hsub : S ⊆ cs.listedMembers qc := by
        intro a ha
        obtain ⟨hmember,pk,hreg,hlisted⟩ := hS a ha
        exact mem_listedMembers.mpr ⟨hmember,pk,hreg,hlisted⟩
      have hcard := Finset.card_le_card hsub
      omega
  · rintro (hzero | hquorum | hrefused) Signed hsound hcast
    · exact Or.inl hzero
    · obtain ⟨hverify,-,-⟩ := castsVote_iff_proposable.mp hcast
      obtain ⟨a,ha⟩ := Finset.card_pos.mp ((quorum_pos _).trans_le hquorum)
      obtain ⟨-,pk₀,-,hpk₀⟩ := mem_listedMembers.mp ha
      have hnonempty : ¬ qc.signerPubkeys.isEmpty = true := by
        rw [List.isEmpty_iff]
        exact List.ne_nil_of_mem hpk₀
      rw [QuorumCertificate.verify, if_neg hnonempty] at hverify
      refine Or.inr ⟨cs.listedMembers qc,?_,hquorum⟩
      intro b hb
      obtain ⟨hmember,pk,hreg,hlisted⟩ := mem_listedMembers.mp hb
      exact ⟨hmember,pk,hreg,hsound hverify pk hlisted⟩
    · exact absurd (castsVote_iff_proposable.mp hcast) hrefused

/-- A certificate for block 5 without a single key carries a proposal through. -/
theorem not_justified_empty_certificate :
    ¬ ∀ Signed, SoundFor .integers Signed ⟨⟨99,5,0,0⟩,0,[],[]⟩ →
      castsVote ((boot (demoRules 1) (.new [1,2,3,4] (by decide))
        (fun a => (demoRules a).pubKey)).onProposal .integers (demoBlock 99 6 3)
          ⟨⟨99,5,0,0⟩,0,[],[]⟩).2 →
        (boot (demoRules 1) (.new [1,2,3,4] (by decide))
          (fun a => (demoRules a).pubKey)).Justified Signed ⟨⟨99,5,0,0⟩,0,[],[]⟩ := by
  intro h
  have hcast := castsVote_iff_proposable.mpr (show (boot (demoRules 1) (.new [1,2,3,4] (by decide))
    (fun a => (demoRules a).pubKey)).Proposable .integers (demoBlock 99 6 3)
      ⟨⟨99,5,0,0⟩,0,[],[]⟩ by decide +kernel)
  rcases h (fun _ _ => False) (fun _ _ hpk => nomatch hpk) hcast with hzero | ⟨S,hS,hquorum⟩
  · exact absurd hzero (by decide)
  · obtain ⟨a,ha⟩ := Finset.card_pos.mp ((quorum_pos _).trans_le hquorum)
    obtain ⟨-,pk,-,hsigned⟩ := hS a ha
    exact hsigned

end ZbxChain.HotStuffConsensus
