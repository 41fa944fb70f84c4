import ZbxChain.Consensus.Agreement

/-! # Committed blocks as one chain

The safety rules compare the number of the justifying certificate with the locked
round and never look at hashes, so nothing ties a proposal to the block its voters
are locked on. Where every accepted proposal carries a certificate of its own parent
with a quorum behind it, the parent of a certified block is certified one height
below, and agreement at each height makes the committed blocks a chain.
-/
namespace ZbxChain.HotStuffConsensus
open Machine Quorum

variable (P : Platform) (vs : ValidatorSet) (keys : Address → BlsPubKey)
  (rules : Address → SafetyRules)

def signersOf (q : QuorumCertificate) : Finset Address :=
  (vs.validators.filter (fun a => decide (keys a ∈ q.signerPubkeys))).toFinset

def CertifiesParent (b : Block) (q : QuorumCertificate) : Prop :=
  q.blockNumber.toNat + 1 = b.number.toNat ∧ q.blockHash = b.header.parentHash ∧
    vs.quorum ≤ (signersOf vs keys q).card

abbrev NetEntry :=
  Entry (Address → HotStuffConsensus) (Address × Call) (Except ConsensusError (List ConsensusEvent))

/-- A proposal above height 1 that the receiver accepts certifies its parent. -/
def ExtendsParent (e : NetEntry) : Prop :=
  ∀ x ∈ e.call.2.proposed, (e.before e.call.1).Proposable P x.1 x.2 → 1 < x.1.number →
    CertifiesParent vs keys x.1 x.2

instance (b : Block) (q : QuorumCertificate) : Decidable (CertifiesParent vs keys b q) :=
  inferInstanceAs (Decidable (_ ∧ _ ∧ _))

instance (e : NetEntry) : Decidable (ExtendsParent P vs keys e) :=
  inferInstanceAs (Decidable (∀ x ∈ e.call.2.proposed, _ → _ → _))

def GenuineSigners (faulty : Finset Address) (ds : List (Address × Call)) (q : QuorumCertificate) :
    Prop :=
  ∀ a ∈ vs.validators, keys a ∈ q.signerPubkeys → a ∉ faulty →
    q.voteData ∈ castData P vs keys rules ds a

instance (faulty : Finset Address) (ds : List (Address × Call)) (q : QuorumCertificate) :
    Decidable (GenuineSigners P vs keys rules faulty ds q) :=
  List.decidableBAll (fun a => keys a ∈ q.signerPubkeys → a ∉ faulty →
    q.voteData ∈ castData P vs keys rules ds a) vs.validators

/-- An aggregate that reaches an honest member and verifies has genuine signers. -/
def UnforgedAggregates (faulty : Finset Address) (ds : List (Address × Call)) : Prop :=
  ∀ d ∈ ds, d.1 ∉ faulty → ∀ x ∈ d.2.proposed,
    P.verifyAggregate x.2.aggSignature x.2.signerPubkeys (x.2.voteData.signingHash P) = true →
      GenuineSigners P vs keys rules faulty ds x.2

instance (faulty : Finset Address) (ds : List (Address × Call)) :
    Decidable (UnforgedAggregates P vs keys rules faulty ds) :=
  inferInstanceAs (Decidable (∀ d ∈ ds, _ → ∀ x ∈ d.2.proposed, _ → _))

/-- `y` is a child of `x`, which was proposed to an honest member. -/
def Link (faulty : Finset Address) (ds : List (Address × Call)) (x y : Block) : Prop :=
  y.header.parentHash = x.hash P ∧ x.number.toNat + 1 = y.number.toNat ∧
    ∃ i ∉ faulty, ∃ q, (i,.proposal x q) ∈ ds

variable {P vs keys rules} {faulty : Finset Address} {ds : List (Address × Call)} {i j : Address}
  {b b' : Block} {qc qc' : QuorumCertificate}

theorem Assumptions.parent_certified (H : Assumptions P vs keys rules faulty ds)
    (hagg : UnforgedAggregates P vs keys rules faulty ds)
    (hext : ∀ e ∈ history (netStep (step P)) (nodes vs keys rules) ds, e.call.1 ∉ faulty →
      ExtendsParent P vs keys e)
    {n : ℕ} (hproposed : ∃ i ∉ faulty, ∃ q, (i,.proposal b q) ∈ ds) (hpos : 0 < n)
    (hcert : Certified H.committee (castAt P vs keys rules ds (n + 1)) 0 (b.hash P)) :
    Certified H.committee (castAt P vs keys rules ds n) 0 b.header.parentHash := by
  obtain ⟨i,hi,q,hmem⟩ := hproposed
  obtain ⟨a,-,ha,hcast⟩ := hcert.honest
  obtain ⟨e,he,c,q',hcall,hprop,hhash,hnumber⟩ := castAt_zero hcast
  have hdelivered := mem_of_runOf he hcall
  have hparent : c.header.parentHash = b.header.parentHash :=
    BlockHeader.parentHash_of_canonicalEncode
      (H.collisionFree _ hdelivered _ hmem ha hi (c,q') rfl (b,q) rfl hhash)
  obtain ⟨e',he',hcall',hbefore⟩ := entry_netStep (step P) he
  have hone : 1 < c.number := by
    rw [UInt64.lt_iff_toNat_lt, hnumber]
    exact Nat.succ_lt_succ hpos
  have hparty : e'.call.1 = a := by rw [hcall']
  have hmessage : e'.call.2 = .proposal c q' := by rw [hcall', hcall]
  obtain ⟨hheight,hhash',hquorum⟩ := hext e' he' (hparty ▸ ha) (c,q') (by rw [hmessage]; rfl)
    (by rw [hparty, hbefore]; exact hprop) hone
  dsimp only at hheight hhash' hquorum
  have hheight' : q'.voteData.blockNumber.toNat = n := by
    rw [hnumber] at hheight
    exact Nat.succ.inj hheight
  have hq' : Certified H.committee (castAt P vs keys rules ds n) q'.voteData.phase.toNat
      c.header.parentHash := by
    refine ⟨signersOf vs keys q',?_,hquorum,?_⟩
    · intro s hs
      exact List.mem_toFinset.mpr (List.mem_filter.mp (List.mem_toFinset.mp hs)).1
    · intro s hs hhonest
      obtain ⟨hmember,hkey⟩ := List.mem_filter.mp (List.mem_toFinset.mp hs)
      have hlisted := of_decide_eq_true hkey
      have hverify : P.verifyAggregate q'.aggSignature q'.signerPubkeys
          (q'.voteData.signingHash P) = true := by
        have hnonempty : ¬ q'.signerPubkeys.isEmpty = true := by
          rw [List.isEmpty_iff]
          exact List.ne_nil_of_mem hlisted
        have hv := hprop.1
        rwa [QuorumCertificate.verify, if_neg hnonempty] at hv
      exact ⟨q'.voteData,hagg _ hdelivered ha (c,q') rfl hverify s hmember hlisted hhonest,hheight',
        rfl,hhash'⟩
  rw [← hparent]
  exact hq'.descend (fun s hs p hcast => H.rests hs hcast) (Nat.zero_le _)

theorem Assumptions.linked (H : Assumptions P vs keys rules faulty ds)
    (hagg : UnforgedAggregates P vs keys rules faulty ds)
    (hext : ∀ e ∈ history (netStep (step P)) (nodes vs keys rules) ds, e.call.1 ∉ faulty →
      ExtendsParent P vs keys e)
    (hb : ∃ i ∉ faulty, ∃ q, (i,.proposal b q) ∈ ds) (hpos : 0 < b.number.toNat)
    (hcert : Certified H.committee (castAt P vs keys rules ds b.number.toNat) 0 (b.hash P))
    (k : ℕ) : ∀ y : Block, (∃ i ∉ faulty, ∃ q, (i,.proposal y q) ∈ ds) →
      y.number.toNat = b.number.toNat + k + 1 →
      Certified H.committee (castAt P vs keys rules ds (b.number.toNat + k + 1)) 0 (y.hash P) →
      Relation.TransGen (Link P faulty ds) b y := by
  induction k with
  | zero =>
    intro y hy hheight hycert
    have hparent := H.parent_certified hagg hext hy hpos hycert
    have hhash := hparent.unique (H.honestUnique _) hcert
    exact Relation.TransGen.single ⟨hhash,hheight.symm,hb⟩
  | succ k ih =>
    intro y hy hheight hycert
    have hparent := H.parent_certified hagg hext hy (by omega) hycert
    obtain ⟨a,-,ha,hcast⟩ := hparent.honest
    obtain ⟨e,he,x,q,hcall,-,hhash,hnumber⟩ := castAt_zero hcast
    have hx : ∃ i ∉ faulty, ∃ q, (i,.proposal x q) ∈ ds := ⟨a,ha,q,mem_of_runOf he hcall⟩
    have hxcert : Certified H.committee
        (castAt P vs keys rules ds (b.number.toNat + k + 1)) 0 (x.hash P) := by
      rw [hhash]
      exact hparent
    refine (ih x hx hnumber hxcert).tail ⟨hhash.symm,?_,hx⟩
    rw [hnumber, hheight]

/-- Where every accepted proposal certifies its parent, the committed blocks of honest
members form one chain. -/
theorem committed_chain (P : Platform) (vs : ValidatorSet) (keys : Address → BlsPubKey)
    (rules : Address → SafetyRules) (faulty : Finset Address) (ds : List (Address × Call))
    (H : Assumptions P vs keys rules faulty ds)
    (hagg : UnforgedAggregates P vs keys rules faulty ds)
    (hext : ∀ e ∈ history (netStep (step P)) (nodes vs keys rules) ds, e.call.1 ∉ faulty →
      ExtendsParent P vs keys e) :
    ∀ i, i ∉ faulty → ∀ j, j ∉ faulty → ∀ b qc b' qc', Commits P vs keys rules ds i b qc →
      Commits P vs keys rules ds j b' qc' →
        (b'.number.toNat = b.number.toNat + 1 → b'.header.parentHash = b.hash P) ∧
        (b.number ≤ b'.number →
          b.hash P = b'.hash P ∨ Relation.TransGen (Link P faulty ds) b b') := by
  intro i hi j hj b qc b' qc' hb hb'
  obtain ⟨-,⟨q,hprop⟩,hpos⟩ := H.certified_of_commits hi hb
  obtain ⟨-,⟨q',hprop'⟩,-⟩ := H.certified_of_commits hj hb'
  have hposNat : 0 < b.number.toNat := UInt64.lt_iff_toNat_lt.mp hpos
  have hcert := H.committed_certified hi hb (Nat.zero_le 2)
  have hcert' := H.committed_certified hj hb' (Nat.zero_le 2)
  constructor
  · intro hnext
    rw [hnext] at hcert'
    exact (H.parent_certified hagg hext ⟨j,hj,q',hprop'⟩ hposNat hcert').unique
      (H.honestUnique _) hcert
  · intro hle
    rcases Nat.eq_or_lt_of_le (UInt64.le_iff_toNat_le.mp hle) with heq | hlt
    · rw [← heq] at hcert'
      exact Or.inl (hcert.unique (H.honestUnique _) hcert')
    · obtain ⟨k,hk⟩ := Nat.exists_eq_add_of_lt hlt
      rw [hk] at hcert'
      exact Or.inr (H.linked hagg hext ⟨i,hi,q,hprop⟩ hposNat hcert k b' ⟨j,hj,q',hprop'⟩ hk hcert')

/-- A single validator decides a block at height 1 and then one at height 2 that names
`parent` as its parent and comes with the certificate of the first. -/
def demoSingle (parent : H256) : List (Address × Call) :=
  let first := demoBlock 0 1 1
  let second := demoBlock parent 2 1
  [(1,.proposal first demoGenesis)] ++ demoVotes [1] [1] (first.hash .integers) 1 ++
    [(1,.proposal second (demoCertificate 1 ⟨first.hash .integers,1,0,0⟩))] ++
      demoVotes [1] [1] (second.hash .integers) 2

/-- With the right parent both blocks are committed. -/
theorem committed_chain_demoSingle :
    (runOf .integers (.new [1] (by decide)) (fun a => (demoRules a).pubKey) demoRules
      (demoSingle ((demoBlock 0 1 1).hash .integers)) 1).flatMap
        (fun e => (events e.output).filterMap committedOf) =
      [demoBlock 0 1 1, demoBlock ((demoBlock 0 1 1).hash .integers) 2 1] ∧
    ∀ i, i ∉ (∅ : Finset Address) → ∀ j, j ∉ (∅ : Finset Address) → ∀ b qc b' qc',
      Commits .integers (.new [1] (by decide)) (fun a => (demoRules a).pubKey) demoRules
        (demoSingle ((demoBlock 0 1 1).hash .integers)) i b qc →
      Commits .integers (.new [1] (by decide)) (fun a => (demoRules a).pubKey) demoRules
        (demoSingle ((demoBlock 0 1 1).hash .integers)) j b' qc' →
      (b'.number.toNat = b.number.toNat + 1 → b'.header.parentHash = b.hash .integers) ∧
      (b.number ≤ b'.number → b.hash .integers = b'.hash .integers ∨
        Relation.TransGen (Link .integers ∅ (demoSingle ((demoBlock 0 1 1).hash .integers))) b b') := by
  refine ⟨by decide +kernel,?_⟩
  exact committed_chain .integers (.new [1] (by decide)) (fun a => (demoRules a).pubKey) demoRules ∅
    (demoSingle ((demoBlock 0 1 1).hash .integers))
    ⟨by decide,by decide,by decide +kernel,by decide +kernel,by decide +kernel⟩ (by decide +kernel)
    (by decide +kernel)

/-- The second block names a parent that nobody has seen, and is committed all the same. -/
theorem committed_forks_demoSingle :
    Assumptions .integers (.new [1] (by decide)) (fun a => (demoRules a).pubKey) demoRules ∅
        (demoSingle 999) ∧
      UnforgedAggregates .integers (.new [1] (by decide)) (fun a => (demoRules a).pubKey) demoRules ∅
        (demoSingle 999) ∧
      (∃ qc, Commits .integers (.new [1] (by decide)) (fun a => (demoRules a).pubKey) demoRules
        (demoSingle 999) 1 (demoBlock 0 1 1) qc) ∧
      (∃ qc, Commits .integers (.new [1] (by decide)) (fun a => (demoRules a).pubKey) demoRules
        (demoSingle 999) 1 (demoBlock 999 2 1) qc) ∧
      (demoBlock 999 2 1).header.parentHash ≠ (demoBlock 0 1 1).hash .integers := by
  have hcommits : ∀ b : Block, (∃ e ∈ history (netStep (step .integers))
      (nodes (.new [1] (by decide)) (fun a => (demoRules a).pubKey) demoRules) (demoSingle 999),
        e.call.1 = 1 ∧ some b ∈ (events e.output).map committedOf) →
      ∃ qc, Commits .integers (.new [1] (by decide)) (fun a => (demoRules a).pubKey) demoRules
        (demoSingle 999) 1 b qc := by
    rintro b ⟨e,he,hone,hmem⟩
    obtain ⟨ev,hev,hb⟩ := List.mem_map.mp hmem
    cases ev with
    | committed b' qc =>
      cases hb
      exact ⟨qc,e,he,hone,hev⟩
    | voteCast v => cases hb
    | proposalRequired r p => cases hb
    | timeout r => cases hb
  exact ⟨⟨by decide,by decide,by decide +kernel,by decide +kernel,by decide +kernel⟩,
    by decide +kernel,hcommits _ (by decide +kernel),hcommits _ (by decide +kernel),
    by decide +kernel⟩

end ZbxChain.HotStuffConsensus
