import ZbxChain.Consensus.NodeRun
import ZbxChain.Foundation.Quorum

/-! # Agreement in a network of HotStuff machines with Byzantine members

Every delivery moves one machine. What Byzantine members send is not restricted: any proposal
and any vote may be delivered to anyone at any time. The assumptions on a run are the size of
the faulty part, signatures that cannot be forged and block hashes that do not collide.

A quorum of votes that an honest machine has counted is a certificate of the abstract quorum
system, with phases as slots. Honest votes for one phase rest on a certificate of the phase
before, so a committed block is certified in every phase, and at most one block is certified in
a phase.
-/
namespace ZbxChain.HotStuffConsensus
open Machine Quorum

section Certificates
/-- The calls that come from the network and its timer. -/
def IsMessage : Call → Prop
  | .proposal _ _ | .vote _ _ | .timeout => True
  | _ => False

instance : DecidablePred IsMessage := fun call => match call with
  | .proposal _ _ | .vote _ _ | .timeout => isTrue trivial
  | .updateValidatorSet _ | .rotateEpochSeed _ | .registerValidatorPubkey _ _
  | .pruneSeenVotesBelow _ => isFalse id

variable {P : Platform} {vs : ValidatorSet} {keys : Address → BlsPubKey} {rules : SafetyRules}
  {cs : HotStuffConsensus} {calls : List Call} {e : Step} {qc : QuorumCertificate} {block : Block}

section Boot

structure Booted (rules : SafetyRules) (vs : ValidatorSet) (keys : Address → BlsPubKey)
    (cs : HotStuffConsensus) : Prop where
  validatorSet : cs.validatorSet = vs
  safetyRules : cs.safetyRules = rules
  blockStore : cs.blockStore = .new 1024
  voteAccumulators : cs.voteAccumulators = ∅
  registered : ∀ a pk, cs.validatorPubkeys.lookup a = some pk → pk = keys a

theorem Booted.register (h : Booted rules vs keys cs) (a : Address) :
    Booted rules vs keys (cs.registerValidatorPubkey a (keys a)) := by
  obtain ⟨hvs,hrules,hstore,hacc,hreg⟩ := h
  obtain ⟨registry,hcases,heq⟩ := registerValidatorPubkey_eq cs a (keys a)
  rw [heq]
  refine ⟨hvs,hrules,hstore,hacc,?_⟩
  intro b pk hlook
  rcases hcases with rfl | rfl
  · exact hreg b pk hlook
  · rcases AList.lookup_insert_some hlook with ⟨rfl,rfl⟩ | ⟨_,hold⟩
    · rfl
    · exact hreg b pk hold

theorem booted_boot (rules : SafetyRules) (vs : ValidatorSet) (keys : Address → BlsPubKey) :
    Booted rules vs keys (boot rules vs keys) := by
  have hfold : ∀ (l : List Address) (cs : HotStuffConsensus), Booted rules vs keys cs →
      Booted rules vs keys (l.foldl (fun cs a => cs.registerValidatorPubkey a (keys a)) cs) := by
    intro l
    induction l with
    | nil => exact fun _ h => h
    | cons a l ih => exact fun cs h => ih _ (h.register a)
  exact hfold _ _ ⟨rfl,rfl,rfl,rfl,fun _ _ h => nomatch h⟩

end Boot

section Node

theorem config_step (cs : HotStuffConsensus) {call : Call} (hmsg : IsMessage call) :
    (step P cs call).1.validatorSet = cs.validatorSet ∧
      (step P cs call).1.validatorPubkeys = cs.validatorPubkeys := by
  cases call with
  | proposal block parentQc =>
    by_cases h : cs.Proposable P block parentQc
    · rw [step, onProposal_of_proposable h]
      exact ⟨rfl,rfl⟩
    · rcases (onProposal_of_not_proposable h).2 with hstate | hstate
      · rw [step, hstate]
        exact ⟨rfl,rfl⟩
      · rw [step, hstate]
        exact ⟨rfl,rfl⟩
  | vote vote pk => exact ⟨frame_onVote.validatorSet,frame_onVote.validatorPubkeys⟩
  | timeout => exact ⟨rfl,rfl⟩
  | updateValidatorSet | rotateEpochSeed | registerValidatorPubkey | pruneSeenVotesBelow =>
    exact hmsg.elim

theorem config_run (hmsg : ∀ call ∈ calls, IsMessage call) (he : e ∈ history (step P) cs calls) :
    e.before.validatorSet = cs.validatorSet ∧ e.before.validatorPubkeys = cs.validatorPubkeys := by
  have hinv := state_invariant (step P) (G := fun _ call => IsMessage call)
    (I := fun s => s.validatorSet = cs.validatorSet ∧ s.validatorPubkeys = cs.validatorPubkeys)
    ⟨rfl,rfl⟩ ?_ calls (fun e he => hmsg e.call (call_mem _ he))
  · exact hinv.1 e he
  · rintro s call ⟨hvs,hkeys⟩ hcall
    obtain ⟨hvs',hkeys'⟩ := config_step (P := P) s hcall
    exact ⟨hvs'.trans hvs,hkeys'.trans hkeys⟩

/-- What is in the block store was proposed, and stands under its own hash. -/
def Stored (P : Platform) (past : List Step) (cs : HotStuffConsensus) : Prop :=
  ∀ h b, cs.blockStore.get h = some b →
    b.hash P = h ∧ ∃ e ∈ past, ∃ parentQc, e.call = .proposal b parentQc

theorem Stored.congr {past : List Step} {cs' : HotStuffConsensus} (h : Stored P past cs)
    (hstore : cs'.blockStore = cs.blockStore) : Stored P (past ++ [e]) cs' := by
  intro hash b hget
  obtain ⟨hhash,e',he',hcall⟩ := h hash b (hstore ▸ hget)
  exact ⟨hhash,e',List.mem_append_left _ he',hcall⟩

theorem stored_step {past : List Step} (call : Call) (h : Stored P past cs) :
    Stored P (past ++ [⟨cs,call,(step P cs call).2⟩]) (step P cs call).1 := by
  cases call with
  | proposal block parentQc =>
    have hstore : (step P cs (.proposal block parentQc)).1.blockStore = cs.blockStore ∨
        (step P cs (.proposal block parentQc)).1.blockStore = cs.blockStore.add P block := by
      by_cases hprop : cs.Proposable P block parentQc
      · rw [step, onProposal_of_proposable hprop]
        exact Or.inr rfl
      · rcases (onProposal_of_not_proposable hprop).2 with hstate | hstate
        · exact Or.inl (by rw [step, hstate])
        · exact Or.inr (by rw [step, hstate])
    rcases hstore with hsame | hadd
    · exact h.congr hsame
    · intro hash b hget
      rw [hadd] at hget
      rcases BlockStore.get_add hget with ⟨rfl,rfl⟩ | hold
      · exact ⟨rfl,_,List.mem_append_right _ (List.mem_singleton_self _),parentQc,rfl⟩
      · obtain ⟨hhash,e',he',hcall⟩ := h hash b hold
        exact ⟨hhash,e',List.mem_append_left _ he',hcall⟩
  | vote vote pk => exact h.congr frame_onVote.blockStore
  | timeout => exact h.congr rfl
  | updateValidatorSet addrs => exact h.congr rfl
  | rotateEpochSeed seed => exact h.congr rfl
  | registerValidatorPubkey addr pk =>
    obtain ⟨keys,-,hkeys⟩ := registerValidatorPubkey_eq cs addr pk
    rw [step, hkeys]
    exact h.congr rfl
  | pruneSeenVotesBelow committedRound => exact h.congr rfl

theorem stored_run (hstart : cs.blockStore = .new 1024) (calls : List Call) :
    Stored P (history (step P) cs calls) (final (step P) cs calls) := by
  refine trace_invariant (step P) (G := fun _ _ => True) ?_
    (fun past s a hpast _ => stored_step a hpast) calls (fun _ _ => trivial)
  intro h b hget
  rw [hstart] at hget
  cases hget

/-- A quorum of members whose votes for `data` were delivered and verify under their
registered keys. -/
def Backed (P : Platform) (vs : ValidatorSet) (keys : Address → BlsPubKey) (calls : List Call)
    (data : VoteData) : Prop :=
  ∃ S : Finset Address, (∀ a ∈ S, a ∈ vs.validators ∧ ∃ v pk, .vote v pk ∈ calls ∧ v.voter = a ∧
    v.data = data ∧ P.verifySingle v.signature (keys a) (data.signingHash P) = true) ∧
      vs.quorum ≤ S.card

theorem formedQc_backed (hmsg : ∀ call ∈ calls, IsMessage call)
    (he : e ∈ history (step P) (boot rules vs keys) calls)
    (hqc : e.before.formedQc P e.call = some qc) : Backed P vs keys calls qc.voteData := by
  have hboot := booted_boot rules vs keys
  obtain ⟨xs,ys,hsplit,hbefore⟩ := history_split _ he
  rw [hbefore] at hqc
  obtain ⟨acc,htally,hquorum,rfl,-⟩ := formedQc_tally hboot.voteAccumulators hqc
  have hearlier : ∀ call ∈ xs ++ [e.call], call ∈ calls := by
    intro call hcall
    rw [hsplit, ← List.singleton_append, ← List.append_assoc]
    exact List.mem_append_left _ hcall
  have hconfig : ∀ e' ∈ history (step P) (boot rules vs keys) (xs ++ [e.call]),
      e'.before.validatorSet = vs ∧
        e'.before.validatorPubkeys = (boot rules vs keys).validatorPubkeys := by
    intro e' he'
    obtain ⟨hvs,hkeys⟩ := config_run (fun call hcall => hmsg call (hearlier call hcall)) he'
    exact ⟨hvs.trans hboot.validatorSet,hkeys⟩
  refine ⟨(acc.formQc P).signers.toFinset,?_,?_⟩
  · intro a ha
    obtain ⟨e',he',v,⟨pk,hcall,hmember,hkey,hsig⟩,hvoter,hdata⟩ :=
      htally.signers (List.mem_toFinset.mp ha)
    obtain ⟨hvs,hkeys⟩ := hconfig e' he'
    rw [hvs, hvoter] at hmember
    rw [hkeys, hvoter] at hkey
    refine ⟨hmember,v,pk,hearlier _ (hcall ▸ call_mem _ he'),hvoter,hdata,?_⟩
    rw [VoteAccumulator.voteData_formQc, ← hdata, ← hboot.registered a pk hkey]
    exact hsig
  · obtain ⟨e',he',v,-,-,hopened⟩ := htally.opened
    rw [VoteAccumulator.card_signers_formQc htally.keyed, ← (hconfig e' he').1, ← hopened]
    exact hquorum

end Node

end Certificates

variable (P : Platform) (vs : ValidatorSet) (keys : Address → BlsPubKey)
  (rules : Address → SafetyRules)

def nodes (i : Address) : HotStuffConsensus := boot (rules i) vs keys

def runOf (ds : List (Address × Call)) (i : Address) : List Step :=
  history (step P) (nodes vs keys rules i) (callsTo i ds)

/-- What member `i` voted for in the run. -/
def castData (ds : List (Address × Call)) (i : Address) : List VoteData :=
  ((runOf P vs keys rules ds i).flatMap castVotes).map (·.data)

/-- Member `i` emits `Committed` in the run of the network. -/
def Commits (ds : List (Address × Call)) (i : Address) (block : Block) (qc : QuorumCertificate) :
    Prop :=
  ∃ e ∈ history (netStep (step P)) (nodes vs keys rules) ds,
    e.call.1 = i ∧ ConsensusEvent.committed block qc ∈ events e.output

structure Assumptions (faulty : Finset Address) (ds : List (Address × Call)) : Prop where
  distinct : vs.validators.Nodup
  fewFaulty : faulty.card ≤ (vs.validators.length - 1) / 3
  messages : ∀ d ∈ ds, IsMessage d.2
  /-- A vote that reaches an honest member and verifies under the key of an honest
  member was cast by that member. -/
  unforged : ∀ d ∈ ds, d.1 ∉ faulty → ∀ v ∈ d.2.delivered, v.voter ∈ vs.validators →
    v.voter ∉ faulty → P.verifySingle v.signature (keys v.voter) (v.data.signingHash P) = true →
      v.data ∈ castData P vs keys rules ds v.voter
  collisionFree : ∀ d ∈ ds, ∀ d' ∈ ds, d.1 ∉ faulty → d'.1 ∉ faulty → ∀ x ∈ d.2.proposed,
    ∀ x' ∈ d'.2.proposed, x.1.hash P = x'.1.hash P →
      x.1.header.canonicalEncode = x'.1.header.canonicalEncode

/-- Member `a` voted for hash `h` in phase `p` at height `n`. -/
def castAt (ds : List (Address × Call)) (n : ℕ) (a : Address) (p : ℕ) (h : H256) : Prop :=
  ∃ d ∈ castData P vs keys rules ds a,
    d.blockNumber.toNat = n ∧ d.phase.toNat = p ∧ d.blockHash = h

variable {P vs keys rules} {faulty : Finset Address} {ds : List (Address × Call)} {i : Address}
  {block : Block} {qc : QuorumCertificate} {data : VoteData} {n p : ℕ} {h h' : H256}

def committee (hnodup : vs.validators.Nodup)
    (hfaulty : faulty.card ≤ (vs.validators.length - 1) / 3) : Committee Address where
  members := vs.validators.toFinset
  faulty := faulty
  quorum := vs.quorum
  intersects := by
    rw [List.toFinset_card_of_nodup hnodup, vs.quorum_eq]
    exact supermajority_intersects (List.length_pos_of_ne_nil vs.nonempty) hfaulty

abbrev Assumptions.committee (H : Assumptions P vs keys rules faulty ds) : Committee Address :=
  HotStuffConsensus.committee H.distinct H.fewFaulty

theorem Assumptions.messagesTo (H : Assumptions P vs keys rules faulty ds) (i : Address) :
    ∀ call ∈ callsTo i ds, IsMessage call := by
  intro call hcall
  exact H.messages _ (mem_callsTo.mp hcall)

theorem mem_castData (hd : data ∈ castData P vs keys rules ds i) :
    ∃ e ∈ runOf P vs keys rules ds i, ∃ v ∈ castVotes e, v.data = data := by
  obtain ⟨v,hv,hdata⟩ := List.mem_map.mp hd
  obtain ⟨e,he,hcast⟩ := List.mem_flatMap.mp hv
  exact ⟨e,he,v,hcast,hdata⟩

theorem Assumptions.certified_of_backed (H : Assumptions P vs keys rules faulty ds)
    (hi : i ∉ faulty) (hbacked : Backed P vs keys (callsTo i ds) data) :
    Certified H.committee (castAt P vs keys rules ds data.blockNumber.toNat) data.phase.toNat
      data.blockHash := by
  obtain ⟨S,hS,hquorum⟩ := hbacked
  refine ⟨S,?_,hquorum,?_⟩
  · intro a ha
    exact List.mem_toFinset.mpr (hS a ha).1
  · intro a ha hhonest
    obtain ⟨hmember,v,pk,hcall,rfl,rfl,hsig⟩ := hS a ha
    have hcast := H.unforged (i,.vote v pk) (mem_callsTo.mp hcall) hi v rfl hmember hhonest hsig
    exact ⟨v.data,hcast,rfl,rfl,rfl⟩

theorem Assumptions.honestUnique (H : Assumptions P vs keys rules faulty ds) (n : ℕ) :
    HonestUnique H.committee (castAt P vs keys rules ds n) := by
  rintro a - p h h' ⟨d,hd,hn,hp,rfl⟩ ⟨d',hd',hn',hp',rfl⟩
  obtain ⟨v,hv,rfl⟩ := List.mem_map.mp hd
  obtain ⟨v',hv',rfl⟩ := List.mem_map.mp hd'
  have hkey : SafetyRules.phaseKey v = SafetyRules.phaseKey v' :=
    Prod.ext (UInt64.toNat_inj.mp (hn.trans hn'.symm)) (UInt8.toNat_inj.mp (hp.trans hp'.symm))
  have hsame := List.inj_on_of_nodup_map (nodup_castVotes (P := P) (callsTo a ds)) hv hv' hkey
  rw [hsame]

theorem Assumptions.rests (H : Assumptions P vs keys rules faulty ds) (hi : i ∉ faulty)
    (hcast : castAt P vs keys rules ds n i (p + 1) h) :
    Certified H.committee (castAt P vs keys rules ds n) p h := by
  obtain ⟨d,hd,rfl,hphase,rfl⟩ := hcast
  obtain ⟨e,he,v,hv,rfl⟩ := mem_castData hd
  rcases castVotes_origin (output_eq _ he) hv with ⟨b,q,-,-,hdata⟩ | ⟨qc,hqc,hhash,hnumber,hnext⟩
  · rw [hdata] at hphase
    cases hphase
  · have hp : qc.phase.toNat = p := by omega
    have hcert := H.certified_of_backed hi (formedQc_backed (H.messagesTo i) he hqc)
    rw [hhash, hnumber, ← hp]
    exact hcert

/-- A vote of the first phase answers a proposal that could be voted for. -/
theorem castAt_zero (hcast : castAt P vs keys rules ds n i 0 h) :
    ∃ e ∈ runOf P vs keys rules ds i, ∃ b parentQc, e.call = .proposal b parentQc ∧
      e.before.Proposable P b parentQc ∧ b.hash P = h ∧ b.number.toNat = n := by
  obtain ⟨d,hd,rfl,hphase,rfl⟩ := hcast
  obtain ⟨e,he,v,hv,rfl⟩ := mem_castData hd
  rcases castVotes_origin (output_eq _ he) hv with ⟨b,q,hcall,hprop,hdata⟩ | ⟨qc,-,-,-,hnext⟩
  · rw [hdata]
    exact ⟨e,he,b,q,hcall,hprop,rfl,rfl⟩
  · omega

theorem mem_of_runOf {e : Step} {call : Call} (he : e ∈ runOf P vs keys rules ds i)
    (hcall : e.call = call) : (i,call) ∈ ds := by
  rw [← mem_callsTo, ← hcall]
  exact call_mem _ he

theorem Assumptions.certified_of_commits (H : Assumptions P vs keys rules faulty ds)
    (hi : i ∉ faulty) (hcommits : Commits P vs keys rules ds i block qc) :
    Certified H.committee (castAt P vs keys rules ds qc.blockNumber.toNat) 2 (block.hash P) ∧
      (∃ parentQc, (i,.proposal block parentQc) ∈ ds) ∧ 0 < block.number := by
  obtain ⟨e,he,rfl,hevent⟩ := hcommits
  have hentry := netStep_entry _ he
  obtain ⟨hqc,hphase,hget,hheight⟩ := committed_origin (output_eq _ hentry) hevent
  have hcert := H.certified_of_backed hi (formedQc_backed (H.messagesTo _) hentry hqc)
  obtain ⟨xs,ys,hsplit,hbefore⟩ := history_split _ hentry
  dsimp only at hbefore hget hheight
  rw [hbefore] at hget
  obtain ⟨hhash,e',he',q,hcall⟩ := stored_run (booted_boot _ _ _).blockStore xs _ _ hget
  refine ⟨?_,⟨q,?_⟩,UInt64.lt_of_le_of_lt UInt64.zero_le hheight⟩
  · have hp : qc.voteData.phase.toNat = 2 := congrArg UInt8.toNat hphase
    rw [hp] at hcert
    rw [hhash]
    exact hcert
  · rw [← mem_callsTo, hsplit]
    exact List.mem_append_left _ (hcall ▸ call_mem _ he')

theorem Assumptions.committed_certified (H : Assumptions P vs keys rules faulty ds)
    (hi : i ∉ faulty) (hcommits : Commits P vs keys rules ds i block qc) {p : ℕ} (hp : p ≤ 2) :
    Certified H.committee (castAt P vs keys rules ds block.number.toNat) p (block.hash P) := by
  obtain ⟨hcert,⟨q,hproposed⟩,-⟩ := H.certified_of_commits hi hcommits
  have hrest : ∀ a, a ∉ H.committee.faulty → ∀ p,
      castAt P vs keys rules ds qc.blockNumber.toNat a (p + 1) (block.hash P) →
        Certified H.committee (castAt P vs keys rules ds qc.blockNumber.toNat) p (block.hash P) :=
    fun a ha p hcast => H.rests ha hcast
  obtain ⟨a,-,ha,hcast⟩ := (hcert.descend hrest (Nat.zero_le 2)).honest
  obtain ⟨e,he,b,q',hcall,-,hhash,hnumber⟩ := castAt_zero hcast
  have hsame := H.collisionFree _ hproposed _ (mem_of_runOf he hcall) hi ha (block,q) rfl (b,q') rfl
    hhash.symm
  have hheight : block.number.toNat = qc.blockNumber.toNat := by
    rw [← hnumber]
    exact congrArg UInt64.toNat (BlockHeader.number_of_canonicalEncode hsame)
  rw [hheight]
  exact hcert.descend hrest hp

/-- Two honest members never commit different blocks of one number. -/
theorem agreement (P : Platform) (vs : ValidatorSet) (keys : Address → BlsPubKey)
    (rules : Address → SafetyRules) (faulty : Finset Address) (ds : List (Address × Call))
    (H : Assumptions P vs keys rules faulty ds) :
    ∀ i, i ∉ faulty → ∀ j, j ∉ faulty → ∀ b qc b' qc', Commits P vs keys rules ds i b qc →
      Commits P vs keys rules ds j b' qc' → b.number = b'.number → b.hash P = b'.hash P := by
  intro i hi j hj b qc b' qc' hb hb' hnumber
  have hcert := H.committed_certified hi hb (le_refl 2)
  have hcert' := H.committed_certified hj hb' (le_refl 2)
  rw [← hnumber] at hcert'
  exact hcert.unique (H.honestUnique _) hcert'

def demoGenesis : QuorumCertificate := ⟨⟨0,0,0,0⟩,0,[],[]⟩

/-- The votes of `voters` for the hash `h` at height `n` in all three phases, each
delivered to every member. -/
def demoVotes (members voters : List Address) (h : H256) (n : UInt64) : List (Address × Call) :=
  [(0,0),(1,1),(2,1)].flatMap (fun pe => members.flatMap (fun i =>
    voters.map (fun a => (i,demoVote a ⟨h,n,pe.1,pe.2⟩))))

def demoPair : List (Address × Call) :=
  [(1,.proposal (demoBlock 0 1 2) demoGenesis), (2,.proposal (demoBlock 0 1 2) demoGenesis)] ++
    demoVotes [1,2] [1,2] ((demoBlock 0 1 2).hash .integers) 1

/-- In that run validator 1 commits the block. -/
theorem agreement_demoPair :
    (runOf .integers (.new [1,2] (by decide)) (fun a => (demoRules a).pubKey) demoRules
      demoPair 1).flatMap (fun e => (events e.output).filterMap committedOf) = [demoBlock 0 1 2] ∧
    ∀ i, i ∉ (∅ : Finset Address) → ∀ j, j ∉ (∅ : Finset Address) → ∀ b qc b' qc',
      Commits .integers (.new [1,2] (by decide)) (fun a => (demoRules a).pubKey) demoRules demoPair
        i b qc →
      Commits .integers (.new [1,2] (by decide)) (fun a => (demoRules a).pubKey) demoRules demoPair
        j b' qc' →
      b.number = b'.number → b.hash .integers = b'.hash .integers := by
  refine ⟨by decide +kernel,?_⟩
  exact agreement .integers (.new [1,2] (by decide)) (fun a => (demoRules a).pubKey) demoRules ∅
    demoPair ⟨by decide,by decide,by decide +kernel,by decide +kernel,by decide +kernel⟩

end ZbxChain.HotStuffConsensus
