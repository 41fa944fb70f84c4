import ZbxChain.Node.EventLoop

/-! # Who proposes, by round and by height

The driver takes its turn by the pacemaker's round, the state machine checks the proposer
of the block's height. A round that is one above the stored chain makes the two the same,
and the driver's own commits keep it there; after a timeout it is the proposer of the
pending height that is left to try again. A restart or a block from a peer moves the height
without the round.
-/
namespace ZbxChain.ConsensusDriver
open Machine
open HotStuffConsensus (demoBlock demoRules)

abbrev Step := Entry ConsensusDriver Call (Except RoundError Unit)

/-- The state machine does not refuse the driver's own candidate for its proposer. -/
def ProposerAgrees (e : Step) : Prop := ∀ n, e.output ≠ .error (.onProposal (.invalidProposer n))

/-- It is the driver's turn and its candidate has a valid parent certificate, but the height
of the candidate belongs to another proposer than the round. -/
def Mismatch (P : Platform) (d : ConsensusDriver) : Call → Prop
  | .tick t =>
    d.consensus.validatorSet.proposerForRound P d.consensus.currentRound = d.cfg.myKey.address ∧
      (∃ block, d.candidate P t = .ok (some block) ∧
        (d.consensus.parentQcFor block).verify P = true) ∧
      d.consensus.validatorSet.proposerForRound P (d.storage.head + 1) ≠
        d.consensus.validatorSet.proposerForRound P d.consensus.currentRound
  | .importBlock _ _ => False

variable {P : Platform} {d : ConsensusDriver} {t : Tick} {block : Block}
  {cs cs' : HotStuffConsensus} {qc : QuorumCertificate}

theorem vote_ne_invalidProposer (rules : SafetyRules) (data : VoteData) (parentQc : QuorumCertificate)
    (n : UInt64) : (rules.vote P data parentQc).2 ≠ .error (.invalidProposer n) := by
  unfold SafetyRules.vote
  split
  · simp
  · split
    · simp
    · split
      · simp
      · split
        · simp
        · simp

theorem onProposal_invalidProposer {n : UInt64} :
    (cs.onProposal P block qc).2 = .error (.invalidProposer n) ↔
      n = block.number ∧ qc.verify P = true ∧
        block.coinbase ≠ cs.validatorSet.proposerForRound P block.number := by
  have hmember : cs.validatorSet.contains (cs.validatorSet.proposerForRound P block.number) = true :=
    decide_eq_true (cs.validatorSet.proposerForRound_mem P block.number)
  unfold HotStuffConsensus.onProposal
  by_cases hqc : qc.verify P = true
  · rw [if_neg (not_not.mpr hqc)]
    dsimp only
    by_cases hproposer : block.coinbase = cs.validatorSet.proposerForRound P block.number
    · rw [if_neg (not_not.mpr hproposer), if_neg (not_not.mpr hmember)]
      have hvote := vote_ne_invalidProposer (P := P) cs.safetyRules
        ⟨block.hash P,block.number,Phase.prepare.toUInt8,block.header.epoch⟩ qc n
      cases hresult : cs.safetyRules.vote P
          ⟨block.hash P,block.number,Phase.prepare.toUInt8,block.header.epoch⟩ qc with
      | mk rules result =>
        rw [hresult] at hvote
        cases result with
        | error e => simpa [hproposer] using hvote
        | ok v => simp [hproposer]
    · rw [if_pos hproposer]
      simp [hqc, hproposer, eq_comm]
  · rw [if_pos hqc]
    simp [hqc]

theorem patchEpochSeed_number (epochLength : UInt64) :
    (cs.patchEpochSeed epochLength block).number = block.number := by
  unfold HotStuffConsensus.patchEpochSeed
  split
  · rfl
  · rfl

theorem patchEpochSeed_coinbase (epochLength : UInt64) :
    (cs.patchEpochSeed epochLength block).coinbase = block.coinbase := by
  unfold HotStuffConsensus.patchEpochSeed
  split
  · rfl
  · rfl

theorem candidate_spec (h : d.candidate P t = .ok (some block)) :
    block.number = d.storage.head + 1 ∧ block.coinbase = d.cfg.myKey.address := by
  unfold candidate at h
  cases hbuild : buildCandidate P d.storage d.cfg.producerCfg t.txs t.clock with
  | error message =>
    rw [hbuild] at h
    cases h
  | ok built =>
    rw [hbuild] at h
    cases built with
    | none => cases h
    | some b =>
      cases h
      obtain ⟨hnumber,hcoinbase⟩ := buildCandidate_spec hbuild
      rw [patchEpochSeed_number, patchEpochSeed_coinbase, hnumber, hcoinbase]
      exact ⟨rfl,d.cfg.ownCoinbase⟩

theorem awaitCommit_ne_onProposal (d : ConsensusDriver) (events : List ConsensusEvent) (t : Tick)
    (e : ConsensusError) : (d.awaitCommit P events t).2 ≠ .error (.onProposal e) := by
  unfold awaitCommit
  dsimp only
  split
  · simp
  · rename_i b _
    cases (doCommit P _ b t.execution t.elected).2 with
    | error message => simp [Except.mapError]
    | ok u => simp [Except.mapError]

/-- The driver with its candidate handed in. -/
def handedIn (P : Platform) (d : ConsensusDriver) (block : Block) : ConsensusDriver :=
  { d with
    pendingBlocks := d.pendingBlocks.insert (block.hash P) block
    consensus := (d.consensus.onProposal P block (d.consensus.parentQcFor block)).1 }

/-- The possible courses of a tick: no proposal is made, it is refused, or it is accepted. -/
theorem runRound_cases (P : Platform) (d : ConsensusDriver) (t : Tick) :
    ((d.consensus.validatorSet.proposerForRound P d.consensus.currentRound ≠ d.cfg.myKey.address ∨
        ∀ block, d.candidate P t ≠ .ok (some block)) ∧ (d.runRound P t).1 = d ∧
      ∀ e, (d.runRound P t).2 ≠ .error (.onProposal e)) ∨
    d.consensus.validatorSet.proposerForRound P d.consensus.currentRound = d.cfg.myKey.address ∧
      ∃ block, d.candidate P t = .ok (some block) ∧
        ((∃ e, (d.consensus.onProposal P block (d.consensus.parentQcFor block)).2 = .error e ∧
            (d.runRound P t).1 = d.handedIn P block ∧
            ∀ n, (d.runRound P t).2 = .error (.onProposal (.invalidProposer n)) ↔
              e = .invalidProposer n) ∨
          ∃ events, (d.consensus.onProposal P block (d.consensus.parentQcFor block)).2 = .ok events ∧
            d.runRound P t = (d.handedIn P block).awaitCommit P events t) := by
  unfold runRound handedIn
  dsimp only
  by_cases hturn :
      d.consensus.validatorSet.proposerForRound P d.consensus.currentRound = d.cfg.myKey.address
  · rw [if_neg (not_not.mpr hturn)]
    cases hcand : d.candidate P t with
    | error message => exact Or.inl ⟨Or.inr (by simp),rfl,by simp⟩
    | ok built =>
      cases built with
      | none => exact Or.inl ⟨Or.inr (by simp),rfl,by simp⟩
      | some block =>
        refine Or.inr ⟨hturn,block,rfl,?_⟩
        dsimp only
        rcases d.consensus.onProposal P block (d.consensus.parentQcFor block) with ⟨cs,e | events⟩
        · refine Or.inl ⟨e,rfl,?_⟩
          cases e with
          | equivocation r seen attempted => simp
          | safetyViolation | staleRound | invalidProposer | duplicateVote | staleProposal
          | invalidTimeoutCertificate | remoteEquivocation | invalidQC | invalidMessage | invalidEpoch => simp
        · exact Or.inr ⟨events,rfl,rfl⟩
  · rw [if_pos hturn]
    exact Or.inl ⟨Or.inl hturn,rfl,by simp⟩

theorem runRound_invalidProposer {n : UInt64} :
    (d.runRound P t).2 = .error (.onProposal (.invalidProposer n)) ↔
      d.consensus.validatorSet.proposerForRound P d.consensus.currentRound = d.cfg.myKey.address ∧
        ∃ block, d.candidate P t = .ok (some block) ∧
          (d.consensus.onProposal P block (d.consensus.parentQcFor block)).2 =
            .error (.invalidProposer n) := by
  rcases runRound_cases P d t with ⟨hidle,-,hno⟩ | ⟨hturn,block,hcand,hrun⟩
  · constructor
    · intro h
      exact absurd h (hno _)
    · rintro ⟨hturn,block,hcand,-⟩
      rcases hidle with hother | hnone
      · exact absurd hturn hother
      · exact absurd hcand (hnone block)
  · have hsame : (∃ b, d.candidate P t = .ok (some b) ∧
        (d.consensus.onProposal P b (d.consensus.parentQcFor b)).2 = .error (.invalidProposer n)) ↔
        (d.consensus.onProposal P block (d.consensus.parentQcFor block)).2 =
          .error (.invalidProposer n) := by
      constructor
      · rintro ⟨b,hb,herr⟩
        rw [hcand] at hb
        cases hb
        exact herr
      · intro herr
        exact ⟨block,hcand,herr⟩
    rw [hsame]
    simp only [hturn, true_and]
    rcases hrun with ⟨e,herr,-,hreported⟩ | ⟨events,hok,hawait⟩
    · rw [hreported, herr, Except.error.injEq]
    · rw [hawait, hok]
      exact iff_of_false (awaitCommit_ne_onProposal _ events t _) nofun

theorem agrees_iff {e : Step} (hout : e.output = (step P e.before e.call).2) :
    ProposerAgrees e ↔ ¬ Mismatch P e.before e.call := by
  unfold ProposerAgrees
  rw [hout]
  cases e.call with
  | importBlock block execution => simp [step, Mismatch]
  | tick t =>
    simp only [step, ne_eq, runRound_invalidProposer, onProposal_invalidProposer]
    constructor
    · rintro hagrees ⟨hturn,⟨block,hcand,hverify⟩,hne⟩
      obtain ⟨hnumber,hcoinbase⟩ := candidate_spec hcand
      refine hagrees block.number ⟨hturn,block,hcand,rfl,hverify,?_⟩
      rw [hcoinbase, hnumber, ← hturn]
      exact fun h => hne h.symm
    · rintro hmatch n ⟨hturn,block,hcand,-,hverify,hne⟩
      obtain ⟨hnumber,hcoinbase⟩ := candidate_spec hcand
      refine hmatch ⟨hturn,⟨block,hcand,hverify⟩,?_⟩
      rw [hcoinbase, hnumber, ← hturn] at hne
      exact fun h => hne h.symm

structure CommitFrame (cs cs' : HotStuffConsensus) : Prop where
  pacemaker : cs'.pacemaker = cs.pacemaker
  committedHeight : cs'.committedHeight = cs.committedHeight
  blockStore : cs'.blockStore = cs.blockStore
  safetyRules : cs'.safetyRules = cs.safetyRules

theorem CommitFrame.refl (cs : HotStuffConsensus) : CommitFrame cs cs := ⟨rfl,rfl,rfl,rfl⟩

theorem CommitFrame.trans {cs'' : HotStuffConsensus} (h : CommitFrame cs cs')
    (h' : CommitFrame cs' cs'') : CommitFrame cs cs'' :=
  ⟨h'.pacemaker.trans h.pacemaker,h'.committedHeight.trans h.committedHeight,
    h'.blockStore.trans h.blockStore,h'.safetyRules.trans h.safetyRules⟩

theorem commitFrame_update (cs : HotStuffConsensus) (validatorSet : ValidatorSet)
    (validatorPubkeys : Table Address BlsPubKey)
    (seenVotes : Table (UInt64 × UInt8 × Address) (H256 × Vote × BlsPubKey)) :
    CommitFrame cs { cs with
      validatorSet := validatorSet, validatorPubkeys := validatorPubkeys, seenVotes := seenVotes } :=
  ⟨rfl,rfl,rfl,rfl⟩

theorem commitFrame_registerAll (validators : List (Address × BlsPubKey)) :
    CommitFrame cs (cs.registerAll validators) := by
  unfold HotStuffConsensus.registerAll
  induction validators generalizing cs with
  | nil => exact CommitFrame.refl cs
  | cons v rest ih =>
    obtain ⟨keys,-,hkeys⟩ := HotStuffConsensus.registerValidatorPubkey_eq cs v.1 v.2
    rw [List.foldl_cons, hkeys]
    exact (commitFrame_update cs _ keys _).trans ih

theorem commitFrame_rotateAfter (epochLength height : UInt64) (committed : Block) :
    CommitFrame cs (cs.rotateAfter P epochLength height committed) := by
  unfold HotStuffConsensus.rotateAfter
  split
  · exact commitFrame_update cs _ _ _
  · exact CommitFrame.refl cs

theorem commitFrame_refreshValidators (epochLength height : UInt64)
    (elected : Option { l : List (Address × BlsPubKey) // l ≠ [] }) :
    CommitFrame cs (cs.refreshValidators epochLength height elected) := by
  unfold HotStuffConsensus.refreshValidators
  cases elected with
  | none => exact CommitFrame.refl cs
  | some l =>
    dsimp only
    split
    · exact (commitFrame_registerAll l.1).trans (commitFrame_update _ _ _ _)
    · exact CommitFrame.refl cs

/-- A commit that fails before the write leaves the chain and the validators; otherwise the
chain has grown by the block. -/
theorem doCommit_outcome (d : ConsensusDriver) (block : Block) (execution : Execution)
    (elected : Option { l : List (Address × BlsPubKey) // l ≠ [] }) :
    (d.doCommit P block execution elected).1.cfg = d.cfg ∧
      CommitFrame d.consensus (d.doCommit P block execution elected).1.consensus ∧
      ((d.doCommit P block execution elected).1.storage = d.storage ∧
          (d.doCommit P block execution elected).1.consensus.validatorSet =
            d.consensus.validatorSet ∨
        d.storage.head = saturatingSub64 block.number 1 ∧ ∃ exec : ExecOutput,
          (d.doCommit P block execution elected).1.storage =
            d.storage.putBlock (exec.patch block)) := by
  unfold doCommit
  dsimp only
  cases hseed : validateEpochSeed block.number block.header.epochSeed
      d.consensus.validatorSet.epochSeed d.cfg.epochLength with
  | error message => exact ⟨rfl,CommitFrame.refl _,Or.inl ⟨rfl,rfl⟩⟩
  | ok u =>
    dsimp only
    have hprune : CommitFrame d.consensus (d.consensus.pruneSeenVotesBelow block.number) :=
      commitFrame_update d.consensus _ _ _
    have hcases := executeAndCommit_cases d.storage block execution
    cases hexec : executeAndCommit d.storage block execution with
    | mk storage result =>
      rw [hexec] at hcases
      cases result with
      | error message =>
        refine ⟨rfl,hprune,?_⟩
        rcases hcases with ⟨hsame,-⟩ | hwritten
        · exact Or.inl ⟨hsame,rfl⟩
        · exact Or.inr hwritten
      | ok committed =>
        refine ⟨rfl,?_,?_⟩
        · exact (hprune.trans (commitFrame_rotateAfter _ _ committed)).trans
            (commitFrame_refreshValidators _ _ elected)
        · rcases hcases with ⟨-,message,hfailed⟩ | hwritten
          · cases hfailed
          · exact Or.inr hwritten

/-- The driver is at the round of the next height, or at the one after it and has spent its
own proposal for the next height. -/
structure OnTrack (P : Platform) (d : ConsensusDriver) : Prop where
  committed : d.storage.head.toNat ≤ d.consensus.committedHeight.toNat
  stored : ∀ hash b, d.consensus.blockStore.get hash = some b →
    b.number.toNat ≤ d.storage.head.toNat + 1
  round : d.consensus.currentRound = d.storage.head + 1 ∨
    d.consensus.currentRound = d.storage.head + 1 + 1 ∧
      d.consensus.validatorSet.proposerForRound P (d.storage.head + 1) = d.cfg.myKey.address ∧
      (d.storage.head + 1,Phase.prepare.toUInt8) ∈ d.consensus.safetyRules.state.votedPhases

theorem OnTrack.no_mismatch (h : OnTrack P d) (call : Call) : ¬ Mismatch P d call := by
  cases call with
  | importBlock block execution => exact id
  | tick t =>
    rintro ⟨hturn,-,hne⟩
    rcases h.round with hround | ⟨-,hmine,-⟩
    · rw [hround] at hne
      exact hne rfl
    · rw [hmine, hturn] at hne
      exact hne rfl

/-- The driver's proposal for the next height has been accepted in the round of that height. -/
structure Proposed (P : Platform) (d : ConsensusDriver) : Prop where
  committed : d.storage.head.toNat ≤ d.consensus.committedHeight.toNat
  stored : ∀ hash b, d.consensus.blockStore.get hash = some b →
    b.number.toNat ≤ d.storage.head.toNat + 1
  round : d.consensus.currentRound = d.storage.head + 1
  mine : d.consensus.validatorSet.proposerForRound P (d.storage.head + 1) = d.cfg.myKey.address
  voted : (d.storage.head + 1,Phase.prepare.toUInt8) ∈ d.consensus.safetyRules.state.votedPhases

theorem toNat_candidate (hhead : d.storage.head.toNat + 1 < 2 ^ 64)
    (hcand : d.candidate P t = .ok (some block)) : block.number.toNat = d.storage.head.toNat + 1 := by
  rw [(candidate_spec hcand).1, toNat_add_one hhead]

theorem stored_add (h : OnTrack P d) (hhead : d.storage.head.toNat + 1 < 2 ^ 64)
    (hcand : d.candidate P t = .ok (some block)) (hash : H256) (b : Block)
    (hget : (d.consensus.blockStore.add P block).get hash = some b) :
    b.number.toNat ≤ d.storage.head.toNat + 1 := by
  rcases BlockStore.get_add hget with ⟨-,rfl⟩ | hold
  · exact (toNat_candidate hhead hcand).le
  · exact h.stored hash b hold

theorem OnTrack.proposed (h : OnTrack P d) (hhead : d.storage.head.toNat + 1 < 2 ^ 64)
    (hcand : d.candidate P t = .ok (some block))
    (hprop : d.consensus.Proposable P block (d.consensus.parentQcFor block))
    (pending : Table H256 Block) :
    Proposed P { d with
      pendingBlocks := pending
      consensus := { d.consensus with
        blockStore := d.consensus.blockStore.add P block
        safetyRules := { d.consensus.safetyRules with
          state := d.consensus.safetyRules.state.record (HotStuffConsensus.prepareData P block) } } } := by
  obtain ⟨hnumber,hcoinbase⟩ := candidate_spec hcand
  obtain ⟨-,hproposer,-,hfirst,-⟩ := hprop
  rw [hcoinbase, hnumber] at hproposer
  have hfirst' : (d.storage.head + 1,Phase.prepare.toUInt8) ∉
      d.consensus.safetyRules.state.votedPhases := by
    rw [← hnumber]
    exact hfirst
  refine ⟨h.committed,stored_add h hhead hcand,?_,hproposer.symm,?_⟩
  · rcases h.round with hround | ⟨-,-,hvoted⟩
    · exact hround
    · exact absurd hvoted hfirst'
  · rw [← hnumber]
    exact Finset.mem_insert_self _ _

theorem OnTrack.refused (h : OnTrack P d) (hhead : d.storage.head.toNat + 1 < 2 ^ 64)
    (hcand : d.candidate P t = .ok (some block))
    (hcs : cs = d.consensus ∨
      cs = { d.consensus with blockStore := d.consensus.blockStore.add P block })
    (pending : Table H256 Block) :
    OnTrack P { d with pendingBlocks := pending, consensus := cs } := by
  rcases hcs with rfl | rfl
  · exact ⟨h.committed,h.stored,h.round⟩
  · exact ⟨h.committed,stored_add h hhead hcand,h.round⟩

theorem Proposed.undecided (h : Proposed P d) (hk : HotStuffConsensus.Kept d.consensus cs)
    (ho : HotStuffConsensus.Outcome d.consensus cs none) :
    OnTrack P { d with consensus := cs } := by
  obtain ⟨hheight,hround⟩ := ho
  refine ⟨?_,?_,?_⟩
  · rw [hheight]
    exact h.committed
  · rw [hk.blockStore]
    exact h.stored
  · rcases hround with hsame | htimeout
    · refine Or.inl ?_
      rw [HotStuffConsensus.currentRound, hsame]
      exact h.round
    · refine Or.inr ⟨?_,?_,hk.votedPhases h.voted⟩
      · rw [HotStuffConsensus.currentRound, htimeout, Pacemaker.currentRound_onTimeout]
        exact congrArg (· + 1) h.round
      · rw [hk.validatorSet]
        exact h.mine

theorem Proposed.number (h : Proposed P d) (hdecides : HotStuffConsensus.Decides d.consensus cs block) :
    block.number.toNat = d.storage.head.toNat + 1 := by
  obtain ⟨⟨hash,hget⟩,hheight,-,-⟩ := hdecides
  have hstored := h.stored hash block hget
  have hcommitted := h.committed
  rw [UInt64.lt_iff_toNat_lt] at hheight
  omega

/-- A decided block brings the chain and the round up together; if its commit fails before
the write, the driver has spent its proposal. -/
theorem Proposed.decided (h : Proposed P d) (hhead : d.storage.head.toNat + 1 < 2 ^ 64)
    (hk : HotStuffConsensus.Kept d.consensus cs)
    (hdecides : HotStuffConsensus.Decides d.consensus cs block) (execution : Execution)
    (elected : Option { l : List (Address × BlsPubKey) // l ≠ [] })
    (hnext : (doCommit P { d with consensus := cs } block execution elected).1.storage.head.toNat
      + 1 < 2 ^ 64) :
    OnTrack P (doCommit P { d with consensus := cs } block execution elected).1 := by
  have hnumber : block.number.toNat = d.storage.head.toNat + 1 := h.number hdecides
  have heq : block.number = d.storage.head + 1 := by
    rw [← UInt64.toNat_inj, hnumber, toNat_add_one hhead]
  obtain ⟨-,-,hheight,epoch,hround⟩ := hdecides
  obtain ⟨hcfg,hframe,houtcome⟩ := doCommit_outcome (P := P) { d with consensus := cs } block
    execution elected
  have hcommitted : (doCommit P { d with consensus := cs } block execution elected).1.consensus.committedHeight
      = block.number := hframe.committedHeight.trans hheight
  have hstore : (doCommit P { d with consensus := cs } block execution elected).1.consensus.blockStore
      = d.consensus.blockStore := hframe.blockStore.trans hk.blockStore
  have hpacemaker : (doCommit P { d with consensus := cs } block execution elected).1.consensus.pacemaker
      = d.consensus.pacemaker.advanceRound (block.number + 1) epoch := hframe.pacemaker.trans hround
  rcases houtcome with ⟨hstorage,hset⟩ | ⟨-,exec,hstorage⟩
  · refine ⟨?_,?_,?_⟩
    · rw [hcommitted, hstorage, hnumber]
      exact Nat.le_succ _
    · rw [hstore, hstorage]
      exact h.stored
    · rw [hstorage, HotStuffConsensus.currentRound, hpacemaker]
      rcases Pacemaker.currentRound_advanceRound d.consensus.pacemaker (block.number + 1) epoch with
        hmoved | hstayed
      · refine Or.inr ⟨by rw [hmoved, heq],?_,?_⟩
        · rw [hset, hk.validatorSet, hcfg]
          exact h.mine
        · rw [hframe.safetyRules]
          exact hk.votedPhases h.voted
      · exact Or.inl (hstayed.trans h.round)
  · have hgrown : (doCommit P { d with consensus := cs } block execution elected).1.storage.head
        = block.number := by
      rw [hstorage]
      refine ZbxDb.head_putBlock ?_
      rw [UInt64.lt_iff_toNat_lt]
      exact Nat.lt_of_succ_le hnumber.ge
    rw [hgrown] at hnext
    refine ⟨?_,?_,Or.inl ?_⟩
    · rw [hcommitted, hgrown]
    · intro hash b hget
      rw [hstore] at hget
      have hle := h.stored hash b hget
      rw [hgrown, hnumber]
      omega
    · rw [hgrown, HotStuffConsensus.currentRound, hpacemaker]
      refine Pacemaker.advanceRound_of_lt _ _ _ ?_
      have hcurrent : d.consensus.pacemaker.currentRound = block.number := h.round.trans heq.symm
      rw [hcurrent, UInt64.lt_iff_toNat_lt, toNat_add_one hnext]
      exact Nat.lt_succ_self _

theorem head_le_awaitCommit (d : ConsensusDriver) (events : List ConsensusEvent) (t : Tick) :
    d.storage.head ≤ (d.awaitCommit P events t).1.storage.head := by
  unfold awaitCommit
  dsimp only
  split
  · exact UInt64.le_refl _
  · rename_i block _
    obtain ⟨-,-,⟨hstorage,-⟩ | ⟨-,exec,hstorage⟩⟩ := doCommit_outcome (P := P)
      { d with consensus := (d.consensus.collectVotes P (P.toPubkey d.cfg.myKey.blsPriv)
        t.channelClosed t.inbound events).1 } block t.execution t.elected
    · rw [hstorage]
      exact UInt64.le_refl _
    · rw [hstorage]
      exact ZbxDb.head_le_putBlock

theorem Proposed.awaitCommit (h : Proposed P d) (hhead : d.storage.head.toNat + 1 < 2 ^ 64)
    {events : List ConsensusEvent} (hready : HotStuffConsensus.Ready d.consensus d.consensus events)
    (hnext : (d.awaitCommit P events t).1.storage.head.toNat + 1 < 2 ^ 64) :
    OnTrack P (d.awaitCommit P events t).1 := by
  obtain ⟨hkept,houtcome⟩ := HotStuffConsensus.collectVotes_outcome (P := P)
    (P.toPubkey d.cfg.myKey.blsPriv) t.channelClosed t.inbound hready
  unfold ConsensusDriver.awaitCommit at hnext ⊢
  cases hvotes : d.consensus.collectVotes P (P.toPubkey d.cfg.myKey.blsPriv) t.channelClosed
      t.inbound events with
  | mk cs committed =>
    rw [hvotes] at hkept houtcome hnext
    cases committed with
    | none => exact h.undecided hkept houtcome
    | some block => exact h.decided hhead hkept houtcome t.execution t.elected hnext

theorem OnTrack.tick (h : OnTrack P d) (hhead : d.storage.head.toNat + 1 < 2 ^ 64) (t : Tick)
    (hnext : (d.runRound P t).1.storage.head.toNat + 1 < 2 ^ 64) :
    OnTrack P (d.runRound P t).1 := by
  rcases runRound_cases P d t with ⟨-,hsame,-⟩ | ⟨-,block,hcand,⟨e,herr,hstate,-⟩ | ⟨events,hok,hrun⟩⟩
  · rw [hsame]
    exact h
  · have hprop : ¬ d.consensus.Proposable P block (d.consensus.parentQcFor block) := by
      intro hprop
      rw [HotStuffConsensus.onProposal_of_proposable hprop] at herr
      cases herr
    rw [hstate]
    exact h.refused hhead hcand (HotStuffConsensus.onProposal_of_not_proposable hprop).2 _
  · have hprop : d.consensus.Proposable P block (d.consensus.parentQcFor block) := by
      by_contra hprop
      obtain ⟨⟨e,he⟩,-⟩ := HotStuffConsensus.onProposal_of_not_proposable hprop
      rw [he] at hok
      cases hok
    have hproposal := HotStuffConsensus.onProposal_of_proposable hprop
    rw [hproposal] at hok
    cases hok
    rw [hrun, handedIn, hproposal] at hnext ⊢
    exact (h.proposed hhead hcand hprop _).awaitCommit hhead (Or.inl ⟨⟨rfl,rfl⟩,Or.inr ⟨_,rfl⟩⟩) hnext

theorem head_le_runRound (d : ConsensusDriver) (t : Tick) :
    d.storage.head ≤ (d.runRound P t).1.storage.head := by
  rcases runRound_cases P d t with ⟨-,hsame,-⟩ | ⟨-,block,-,⟨e,-,hstate,-⟩ | ⟨events,-,hrun⟩⟩
  · rw [hsame]
    exact UInt64.le_refl _
  · rw [hstate]
    exact UInt64.le_refl _
  · rw [hrun]
    exact head_le_awaitCommit (d.handedIn P block) events t

theorem commitFrame_new (P : Platform) (cfg : ConsensusConfig) (storage : ZbxDb) :
    CommitFrame (HotStuffConsensus.new cfg.myKey.address
      (SafetyRules.new P cfg.myKey.blsPriv cfg.myKey.address)
      (ValidatorSet.new (cfg.validators.map Prod.fst)
        (fun h => cfg.nonempty (List.map_eq_nil_iff.mp h)))) (new P cfg storage).consensus := by
  unfold new
  refine CommitFrame.trans ?_ (commitFrame_registerAll cfg.validators)
  cases cfg.genesisEpochSeed with
  | none => exact CommitFrame.refl _
  | some seed =>
    dsimp only
    split
    · exact commitFrame_update _ _ _ _
    · exact CommitFrame.refl _

theorem onTrack_new (P : Platform) (cfg : ConsensusConfig) {storage : ZbxDb}
    (hgenesis : storage.head = 0) : OnTrack P (new P cfg storage) := by
  have hframe := commitFrame_new P cfg storage
  have hhead : (new P cfg storage).storage.head = 0 := hgenesis
  refine ⟨?_,?_,Or.inl ?_⟩
  · rw [hhead]
    exact Nat.zero_le _
  · intro hash b hget
    rw [hframe.blockStore] at hget
    cases hget
  · rw [hhead, HotStuffConsensus.currentRound, hframe.pacemaker]
    rfl

theorem onTrack_run (P : Platform) (cfg : ConsensusConfig) {storage : ZbxDb}
    (hgenesis : storage.head = 0) (calls : List Call) (hown : ∀ call ∈ calls, ∃ t, call = .tick t)
    {e : Step} (he : e ∈ history (step P) (new P cfg storage) calls)
    (hhead : e.before.storage.head.toNat + 1 < 2 ^ 64) : OnTrack P e.before := by
  have hinv := state_invariant (step P) (G := fun _ call => ∃ t, call = .tick t)
    (I := fun d => d.storage.head.toNat + 1 < 2 ^ 64 → OnTrack P d)
    (fun _ => onTrack_new P cfg hgenesis) ?_ calls (fun e he => hown e.call (call_mem _ he))
  · exact hinv.1 e he hhead
  · rintro d call h ⟨t,rfl⟩ hnext
    have hle : d.storage.head.toNat ≤ (d.runRound P t).1.storage.head.toNat :=
      UInt64.le_iff_toNat_le.mp (head_le_runRound d t)
    have hbefore : d.storage.head.toNat + 1 < 2 ^ 64 :=
      (Nat.succ_le_succ hle).trans_lt hnext
    exact (h hbefore).tick hbefore t hnext

/-- The state machine accepts the driver as proposer throughout a run just when no tick meets
a mismatch; and a driver that is alone on its chain from the genesis block on meets none,
whatever times out or fails. -/
theorem proposerAgrees_iff (P : Platform) (cfg : ConsensusConfig) (storage : ZbxDb)
    (calls : List Call) :
    ((∀ e ∈ history (step P) (new P cfg storage) calls, ProposerAgrees e) ↔
      ∀ e ∈ history (step P) (new P cfg storage) calls, ¬ Mismatch P e.before e.call) ∧
    (storage.head = 0 → (∀ call ∈ calls, ∃ t, call = .tick t) →
      ∀ e ∈ history (step P) (new P cfg storage) calls,
        e.before.storage.head.toNat + 1 < 2 ^ 64 → ¬ Mismatch P e.before e.call) := by
  constructor
  · refine forall₂_congr ?_
    intro e he
    exact agrees_iff (output_eq _ he)
  · intro hgenesis hown e he hhead
    exact (onTrack_run P cfg hgenesis calls hown he hhead).no_mismatch e.call

def demoCfg : ConsensusConfig where
  myKey := ⟨2,2⟩
  validators := [(1,(demoRules 1).pubKey),(2,(demoRules 2).pubKey)]
  producerCfg := ⟨2,30000000,true⟩
  epochLength := 172800
  genesisEpochSeed := none
  nonempty := by decide
  ownCoinbase := rfl
  epochLength_ne := by decide

def demoGenesisDb : ZbxDb := ZbxDb.empty.putBlock (demoBlock 0 0 0)

def demoFirst : Block := demoBlock ((demoBlock 0 0 0).hash .integers) 1 2

def demoTick : Tick := ⟨[],some 1,[],false,.failed "unreached",none⟩

/-- Validator 2 proposes block 1 and times out; its later ticks are the turn of validator 1. -/
theorem proposerAgrees_after_timeout :
    (final (step .integers) (new .integers demoCfg demoGenesisDb)
      [.tick demoTick]).consensus.currentRound = 2 ∧
    ∀ e ∈ history (step .integers) (new .integers demoCfg demoGenesisDb)
      [.tick demoTick, .tick demoTick], ProposerAgrees e := by
  have hiff := proposerAgrees_iff .integers demoCfg demoGenesisDb [.tick demoTick, .tick demoTick]
  have hbound : ∀ e ∈ history (step .integers) (new .integers demoCfg demoGenesisDb)
      [.tick demoTick, .tick demoTick], e.before.storage.head.toNat + 1 < 2 ^ 64 := by
    decide +kernel
  refine ⟨by decide +kernel,hiff.1.mpr ?_⟩
  intro e he
  exact hiff.2 rfl (by simp) e he (hbound e he)

/-- A restart over block 1, or block 1 from a peer: validator 2 takes the turn of round 1 for
block 2, which is that of validator 1. -/
theorem refused_after_block_one :
    ¬ (∀ e ∈ history (step .integers) (new .integers demoCfg (demoGenesisDb.putBlock demoFirst))
        [.tick demoTick], ProposerAgrees e) ∧
      ¬ ∀ e ∈ history (step .integers) (new .integers demoCfg demoGenesisDb)
        [.importBlock demoFirst (.executed ⟨0,0,0,0,0⟩ none none), .tick demoTick],
          ProposerAgrees e := by
  have hrestart : ∃ e ∈ history (step .integers)
      (new .integers demoCfg (demoGenesisDb.putBlock demoFirst)) [.tick demoTick],
        e.output = .error (.onProposal (.invalidProposer 2)) := by
    decide +kernel
  have himport : ∃ e ∈ history (step .integers) (new .integers demoCfg demoGenesisDb)
      [.importBlock demoFirst (.executed ⟨0,0,0,0,0⟩ none none), .tick demoTick],
        e.output = .error (.onProposal (.invalidProposer 2)) := by
    decide +kernel
  constructor
  · obtain ⟨e,he,hrefused⟩ := hrestart
    exact fun hall => hall e he 2 hrefused
  · obtain ⟨e,he,hrefused⟩ := himport
    exact fun hall => hall e he 2 hrefused

end ZbxChain.ConsensusDriver
