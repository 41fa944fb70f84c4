import ZbxChain.Consensus.SafetyRules

/-! # The votes of one validator and the evidence they can be assembled into

`advance_epoch` empties the record of voted phases but leaves `highest_vote_round`,
and the staleness check is strict. The height a validator last voted at is then open
again in every phase that was erased, and equivocation evidence does not look at
epochs. Erasing is the only way to a second vote for one block number and phase.
-/
namespace ZbxChain.SafetyRules
open Machine

abbrev Step := Entry SafetyRules Call (Option (Except ConsensusError Vote))

/-- The block number and the phase of a vote, the key of `voted_phases`. -/
def phaseKey (v : Vote) : UInt64 × UInt8 := (v.data.blockNumber,v.data.phase)

def returned (e : Step) : Option Vote :=
  match e.output with
  | some (.ok v) => some v
  | _ => none

def votes (P : Platform) (rules : SafetyRules) (calls : List Call) : List Vote :=
  (history (step P) rules calls).filterMap returned

/-- No two of the votes can be assembled into evidence. -/
def Unslashable (votes : List Vote) : Prop :=
  ∀ v ∈ votes, ∀ v' ∈ votes,
    (v.data.blockNumber = v'.data.blockNumber → v.data.phase = v'.data.phase →
      v.data.blockHash = v'.data.blockHash) ∧
    ∀ ev : EquivocationEvidence, ev.voteA = v → ev.voteB = v' → ev.conflicting = false

theorem conflicting_spec {ev : EquivocationEvidence} (h : ev.conflicting = true) :
    ev.voteA.data.blockNumber = ev.voteB.data.blockNumber ∧
      ev.voteA.data.phase = ev.voteB.data.phase ∧
      ev.voteA.data.blockHash ≠ ev.voteB.data.blockHash := by
  simp only [EquivocationEvidence.conflicting, Bool.not_eq_true', Bool.or_eq_false_iff,
    bne_eq_false_iff_eq, beq_eq_false_iff_ne] at h
  obtain ⟨⟨⟨⟨⟨⟨-,-⟩,hnumber⟩,hphase⟩,hhash⟩,-⟩,-⟩ := h
  exact ⟨hnumber,hphase,hhash⟩

theorem unslashable_of_nodup {vs : List Vote} (h : (vs.map phaseKey).Nodup) : Unslashable vs := by
  intro v hv v' hv'
  have hsame : v.data.blockNumber = v'.data.blockNumber → v.data.phase = v'.data.phase →
      v.data.blockHash = v'.data.blockHash := by
    intro hnumber hphase
    have hkey : phaseKey v = phaseKey v' := Prod.ext hnumber hphase
    rw [List.inj_on_of_nodup_map h hv hv' hkey]
  refine ⟨hsame,?_⟩
  rintro ev rfl rfl
  by_contra hconf
  obtain ⟨hnumber,hphase,hhash⟩ := conflicting_spec (Bool.eq_true_of_not_eq_false hconf)
  exact hhash (hsame hnumber hphase)

/-- The call moves the epoch on and erases `k`, a phase voted in at the height the
validator stands at. -/
def Erases (e : Step) (k : UInt64 × UInt8) : Prop :=
  ∃ newEpoch, e.call = .advanceEpoch newEpoch ∧ e.before.state.epoch < newEpoch ∧
    k.1 = e.before.state.highestVoteRound ∧ k ∈ e.before.state.votedPhases

/-- A vote is asked for in a phase that an earlier change of epoch erased. -/
def Reopens (a e : Step) : Prop :=
  ∃ data parentQc, e.call = .vote data parentQc ∧ Erases a (data.blockNumber,data.phase)

def NeverReopens (past : List Step) : Prop := past.Pairwise (fun a e => ¬ Reopens a e)

/-- Why a vote already returned cannot be asked for again: it is on record, the
height is passed, or a change of epoch erased it. -/
def Covered (past : List Step) (s : SafetyState) (v : Vote) : Prop :=
  v.data.blockNumber ≤ s.highestVoteRound ∧
    (phaseKey v ∈ s.votedPhases ∨ v.data.blockNumber < s.highestVoteRound ∨
      ∃ a ∈ past, Erases a (phaseKey v))

variable {past : List Step} {e : Step} {s s' : SafetyState} {v : Vote} {data : VoteData}

theorem Covered.mono (h : Covered past s v) (hround : s'.highestVoteRound = s.highestVoteRound)
    (hphases : s'.votedPhases = s.votedPhases) : Covered (past ++ [e]) s' v := by
  obtain ⟨hle,hcases⟩ := h
  refine ⟨hround ▸ hle,?_⟩
  rcases hcases with hrec | hlt | ⟨a,ha,herase⟩
  · exact Or.inl (hphases ▸ hrec)
  · exact Or.inr (Or.inl (hround ▸ hlt))
  · exact Or.inr (Or.inr ⟨a,List.mem_append_left _ ha,herase⟩)

theorem Covered.record (h : Covered past s v) (hround : s.highestVoteRound ≤ data.blockNumber) :
    Covered (past ++ [e]) (s.record data) v := by
  obtain ⟨hle,hcases⟩ := h
  refine ⟨UInt64.le_trans hle hround,?_⟩
  rcases hcases with hrec | hlt | ⟨a,ha,herase⟩
  · exact Or.inl (Finset.mem_insert_of_mem hrec)
  · exact Or.inr (Or.inl (UInt64.lt_of_lt_of_le hlt hround))
  · exact Or.inr (Or.inr ⟨a,List.mem_append_left _ ha,herase⟩)

theorem Covered.advance {rules : SafetyRules} {newEpoch : UInt64} (h : Covered past rules.state v)
    (hcall : e.call = .advanceEpoch newEpoch) (hbefore : e.before = rules) :
    Covered (past ++ [e]) (rules.advanceEpoch newEpoch).state v := by
  subst hbefore
  unfold advanceEpoch
  split
  · rename_i hlt
    obtain ⟨hle,hcases⟩ := h
    refine ⟨hle,?_⟩
    rcases hcases with hrec | hlow | ⟨a,ha,herase⟩
    · by_cases hround : v.data.blockNumber = e.before.state.highestVoteRound
      · exact Or.inr (Or.inr ⟨e,by simp,newEpoch,hcall,hlt,hround,hrec⟩)
      · exact Or.inr (Or.inl (UInt64.lt_of_le_of_ne hle hround))
    · exact Or.inr (Or.inl hlow)
    · exact Or.inr (Or.inr ⟨a,List.mem_append_left _ ha,herase⟩)
  · exact h.mono rfl rfl

theorem Covered.reopens {rules : SafetyRules} {parentQc : QuorumCertificate}
    (h : Covered past rules.state v) (hadmits : rules.state.Admits data parentQc)
    (hkey : phaseKey v = (data.blockNumber,data.phase)) :
    ∃ a ∈ past, Erases a (data.blockNumber,data.phase) := by
  obtain ⟨hround,hphase,-,-⟩ := hadmits
  have hnumber : v.data.blockNumber = data.blockNumber := congrArg Prod.fst hkey
  rcases h.2 with hrec | hlt | herased
  · exact absurd (hkey ▸ hrec) hphase
  · exact absurd (UInt64.lt_of_lt_of_le (hnumber ▸ hlt) hround) (UInt64.lt_irrefl _)
  · exact hkey ▸ herased

/-- What holds along every run: as long as no erased key is asked for again, the keys
of the returned votes are distinct and each of them is covered. -/
def Ledger (past : List Step) (rules : SafetyRules) : Prop :=
  NeverReopens past →
    ((past.filterMap returned).map phaseKey).Nodup ∧
      ∀ v ∈ past.filterMap returned, Covered past rules.state v

theorem ledger_of_silent {rules rules' : SafetyRules} (h : Ledger past rules)
    (hsilent : returned e = none) (hcovered : ∀ v, Covered past rules.state v →
      Covered (past ++ [e]) rules'.state v) : Ledger (past ++ [e]) rules' := by
  intro hnever
  obtain ⟨hnodup,hcov⟩ := h (List.pairwise_append.mp hnever).1
  simp only [List.filterMap_append, List.filterMap_cons, hsilent, List.filterMap_nil,
    List.append_nil]
  exact ⟨hnodup,fun v hv => hcovered v (hcov v hv)⟩

theorem ledger_of_vote {P : Platform} {rules : SafetyRules} {parentQc : QuorumCertificate}
    (h : Ledger past rules) (hadmits : rules.state.Admits data parentQc)
    (hcall : e.call = .vote data parentQc) (hreturned : returned e = some (rules.ballot P data)) :
    Ledger (past ++ [e]) { rules with state := rules.state.record data } := by
  intro hnever
  obtain ⟨hpast,-,hcross⟩ := List.pairwise_append.mp hnever
  obtain ⟨hnodup,hcov⟩ := h hpast
  simp only [List.filterMap_append, List.filterMap_cons, hreturned, List.filterMap_nil,
    List.map_append, List.map_cons, List.map_nil]
  constructor
  · refine List.Nodup.append hnodup (List.nodup_singleton _) ?_
    intro k hold hnew
    obtain ⟨v,hv,rfl⟩ := List.mem_map.mp hold
    obtain ⟨a,ha,herase⟩ := (hcov v hv).reopens hadmits (List.mem_singleton.mp hnew)
    exact hcross a ha e (List.mem_singleton_self e) ⟨data,parentQc,hcall,herase⟩
  · intro v hv
    rcases List.mem_append.mp hv with hv | hv
    · exact (hcov v hv).record hadmits.1
    · cases List.mem_singleton.mp hv
      exact ⟨UInt64.le_refl _,Or.inl (Finset.mem_insert_self _ _)⟩

theorem ledger_step (P : Platform) {rules : SafetyRules} (call : Call) (h : Ledger past rules) :
    Ledger (past ++ [⟨rules,call,(step P rules call).2⟩]) (step P rules call).1 := by
  cases call with
  | vote data parentQc =>
    by_cases hadmits : rules.state.Admits data parentQc
    · simp only [step, vote_of_admits hadmits]
      exact ledger_of_vote (P := P) h hadmits rfl rfl
    · obtain ⟨err,herr⟩ := vote_of_not_admits (P := P) hadmits
      simp only [step, herr]
      exact ledger_of_silent h rfl (fun v hv => hv.mono rfl rfl)
  | updateLockedQc qc =>
    refine ledger_of_silent h rfl (fun v hv => hv.mono ?_ ?_)
    · simp only [step, updateLockedQc]
      split <;> rfl
    · simp only [step, updateLockedQc]
      split <;> rfl
  | advanceEpoch newEpoch =>
    exact ledger_of_silent h rfl (fun v hv => hv.advance rfl rfl)

theorem nodup_phaseKey_votes (P : Platform) (rules : SafetyRules) (calls : List Call)
    (hnever : NeverReopens (history (step P) rules calls)) :
    ((votes P rules calls).map phaseKey).Nodup := by
  have hledger : Ledger (history (step P) rules calls) (final (step P) rules calls) := by
    refine trace_invariant (step P) (G := fun _ _ => True) ?_
      (fun past s a hpast _ => ledger_step P a hpast) calls (fun _ _ => trivial)
    intro _
    simp
  exact (hledger hnever).1

theorem neverReopens_of_fixed_epoch {P : Platform} {rules : SafetyRules} {calls : List Call}
    (h : ∀ newEpoch, .advanceEpoch newEpoch ∉ calls) :
    NeverReopens (history (step P) rules calls) := by
  refine List.pairwise_of_forall_mem_list ?_
  rintro a ha e he ⟨data,parentQc,hcall,newEpoch,hadvance,-⟩
  exact h newEpoch (hadvance ▸ call_mem _ ha)

theorem mem_votes {P : Platform} {rules : SafetyRules} {calls : List Call} {v : Vote}
    (h : v ∈ votes P rules calls) : ∃ data parentQc, .vote data parentQc ∈ calls ∧ v.data = data := by
  obtain ⟨e,he,hreturned⟩ := List.mem_filterMap.mp h
  have hmem := call_mem _ he
  have hout := output_eq _ he
  unfold returned at hreturned
  split at hreturned
  · rename_i w hsome
    cases hreturned
    rw [hsome] at hout
    cases hcall : e.call with
    | vote data parentQc =>
      rw [hcall] at hout hmem
      have hok : (e.before.vote P data parentQc).2 = .ok v := (Option.some.inj hout).symm
      obtain ⟨-,hballot,-⟩ := vote_ok hok
      exact ⟨data,parentQc,hmem,by rw [hballot]; rfl⟩
    | updateLockedQc qc =>
      rw [hcall] at hout
      cases hout
    | advanceEpoch newEpoch =>
      rw [hcall] at hout
      cases hout
  · cases hreturned

/-- A validator that is not asked to vote again in a phase that a change of epoch
erased is never slashable. -/
theorem unslashable_of_neverReopens (P : Platform) (rules : SafetyRules) (calls : List Call)
    (hnever : NeverReopens (history (step P) rules calls)) :
    Unslashable (votes P rules calls) :=
  unslashable_of_nodup (nodup_phaseKey_votes P rules calls hnever)

/-- A fresh validator votes at height 5, moves to epoch 1 and votes at height 6. -/
theorem unslashable_next_height : Unslashable (votes .integers (.new .integers 1 7)
    [.vote ⟨1,5,0,0⟩ ⟨⟨0,0,0,0⟩,0,[],[]⟩, .advanceEpoch 1, .vote ⟨2,6,0,1⟩ ⟨⟨0,0,0,0⟩,0,[],[]⟩]) := by
  apply unslashable_of_neverReopens
  simp [NeverReopens, Reopens, Erases, step, vote, advanceEpoch, new, SafetyState.default,
    SafetyState.record, QuorumCertificate.blockNumber]

/-- It votes at height 5, moves to epoch 1 and votes at height 5 again, for another block. -/
theorem slashable_after_advanceEpoch : ¬ Unslashable (votes .integers (.new .integers 1 7)
    [.vote ⟨1,5,0,0⟩ ⟨⟨0,0,0,0⟩,0,[],[]⟩, .advanceEpoch 1, .vote ⟨2,5,0,1⟩ ⟨⟨0,0,0,0⟩,0,[],[]⟩]) := by
  intro h
  let rules := SafetyRules.new .integers 1 7
  have hfirst := (h (rules.ballot .integers ⟨1,5,0,0⟩) (by decide +kernel)
    (rules.ballot .integers ⟨2,5,0,1⟩) (by decide +kernel)).1 rfl rfl
  exact absurd hfirst (by decide)

end ZbxChain.SafetyRules
