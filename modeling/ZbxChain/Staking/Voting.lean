import ZbxChain.Staking.Governance

/-! # What votes and sweeps do to one proposal

A vote and the sweep of a block both try to finalize. The tally of the votes cast, whether
they were counted or not, says which proposals should pass.
-/
namespace ZbxChain.Staking

/-- Every proposal is kept under its own id, as the registry of the source takes care of. -/
def ProposalRegistry.Keyed (preg : ProposalRegistry) : Prop := ∀ id p, preg.lookup id = some p → p.id = id

/-- One call of the governance, with the active set and the height it is made at. -/
inductive VotingCall where
  | castVote (proposalId : UInt64) (voter : Address) (approve : Bool) (vs : ValidatorSet)
      (currentBlock : UInt64)
  | sweep (vs : ValidatorSet) (currentBlock : UInt64)

namespace VotingCall

def activeSet : VotingCall → Finset Address
  | castVote _ _ _ vs _ | sweep vs _ => vs.activeSet.toFinset

def height : VotingCall → UInt64
  | castVote _ _ _ _ currentBlock | sweep _ currentBlock => currentBlock

def Reaches (id : UInt64) : VotingCall → Prop
  | castVote proposalId _ _ _ _ => proposalId = id
  | sweep _ _ => True

instance (id : UInt64) : DecidablePred (Reaches id)
  | castVote proposalId _ _ _ _ => inferInstanceAs (Decidable (proposalId = id))
  | sweep _ _ => inferInstanceAs (Decidable True)

end VotingCall

def votingStep (preg : ProposalRegistry) : VotingCall → ProposalRegistry
  | .castVote proposalId voter approve vs currentBlock =>
    match castAndMaybeFinalize preg proposalId voter approve vs currentBlock with
    | .ok preg => preg
    | .error _ => preg
  | .sweep vs currentBlock => (tryFinalizeAllPending preg vs currentBlock).1

/-- The latest vote of each account on the proposal, counted or not. -/
def latestVotes (id : UInt64) (votes : Address → Option Vote) : VotingCall → Address → Option Vote
  | .castVote proposalId voter approve _ _ =>
    if proposalId = id then Function.update votes voter (some (if approve then .yes else .no)) else votes
  | .sweep _ _ => votes

def Majority (validatorSet : Finset Address) (votes : Address → Option Vote) : Prop :=
  validatorSet.card < (validatorSet.filter (fun voter => votes voter = some .yes)).card * 2

instance (validatorSet : Finset Address) (votes : Address → Option Vote) :
    Decidable (Majority validatorSet votes) :=
  inferInstanceAs (Decidable (validatorSet.card <
    (validatorSet.filter (fun voter => votes voter = some .yes)).card * 2))

section Finalize
variable {p : UpgradeProposal} {validatorSet : Finset Address} {currentBlock : UInt64}

theorem hasMajority_iff (p : UpgradeProposal) (validatorSet : Finset Address) :
    p.hasMajority validatorSet = true ↔ Majority validatorSet p.votes.lookup := decide_eq_true_iff

@[simp] theorem tryFinalize_of_not_pending (h : p.status ≠ .pending) :
    p.tryFinalize validatorSet currentBlock = p := if_pos h

theorem tryFinalize_of_pending (h : p.status = .pending) :
    p.tryFinalize validatorSet currentBlock =
      if Majority validatorSet p.votes.lookup ∧ currentBlock < p.activationBlock then
        { p with status := .scheduled } else { p with status := .rejected } := by
  unfold UpgradeProposal.tryFinalize
  rw [if_neg (not_not.mpr h)]
  simp only [Bool.and_eq_true, hasMajority_iff, decide_eq_true_eq]

theorem status_tryFinalize (h : p.status = .pending) (hheight : currentBlock < p.activationBlock) :
    (p.tryFinalize validatorSet currentBlock).status =
      if Majority validatorSet p.votes.lookup then .scheduled else .rejected := by
  rw [tryFinalize_of_pending h]
  by_cases hmajority : Majority validatorSet p.votes.lookup
  · rw [if_pos ⟨hmajority,hheight⟩, if_pos hmajority]
  · rw [if_neg (fun hboth => hmajority hboth.1), if_neg hmajority]

@[simp] theorem id_tryFinalize (p : UpgradeProposal) (validatorSet : Finset Address) (currentBlock : UInt64) :
    (p.tryFinalize validatorSet currentBlock).id = p.id := by
  unfold UpgradeProposal.tryFinalize
  split_ifs
  all_goals rfl

end Finalize

section Registry
variable {preg : ProposalRegistry} {id : UInt64} {p : UpgradeProposal}

theorem mem_ids : id ∈ ProposalRegistry.ids preg ↔ id ∈ preg := by
  simp only [ProposalRegistry.ids, List.mem_map, Finset.mem_sort, Finset.mem_image, Finmap.mem_keys]
  constructor
  · rintro ⟨_,⟨k,hk,rfl⟩,rfl⟩
    rwa [UInt64.ofNat_toNat]
  · exact fun h => ⟨id.toNat,⟨id,h,rfl⟩,UInt64.ofNat_toNat⟩

theorem mem_proposals (hkeyed : preg.Keyed) :
    p ∈ (ProposalRegistry.ids preg).filterMap preg.lookup ↔ preg.lookup p.id = some p := by
  rw [List.mem_filterMap]
  constructor
  · rintro ⟨id,-,hlookup⟩
    rwa [hkeyed id p hlookup]
  · intro hlookup
    exact ⟨p.id,mem_ids.mpr (Finmap.lookup_isSome.mp (hlookup ▸ rfl)),hlookup⟩

theorem lookup_foldl_insert {f : UpgradeProposal → UpgradeProposal} (l : List UpgradeProposal)
    (hl : ∀ p ∈ l, ∀ q ∈ l, p.id = q.id → p = q) (preg : ProposalRegistry) (id : UInt64) :
    (l.foldl (fun preg p => preg.insert p.id (f p)) preg).lookup id =
      ((l.find? (fun p => p.id = id)).map f).or (preg.lookup id) := by
  induction l generalizing preg with
  | nil => rfl
  | cons q l ih =>
    have hrest := ih (fun p hp r hr => hl p (List.mem_cons_of_mem _ hp) r (List.mem_cons_of_mem _ hr))
      (preg.insert q.id (f q))
    rw [List.foldl_cons, hrest, List.find?_cons]
    by_cases hq : q.id = id
    · have hfound : (l.find? (fun p => p.id = id)).map f = none ∨
          (l.find? (fun p => p.id = id)).map f = some (f q) := by
        cases hfind : l.find? (fun p => p.id = id) with
        | none => exact Or.inl rfl
        | some r =>
          have hr : r.id = id := by simpa using List.find?_some hfind
          have hsame := hl r (List.mem_cons_of_mem _ (List.mem_of_find?_eq_some hfind)) q
            List.mem_cons_self (hr.trans hq.symm)
          exact Or.inr (by rw [hsame, Option.map_some])
      rw [decide_eq_true hq]
      rcases hfound with hfound | hfound
      · rw [hfound, ← hq, Finmap.lookup_insert]
        rfl
      · rw [hfound]
        rfl
    · rw [decide_eq_false hq, Finmap.lookup_insert_of_ne _ (Ne.symm hq)]

theorem lookup_sweep (hkeyed : preg.Keyed) (vs : ValidatorSet) (currentBlock : UInt64) (id : UInt64) :
    (tryFinalizeAllPending preg vs currentBlock).1.lookup id =
      (preg.lookup id).map (fun p => p.tryFinalize vs.activeSet.toFinset currentBlock) := by
  unfold tryFinalizeAllPending
  dsimp only
  have hmem : ∀ p, p ∈ ((ProposalRegistry.ids preg).filterMap preg.lookup).filter
      (fun p => p.status = .pending) ↔ preg.lookup p.id = some p ∧ p.status = .pending := by
    intro p
    rw [List.mem_filter, mem_proposals hkeyed, decide_eq_true_iff]
  rw [lookup_foldl_insert]
  · cases hlookup : preg.lookup id with
    | none =>
      have hnone : (((ProposalRegistry.ids preg).filterMap preg.lookup).filter
          (fun p => p.status = .pending)).find? (fun p => p.id = id) = none := by
        rw [List.find?_eq_none]
        intro p hp hid
        rw [← of_decide_eq_true hid, ((hmem p).mp hp).1] at hlookup
        cases hlookup
      rw [hnone]
      rfl
    | some p =>
      have hid := hkeyed id p hlookup
      by_cases hpending : p.status = .pending
      · have hfound : (((ProposalRegistry.ids preg).filterMap preg.lookup).filter
            (fun p => p.status = .pending)).find? (fun p => p.id = id) = some p := by
          cases hfind : (((ProposalRegistry.ids preg).filterMap preg.lookup).filter
              (fun p => p.status = .pending)).find? (fun p => p.id = id) with
          | none =>
            have hp := (hmem p).mpr ⟨hid.symm ▸ hlookup,hpending⟩
            exact absurd (decide_eq_true hid) (List.find?_eq_none.mp hfind p hp)
          | some q =>
            have hq := ((hmem q).mp (List.mem_of_find?_eq_some hfind)).1
            have hqid : q.id = id := by simpa using List.find?_some hfind
            rw [hqid, hlookup] at hq
            exact hq.symm
        rw [hfound]
        rfl
      · have hnone : (((ProposalRegistry.ids preg).filterMap preg.lookup).filter
            (fun p => p.status = .pending)).find? (fun p => p.id = id) = none := by
          rw [List.find?_eq_none]
          intro q hq hqid
          obtain ⟨hq,hqpending⟩ := (hmem q).mp hq
          rw [of_decide_eq_true hqid, hlookup] at hq
          exact hpending (Option.some.inj hq ▸ hqpending)
        rw [hnone, Option.map_some, tryFinalize_of_not_pending hpending]
        rfl
  · intro p hp q hq hsame
    have hp := ((hmem p).mp hp).1
    rw [hsame, ((hmem q).mp hq).1] at hp
    exact (Option.some.inj hp).symm

theorem createProposal_ok {preg preg' : ProposalRegistry} {proposalId : UInt64} {moduleName : String}
    {newVersion : UInt32} {activationBlock : UInt64} {proposer : Address}
    (h : createProposal preg proposalId moduleName newVersion activationBlock proposer = .ok preg') :
    preg.lookup proposalId = none ∧ preg' = preg.insert proposalId
      ⟨proposalId,moduleName,newVersion,activationBlock,proposer,∅,.pending⟩ := by
  unfold createProposal UpgradeProposal.new at h
  cases hname : validateModuleName moduleName with
  | error e =>
    rw [hname] at h
    cases h
  | ok u =>
    rw [hname] at h
    simp only [bind, Except.bind, pure, Except.pure] at h
    split at h
    · cases h
    · rename_i hfresh
      cases h
      exact ⟨Option.not_isSome_iff_eq_none.mp hfresh,rfl⟩

section Casting
variable {voter : Address} {approve : Bool} {vs : ValidatorSet} {currentBlock : UInt64}

theorem castVote_of_none (h : preg.lookup id = none) :
    castAndMaybeFinalize preg id voter approve vs currentBlock = .error (.badPayload (.proposalNotFound id)) := by
  unfold castAndMaybeFinalize
  rw [h]

theorem castVote_of_pending (h : preg.lookup id = some p) (hpending : p.status = .pending) :
    castAndMaybeFinalize preg id voter approve vs currentBlock =
      .ok (preg.insert id (({ p with votes := p.votes.insert voter (if approve then .yes else .no) } :
        UpgradeProposal).tryFinalize vs.activeSet.toFinset currentBlock)) := by
  unfold castAndMaybeFinalize UpgradeProposal.castVote
  simp only [h, hpending, ne_eq, not_true_eq_false, if_false]
  rfl

theorem castVote_of_not_pending (h : preg.lookup id = some p) (hstatus : p.status ≠ .pending) :
    castAndMaybeFinalize preg id voter approve vs currentBlock = .error (.badPayload (.notPending p.id)) := by
  unfold castAndMaybeFinalize UpgradeProposal.castVote
  simp only [h, if_pos hstatus]
  rfl

end Casting

theorem lookup_castVote (preg : ProposalRegistry) (proposalId : UInt64) (voter : Address) (approve : Bool)
    (vs : ValidatorSet) (currentBlock : UInt64) (id : UInt64) :
    (votingStep preg (.castVote proposalId voter approve vs currentBlock)).lookup id =
      (preg.lookup id).map (fun p => if id = proposalId ∧ p.status = .pending then
        ({ p with votes := p.votes.insert voter (if approve then .yes else .no) } :
          UpgradeProposal).tryFinalize vs.activeSet.toFinset currentBlock else p) := by
  by_cases hid : id = proposalId
  · subst hid
    cases hlookup : preg.lookup id with
    | none => simp only [votingStep, castVote_of_none hlookup, hlookup, Option.map_none]
    | some p =>
      by_cases hpending : p.status = .pending
      · simp only [votingStep, castVote_of_pending hlookup hpending, Finmap.lookup_insert, Option.map_some,
          hpending, and_self, if_true]
      · simp only [votingStep, castVote_of_not_pending hlookup hpending, hlookup, Option.map_some, hpending,
          and_false, if_false]
  · simp only [hid, false_and, if_false, Option.map_id']
    cases hlookup : preg.lookup proposalId with
    | none => simp only [votingStep, castVote_of_none hlookup]
    | some p =>
      by_cases hpending : p.status = .pending
      · simp only [votingStep, castVote_of_pending hlookup hpending]
        exact Finmap.lookup_insert_of_ne _ hid
      · simp only [votingStep, castVote_of_not_pending hlookup hpending]

end Registry

section Calls
variable {preg : ProposalRegistry} {id : UInt64} {p : UpgradeProposal} {call : VotingCall}
  {validatorSet : Finset Address} {votes : Address → Option Vote}

theorem lookup_votingStep (hkeyed : preg.Keyed) (h : preg.lookup id = some p)
    (hout : p.status ≠ .pending ∨ ¬ call.Reaches id) : (votingStep preg call).lookup id = some p := by
  cases call with
  | castVote proposalId voter approve vs currentBlock =>
    rw [lookup_castVote, h, Option.map_some, if_neg]
    rintro ⟨hid,hpending⟩
    rcases hout with hstatus | hreaches
    · exact hstatus hpending
    · exact hreaches hid.symm
  | sweep vs currentBlock =>
    have hstatus : p.status ≠ .pending := hout.resolve_right (not_not.mpr trivial)
    simp only [votingStep, lookup_sweep hkeyed, h, Option.map_some, tryFinalize_of_not_pending hstatus]

theorem decided_votingStep (hkeyed : preg.Keyed) (h : preg.lookup id = some p) (hpending : p.status = .pending)
    (hreaches : call.Reaches id) (hset : call.activeSet = validatorSet) (hheight : call.height < p.activationBlock) :
    ∃ p', (votingStep preg call).lookup id = some p' ∧
      p'.status = if Majority validatorSet (latestVotes id p.votes.lookup call) then .scheduled else .rejected := by
  subst hset
  cases call with
  | castVote proposalId voter approve vs currentBlock =>
    have hid : proposalId = id := hreaches
    subst hid
    have hvotes : (p.votes.insert voter (if approve then .yes else .no)).lookup =
        latestVotes proposalId p.votes.lookup (.castVote proposalId voter approve vs currentBlock) := by
      funext a
      simp only [latestVotes, if_true, Function.update_apply]
      by_cases ha : a = voter
      · rw [ha, Finmap.lookup_insert, if_pos rfl]
      · rw [Finmap.lookup_insert_of_ne _ ha, if_neg ha]
    refine ⟨({ p with votes := p.votes.insert voter (if approve then .yes else .no) } :
      UpgradeProposal).tryFinalize vs.activeSet.toFinset currentBlock,?_,?_⟩
    · rw [lookup_castVote, h, Option.map_some, if_pos ⟨rfl,hpending⟩]
    · rw [← hvotes]
      exact status_tryFinalize hpending hheight
  | sweep vs currentBlock =>
    refine ⟨p.tryFinalize vs.activeSet.toFinset currentBlock,?_,?_⟩
    · simp only [votingStep, lookup_sweep hkeyed, h, Option.map_some]
    · exact status_tryFinalize hpending hheight

theorem keyed_votingStep (hkeyed : preg.Keyed) (call : VotingCall) : (votingStep preg call).Keyed := by
  intro id p hp
  cases call with
  | castVote proposalId voter approve vs currentBlock =>
    rw [lookup_castVote] at hp
    obtain ⟨q,hq,rfl⟩ := Option.map_eq_some_iff.mp hp
    split
    · rw [id_tryFinalize]
      exact hkeyed id q hq
    · exact hkeyed id q hq
  | sweep vs currentBlock =>
    simp only [votingStep, lookup_sweep hkeyed] at hp
    obtain ⟨q,hq,rfl⟩ := Option.map_eq_some_iff.mp hp
    rw [id_tryFinalize]
    exact hkeyed id q hq

theorem latestVotes_of_not_reaches (h : ¬ call.Reaches id) : latestVotes id votes call = votes := by
  cases call with
  | castVote proposalId voter approve vs currentBlock => exact if_neg h
  | sweep vs currentBlock => rfl

end Calls

section Runs
variable {preg : ProposalRegistry} {id : UInt64} {p : UpgradeProposal} {calls : List VotingCall}
  {validatorSet : Finset Address} {votes : Address → Option Vote}

def ProposalRegistry.statusOf (preg : ProposalRegistry) (id : UInt64) : Option ProposalStatus :=
  (preg.lookup id).map UpgradeProposal.status

theorem keyed_foldl (hkeyed : preg.Keyed) (calls : List VotingCall) : (calls.foldl votingStep preg).Keyed := by
  induction calls generalizing preg with
  | nil => exact hkeyed
  | cons call calls ih => exact ih (keyed_votingStep hkeyed call)

theorem lookup_foldl (hkeyed : preg.Keyed) (h : preg.lookup id = some p)
    (hout : p.status ≠ .pending ∨ ∀ call ∈ calls, ¬ call.Reaches id) :
    (calls.foldl votingStep preg).lookup id = some p := by
  induction calls generalizing preg with
  | nil => exact h
  | cons call calls ih =>
    refine ih (keyed_votingStep hkeyed call) (lookup_votingStep hkeyed h ?_) ?_
    · exact hout.imp_right fun hnot => hnot call List.mem_cons_self
    · exact hout.imp_right fun hnot c hc => hnot c (List.mem_cons_of_mem _ hc)

theorem latestVotes_foldl (h : ∀ call ∈ calls, ¬ call.Reaches id) :
    calls.foldl (latestVotes id) votes = votes := by
  induction calls with
  | nil => rfl
  | cons call calls ih =>
    rw [List.foldl_cons, latestVotes_of_not_reaches (h call List.mem_cons_self)]
    exact ih fun c hc => h c (List.mem_cons_of_mem _ hc)

/-- The proposal is scheduled from the point on at which more than half of the validators have
yes as their latest vote, and it is never rejected. -/
def PassesByMajority (validatorSet : Finset Address) (preg : ProposalRegistry) (id : UInt64)
    (votes : Address → Option Vote) (calls : List VotingCall) : Prop :=
  ∀ xs ys, calls = xs ++ ys →
    (Majority validatorSet (xs.foldl (latestVotes id) votes) →
      ∀ zs, zs <+: ys → ((xs ++ zs).foldl votingStep preg).statusOf id = some .scheduled) ∧
    (xs.foldl votingStep preg).statusOf id ≠ some .rejected

/-- A pending proposal passes as it should just when it has no majority yet and the first call
that tries to finalize it is the vote that brings the majority. -/
theorem passesByMajority_iff (hkeyed : preg.Keyed) (h : preg.lookup id = some p) (hpending : p.status = .pending)
    (hsets : ∀ call ∈ calls, call.activeSet = validatorSet)
    (hheights : ∀ call ∈ calls, call.height < p.activationBlock) :
    PassesByMajority validatorSet preg id p.votes.lookup calls ↔
      ¬ Majority validatorSet p.votes.lookup ∧ ∀ call, calls.find? (fun c => c.Reaches id) = some call →
        Majority validatorSet (latestVotes id p.votes.lookup call) := by
  have hbefore : ∀ xs : List VotingCall, (∀ call ∈ xs, ¬ call.Reaches id) →
      (xs.foldl votingStep preg).statusOf id = some .pending := by
    intro xs hxs
    rw [ProposalRegistry.statusOf, lookup_foldl hkeyed h (Or.inr hxs), Option.map_some, hpending]
  constructor
  · intro hpasses
    refine ⟨?_,?_⟩
    · intro hmajority
      have hscheduled : (([] : List VotingCall).foldl votingStep preg).statusOf id = some .scheduled :=
        (hpasses [] calls rfl).1 hmajority [] List.nil_prefix
      rw [hbefore [] (fun _ hmem => absurd hmem List.not_mem_nil)] at hscheduled
      cases hscheduled
    · intro call hfind
      obtain ⟨hreaches,xs,ys,hcalls,hxs⟩ := List.find?_eq_some_iff_append.mp hfind
      have hmem : call ∈ calls := hcalls ▸ List.mem_append_right _ List.mem_cons_self
      have hfirst := lookup_foldl hkeyed h (Or.inr (fun c hc hr => by simpa [hr] using hxs c hc))
      obtain ⟨p',hp',hstatus⟩ := decided_votingStep (keyed_foldl hkeyed xs) hfirst hpending
        (of_decide_eq_true hreaches) (hsets call hmem) (hheights call hmem)
      by_contra hnone
      rw [if_neg hnone] at hstatus
      refine (hpasses (xs ++ [call]) ys (by simp [hcalls])).2 ?_
      rw [List.foldl_append, List.foldl_cons, List.foldl_nil, ProposalRegistry.statusOf, hp',
        Option.map_some, hstatus]
  · rintro ⟨hstart,hfirst⟩ xs ys hcalls
    cases hfind : calls.find? (fun c => c.Reaches id) with
    | none =>
      have hnone : ∀ call ∈ xs, ¬ call.Reaches id := fun call hmem => by
        simpa using List.find?_eq_none.mp hfind call (hcalls ▸ List.mem_append_left ys hmem)
      rw [latestVotes_foldl hnone, hbefore xs hnone]
      exact ⟨fun hmajority => absurd hmajority hstart,by simp⟩
    | some call =>
      obtain ⟨hreaches,pre,post,hsplit,hpre⟩ := List.find?_eq_some_iff_append.mp hfind
      have hpre : ∀ c ∈ pre, ¬ c.Reaches id := fun c hc hr => by simpa [hr] using hpre c hc
      have hmem : call ∈ calls := hsplit ▸ List.mem_append_right _ List.mem_cons_self
      obtain ⟨p',hp',hstatus⟩ := decided_votingStep (keyed_foldl hkeyed pre)
        (lookup_foldl hkeyed h (Or.inr hpre)) hpending (of_decide_eq_true hreaches) (hsets call hmem)
        (hheights call hmem)
      rw [if_pos (hfirst call hfind)] at hstatus
      -- once the call is made, the proposal stays scheduled
      have hafter : ∀ zs : List VotingCall,
          ((pre ++ call :: zs).foldl votingStep preg).statusOf id = some .scheduled := by
        intro zs
        have hscheduled : (zs.foldl votingStep (votingStep (pre.foldl votingStep preg) call)).lookup id = some p' :=
          lookup_foldl (keyed_votingStep (keyed_foldl hkeyed pre) call) hp' (Or.inl (by rw [hstatus]; decide))
        rw [List.foldl_append, List.foldl_cons, ProposalRegistry.statusOf, hscheduled, Option.map_some, hstatus]
      rcases List.append_eq_append_iff.mp (hcalls.symm.trans hsplit) with ⟨late,hpre',hys⟩ | ⟨early,hxs,hrest⟩
      · have hnone : ∀ c ∈ xs, ¬ c.Reaches id := fun c hc => hpre c (hpre' ▸ List.mem_append_left _ hc)
        rw [latestVotes_foldl hnone, hbefore xs hnone]
        exact ⟨fun hmajority => absurd hmajority hstart,by simp⟩
      · cases early with
        | nil =>
          have hnone : ∀ c ∈ xs, ¬ c.Reaches id := fun c hc => hpre c (by simpa [hxs] using hc)
          rw [latestVotes_foldl hnone, hbefore xs hnone]
          exact ⟨fun hmajority => absurd hmajority hstart,by simp⟩
        | cons c early =>
          obtain ⟨rfl,-⟩ := List.cons.inj hrest
          subst hxs
          refine ⟨fun _ zs _ => ?_,?_⟩
          · rw [List.append_assoc]
            exact hafter (early ++ zs)
          · rw [hafter early]
            simp

end Runs

def upgradeOfVm : UpgradeProposal := ⟨1,"zbx-vm",2,1000000,1,∅,.pending⟩

def upgradeRegistry : ProposalRegistry := Finmap.insert 1 upgradeOfVm ∅

/-- The active set of accounts 1 to `n`. -/
def firstValidators (n : ℕ) : ValidatorSet := { ValidatorSet.new with activeSet := (List.range' 1 n).map (BitVec.ofNat 160) }

theorem keyed_upgradeRegistry : upgradeRegistry.Keyed := by
  intro id p hp
  by_cases hid : id = 1
  · subst hid
    rw [upgradeRegistry, Finmap.lookup_insert] at hp
    cases hp
    rfl
  · rw [upgradeRegistry, Finmap.lookup_insert_of_ne _ hid, Finmap.lookup_empty] at hp
    cases hp

/-- A vote of the only validator. -/
theorem passesByMajority_iff_single :
    PassesByMajority {1} upgradeRegistry 1 upgradeOfVm.votes.lookup
      [.castVote 1 1 true (firstValidators 1) 100] :=
  (passesByMajority_iff keyed_upgradeRegistry (Finmap.lookup_insert _) rfl (by decide) (by decide)).mpr
    ⟨by decide,fun call hcall => by cases hcall; decide⟩

/-- Two of three validators vote yes, but the first vote is not a majority yet, and decides. -/
theorem first_vote_rejects :
    ¬ PassesByMajority {1,2,3} upgradeRegistry 1 upgradeOfVm.votes.lookup
      [.castVote 1 1 true (firstValidators 3) 100,.castVote 1 2 true (firstValidators 3) 100] := by
  intro hpasses
  have hlast := (hpasses _ [] (List.append_nil _).symm).1 (by decide) [] List.nil_prefix
  revert hlast
  decide

end ZbxChain.Staking
