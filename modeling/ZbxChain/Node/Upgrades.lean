import ZbxChain.Staking.Voting

/-! # Upgrades: from a scheduled proposal to a module version

At the end of a block the node executes the scheduled proposals that are due. Together with
the proposals and votes of the transactions, this makes the machine of the governance.
-/
namespace ZbxChain.Staking

namespace UpgradeProposal

def markExecuted (p : UpgradeProposal) : Except UpgradeError UpgradeProposal :=
  if p.status ≠ .scheduled then .error (.notScheduled p.status) else .ok { p with status := .executed }

def markFailed (p : UpgradeProposal) : Except UpgradeError UpgradeProposal :=
  if p.status ≠ .scheduled then .error (.notScheduled p.status) else .ok { p with status := .failed }

end UpgradeProposal

/-- `ready_to_execute`, in the order of the ids. -/
def ProposalRegistry.readyToExecute (preg : ProposalRegistry) (currentBlock : UInt64) : List UpgradeProposal :=
  ((ProposalRegistry.ids preg).filterMap preg.lookup).filter
    (fun p => p.status = .scheduled && p.activationBlock ≤ currentBlock)

/-- The two registries of the governance. -/
structure UpgradeState where
  vreg : VersionRegistry
  preg : ProposalRegistry

namespace UpgradeState

def mark (s : UpgradeState) (id : UInt64) (f : UpgradeProposal → Except UpgradeError UpgradeProposal) :
    UpgradeState :=
  match s.preg.lookup id with
  | none => s
  | some p =>
    match f p with
    | .error _ => s
    | .ok p => { s with preg := s.preg.insert id p }

def execute (s : UpgradeState) (id : UInt64) : UpgradeState :=
  match s.preg.lookup id with
  | none => s
  | some p =>
    match ModuleVersion.new p.moduleName p.newVersion with
    | .error _ => s.mark id UpgradeProposal.markFailed
    | .ok entry =>
      match s.vreg.apply ⟨[entry],[],[],none⟩ with
      | .ok vreg => { s with vreg := vreg }.mark id UpgradeProposal.markExecuted
      | .error _ => s.mark id UpgradeProposal.markFailed

/-- `apply_ready_governance`, with whether it has changed anything. -/
def applyReadyGovernance (s : UpgradeState) (currentBlock : UInt64) : UpgradeState × Bool :=
  let ready := (s.preg.readyToExecute currentBlock).map UpgradeProposal.id
  (ready.foldl execute s,!ready.isEmpty)

end UpgradeState

inductive GovernanceEvent where
  | createProposal (proposalId : UInt64) (moduleName : String) (newVersion : UInt32)
      (activationBlock : UInt64) (proposer : Address)
  | voting (call : VotingCall)
  | applyReady (currentBlock : UInt64)

/-- The registries after the event; a proposal that is refused leaves them alone. -/
def upgradeStep (s : UpgradeState) : GovernanceEvent → UpgradeState × Unit
  | .createProposal proposalId moduleName newVersion activationBlock proposer =>
    match createProposal s.preg proposalId moduleName newVersion activationBlock proposer with
    | .ok preg => ({ s with preg := preg },())
    | .error _ => (s,())
  | .voting call => ({ s with preg := votingStep s.preg call },())
  | .applyReady currentBlock => ((s.applyReadyGovernance currentBlock).1,())

def VersionRegistry.writeAll (vreg : VersionRegistry) (written : List UpgradeProposal) : VersionRegistry where
  modules := written.foldl (fun modules p => modules.insert p.moduleName p.newVersion) vreg.modules
  activations := vreg.activations
  flags := vreg.flags
  storageVersion := vreg.storageVersion

inductive StatusMove : ProposalStatus → ProposalStatus → Prop where
  | stay (status : ProposalStatus) : StatusMove status status
  | schedule : StatusMove .pending .scheduled
  | reject : StatusMove .pending .rejected
  | execute : StatusMove .scheduled .executed
  | fail : StatusMove .scheduled .failed

/-- Proposals that differ in their votes and their status at most. -/
def UpgradeProposal.SameBody (p p' : UpgradeProposal) : Prop :=
  p'.id = p.id ∧ p'.moduleName = p.moduleName ∧ p'.newVersion = p.newVersion ∧
    p'.activationBlock = p.activationBlock ∧ p'.proposer = p.proposer

structure UpgradeMove (s : UpgradeState) (event : GovernanceEvent) (s' : UpgradeState) : Prop where
  /-- A proposal stays in the registry with its body, and its status moves as it may. -/
  moves : ∀ id p, s.preg.lookup id = some p → ∃ p', s'.preg.lookup id = some p' ∧
    p.SameBody p' ∧ StatusMove p.status p'.status
  /-- A new proposal is pending, under its own id. -/
  starts : ∀ id p', s.preg.lookup id = none → s'.preg.lookup id = some p' → p'.id = id ∧ p'.status = .pending
  /-- It takes more than half of the active set, in time, to schedule one. -/
  schedules : ∀ id p', s.preg.statusOf id ≠ some .scheduled → s'.preg.lookup id = some p' →
    p'.status = .scheduled → ∃ call, event = .voting call ∧
      Majority call.activeSet p'.votes.lookup ∧ call.height < p'.activationBlock
  /-- It takes a block that has reached the activation to execute one. -/
  executes : ∀ id p', s.preg.statusOf id ≠ some .executed → s'.preg.lookup id = some p' →
    p'.status = .executed → ∃ currentBlock, event = .applyReady currentBlock ∧ p'.activationBlock ≤ currentBlock
  /-- The module versions that are written are those of the proposals that become executed. -/
  writes : ∃ written : List UpgradeProposal, written.Nodup ∧
    (∀ p', p' ∈ written ↔ s'.preg.lookup p'.id = some p' ∧ p'.status = .executed ∧
      s.preg.statusOf p'.id ≠ some .executed) ∧ s'.vreg = s.vreg.writeAll written
  versions : s.vreg.NoDowngrade s'.vreg

section Execution
variable {s : UpgradeState} {id : UInt64} {p : UpgradeProposal}

theorem moduleVersion_new {name : String} {version : UInt32} {entry : ModuleVersion}
    (h : ModuleVersion.new name version = .ok entry) : entry = ⟨name,version⟩ := by
  unfold ModuleVersion.new at h
  split_ifs at h
  cases h
  rfl

theorem mark_executed (h : s.preg.lookup id = some p) (hstatus : p.status = .scheduled) :
    s.mark id UpgradeProposal.markExecuted = { s with preg := s.preg.insert id { p with status := .executed } } := by
  simp only [UpgradeState.mark, h, UpgradeProposal.markExecuted, hstatus, ne_eq, not_true_eq_false, if_false]

theorem mark_failed (h : s.preg.lookup id = some p) (hstatus : p.status = .scheduled) :
    s.mark id UpgradeProposal.markFailed = { s with preg := s.preg.insert id { p with status := .failed } } := by
  simp only [UpgradeState.mark, h, UpgradeProposal.markFailed, hstatus, ne_eq, not_true_eq_false, if_false]

theorem execute_cases (h : s.preg.lookup id = some p) (hstatus : p.status = .scheduled) :
    (s.execute id = ⟨{ s.vreg with modules := s.vreg.modules.insert p.moduleName p.newVersion },
        s.preg.insert id { p with status := .executed }⟩ ∧ s.vreg.NoDowngrade (s.execute id).vreg) ∨
      s.execute id = { s with preg := s.preg.insert id { p with status := .failed } } := by
  unfold UpgradeState.execute
  simp only [h]
  cases hentry : ModuleVersion.new p.moduleName p.newVersion with
  | error e => exact Or.inr (mark_failed h hstatus)
  | ok entry =>
    have hpair := moduleVersion_new hentry
    subst hpair
    dsimp only
    cases happly : s.vreg.apply ⟨[⟨p.moduleName,p.newVersion⟩],[],[],none⟩ with
    | error e => exact Or.inr (mark_failed h hstatus)
    | ok vreg =>
      have hmark := mark_executed (s := { s with vreg := vreg }) h hstatus
      dsimp only
      rw [hmark]
      exact Or.inl ⟨by rw [(apply_setModule.mp happly).2],noDowngrade_apply happly⟩

/-- What the execution of several proposals does: to each its mark, and to the registry of
versions the writes of those that are executed. -/
structure Executed (ready written : List UpgradeProposal) (s s' : UpgradeState) : Prop where
  subset : ∀ p ∈ written, p ∈ ready
  nodup : written.Nodup
  marked : ∀ p ∈ ready, p ∈ written ∧ s'.preg.lookup p.id = some { p with status := .executed } ∨
    p ∉ written ∧ s'.preg.lookup p.id = some { p with status := .failed }
  kept : ∀ id, (∀ p ∈ ready, p.id ≠ id) → s'.preg.lookup id = s.preg.lookup id
  modules : s'.vreg = s.vreg.writeAll written
  versions : s.vreg.NoDowngrade s'.vreg

theorem executed_foldl (ready : List UpgradeProposal) (hids : (ready.map UpgradeProposal.id).Nodup)
    (s : UpgradeState) (hready : ∀ p ∈ ready, s.preg.lookup p.id = some p ∧ p.status = .scheduled) :
    ∃ written, Executed ready written s ((ready.map UpgradeProposal.id).foldl UpgradeState.execute s) := by
  induction ready generalizing s with
  | nil => exact ⟨[],by simp,List.nodup_nil,by simp,fun _ _ => rfl,rfl,.refl _⟩
  | cons p ready ih =>
    rw [List.map_cons, List.nodup_cons] at hids
    obtain ⟨hlookup,hstatus⟩ := hready p List.mem_cons_self
    have hfresh : ∀ q ∈ ready, q.id ≠ p.id := fun q hq heq => hids.1 (heq ▸ List.mem_map_of_mem hq)
    have hnot : ∀ {written : List UpgradeProposal}, (∀ q ∈ written, q ∈ ready) → p ∉ written :=
      fun hsub hmem => hfresh p (hsub p hmem) rfl
    -- the others are still scheduled once the first is marked
    have hothers : ∀ {q' : UpgradeProposal} {vreg : VersionRegistry}, ∀ q ∈ ready,
        (UpgradeState.mk vreg (s.preg.insert p.id q')).preg.lookup q.id = some q ∧ q.status = .scheduled := by
      intro q' vreg q hq
      dsimp only
      rw [Finmap.lookup_insert_of_ne _ (hfresh q hq)]
      exact hready q (List.mem_cons_of_mem _ hq)
    rw [List.map_cons, List.foldl_cons]
    have hmarked : ∀ {q' : UpgradeProposal} {vreg : VersionRegistry} {written : List UpgradeProposal}
        {s' : UpgradeState}, Executed ready written ⟨vreg,s.preg.insert p.id q'⟩ s' →
        s'.preg.lookup p.id = some q' := by
      intro q' vreg written s' hrest
      rw [hrest.kept p.id hfresh]
      exact Finmap.lookup_insert _
    have hkept : ∀ {q' : UpgradeProposal} {vreg : VersionRegistry} {written : List UpgradeProposal}
        {s' : UpgradeState}, Executed ready written ⟨vreg,s.preg.insert p.id q'⟩ s' →
        ∀ id, (∀ q ∈ p :: ready, q.id ≠ id) → s'.preg.lookup id = s.preg.lookup id := by
      intro q' vreg written s' hrest id hid
      rw [hrest.kept id fun q hq => hid q (List.mem_cons_of_mem _ hq)]
      exact Finmap.lookup_insert_of_ne _ (hid p List.mem_cons_self).symm
    rcases execute_cases hlookup hstatus with ⟨hexecute,hversions⟩ | hexecute
    · rw [hexecute] at hversions ⊢
      obtain ⟨written,hrest⟩ := ih hids.2 _ hothers
      refine ⟨p :: written,?_,List.nodup_cons.mpr ⟨hnot hrest.subset,hrest.nodup⟩,?_,hkept hrest,hrest.modules,
        hversions.trans hrest.versions⟩
      · intro q hq
        rcases List.mem_cons.mp hq with rfl | hq
        · exact List.mem_cons_self
        · exact List.mem_cons_of_mem _ (hrest.subset q hq)
      · intro q hq
        rcases List.mem_cons.mp hq with rfl | hq
        · exact Or.inl ⟨List.mem_cons_self,hmarked hrest⟩
        · have hne : q ≠ p := fun heq => hfresh q hq (heq ▸ rfl)
          simpa [hne] using hrest.marked q hq
    · rw [hexecute]
      obtain ⟨written,hrest⟩ := ih hids.2 _ hothers
      refine ⟨written,fun q hq => List.mem_cons_of_mem _ (hrest.subset q hq),hrest.nodup,?_,hkept hrest,
        hrest.modules,hrest.versions⟩
      intro q hq
      rcases List.mem_cons.mp hq with rfl | hq
      · exact Or.inr ⟨hnot hrest.subset,hmarked hrest⟩
      · exact hrest.marked q hq

end Execution

section Steps
variable {s s' : UpgradeState} {event : GovernanceEvent} {id : UInt64} {p p' : UpgradeProposal}

theorem UpgradeProposal.SameBody.refl (p : UpgradeProposal) : p.SameBody p := ⟨rfl,rfl,rfl,rfl,rfl⟩

theorem tryFinalize_moves (p : UpgradeProposal) (validatorSet : Finset Address) (currentBlock : UInt64) :
    p.SameBody (p.tryFinalize validatorSet currentBlock) ∧
      StatusMove p.status (p.tryFinalize validatorSet currentBlock).status ∧
      ((p.tryFinalize validatorSet currentBlock).status = p.status ∨
        (p.tryFinalize validatorSet currentBlock).status = .rejected ∨
        Majority validatorSet (p.tryFinalize validatorSet currentBlock).votes.lookup ∧
          currentBlock < (p.tryFinalize validatorSet currentBlock).activationBlock ∧
          (p.tryFinalize validatorSet currentBlock).status = .scheduled) := by
  by_cases hpending : p.status = .pending
  · rw [tryFinalize_of_pending hpending]
    split
    · rename_i hmajority
      refine ⟨⟨rfl,rfl,rfl,rfl,rfl⟩,?_,Or.inr (Or.inr ⟨hmajority.1,hmajority.2,rfl⟩)⟩
      rw [hpending]
      exact .schedule
    · refine ⟨⟨rfl,rfl,rfl,rfl,rfl⟩,?_,Or.inr (Or.inl rfl)⟩
      rw [hpending]
      exact .reject
  · rw [tryFinalize_of_not_pending hpending]
    exact ⟨.refl p,.stay _,Or.inl rfl⟩

/-- A voting call moves the status of a proposal and leaves its body. -/
theorem voting_moves {preg : ProposalRegistry} (hkeyed : preg.Keyed) (call : VotingCall) (id : UInt64) :
    ∃ f : UpgradeProposal → UpgradeProposal, (votingStep preg call).lookup id = (preg.lookup id).map f ∧
      ∀ p, p.SameBody (f p) ∧ StatusMove p.status (f p).status ∧
        ((f p).status = p.status ∨ (f p).status = .rejected ∨
          Majority call.activeSet (f p).votes.lookup ∧ call.height < (f p).activationBlock ∧
            (f p).status = .scheduled) := by
  cases call with
  | castVote proposalId voter approve vs currentBlock =>
    refine ⟨_,lookup_castVote preg proposalId voter approve vs currentBlock id,fun p => ?_⟩
    split
    · exact tryFinalize_moves { p with votes := p.votes.insert voter (if approve then .yes else .no) }
        vs.activeSet.toFinset currentBlock
    · exact ⟨.refl p,.stay _,Or.inl rfl⟩
  | sweep vs currentBlock =>
    exact ⟨_,lookup_sweep hkeyed vs currentBlock id,
      fun p => tryFinalize_moves p vs.activeSet.toFinset currentBlock⟩

theorem upgradeMove_voting (hkeyed : s.preg.Keyed) (call : VotingCall) :
    UpgradeMove s (.voting call) (upgradeStep s (.voting call)).1 := by
  have hnever : ∀ id p', (votingStep s.preg call).lookup id = some p' → p'.status = .executed →
      s.preg.statusOf id = some .executed := by
    intro id p' hp' hexecuted
    obtain ⟨f,hlookup,hf⟩ := voting_moves hkeyed call id
    rw [hlookup] at hp'
    obtain ⟨p,hp,rfl⟩ := Option.map_eq_some_iff.mp hp'
    rw [ProposalRegistry.statusOf, hp, Option.map_some]
    rcases (hf p).2.2 with hsame | hrejected | ⟨-,-,hscheduled⟩
    · rw [← hsame, hexecuted]
    · rw [hexecuted] at hrejected
      cases hrejected
    · rw [hexecuted] at hscheduled
      cases hscheduled
  refine ⟨?_,?_,?_,?_,⟨[],List.nodup_nil,?_,rfl⟩,.refl _⟩
  · intro id p hp
    obtain ⟨f,hlookup,hf⟩ := voting_moves hkeyed call id
    exact ⟨f p,by rw [upgradeStep, hlookup, hp, Option.map_some],(hf p).1,(hf p).2.1⟩
  · intro id p' hnone hp'
    obtain ⟨f,hlookup,hf⟩ := voting_moves hkeyed call id
    rw [upgradeStep, hlookup, hnone] at hp'
    cases hp'
  · intro id p' hbefore hp' hscheduled
    obtain ⟨f,hlookup,hf⟩ := voting_moves hkeyed call id
    rw [upgradeStep, hlookup] at hp'
    obtain ⟨p,hp,rfl⟩ := Option.map_eq_some_iff.mp hp'
    rw [ProposalRegistry.statusOf, hp, Option.map_some] at hbefore
    rcases (hf p).2.2 with hsame | hrejected | ⟨hmajority,hheight,-⟩
    · exact absurd (congrArg some (hsame.symm.trans hscheduled)) hbefore
    · rw [hscheduled] at hrejected
      cases hrejected
    · exact ⟨call,rfl,hmajority,hheight⟩
  · intro id p' hbefore hp' hexecuted
    exact absurd (hnever id p' hp' hexecuted) hbefore
  · intro p'
    refine ⟨fun hmem => absurd hmem List.not_mem_nil,fun h => ?_⟩
    exact absurd (hnever p'.id p' h.1 h.2.1) h.2.2

theorem upgradeMove_refl (s : UpgradeState) (event : GovernanceEvent) : UpgradeMove s event s := by
  have hsame : ∀ {id : UInt64} {p' : UpgradeProposal} {status : ProposalStatus}, s.preg.lookup id = some p' →
      p'.status = status → s.preg.statusOf id = some status := by
    intro id p' status hp' hstatus
    rw [ProposalRegistry.statusOf, hp', Option.map_some, hstatus]
  refine ⟨fun id p hp => ⟨p,hp,.refl p,.stay _⟩,?_,?_,?_,⟨[],List.nodup_nil,?_,rfl⟩,.refl _⟩
  · intro id p' hnone hp'
    rw [hnone] at hp'
    cases hp'
  · exact fun id p' hbefore hp' hscheduled => absurd (hsame hp' hscheduled) hbefore
  · exact fun id p' hbefore hp' hexecuted => absurd (hsame hp' hexecuted) hbefore
  · exact fun p' => ⟨fun hmem => absurd hmem List.not_mem_nil,fun h => absurd (hsame h.1 h.2.1) h.2.2⟩

theorem upgradeMove_createProposal (s : UpgradeState) (proposalId : UInt64) (moduleName : String)
    (newVersion : UInt32) (activationBlock : UInt64) (proposer : Address) :
    UpgradeMove s (.createProposal proposalId moduleName newVersion activationBlock proposer)
      (upgradeStep s (.createProposal proposalId moduleName newVersion activationBlock proposer)).1 := by
  unfold upgradeStep
  cases hcreate : createProposal s.preg proposalId moduleName newVersion activationBlock proposer with
  | error e =>
    simp only [hcreate]
    exact upgradeMove_refl s _
  | ok preg =>
    simp only [hcreate]
    obtain ⟨hfresh,rfl⟩ := createProposal_ok hcreate
    -- a proposal that is there is an old one, or the new one, which is pending
    have hcases : ∀ {id : UInt64} {p' : UpgradeProposal}, (s.preg.insert proposalId
        ⟨proposalId,moduleName,newVersion,activationBlock,proposer,∅,.pending⟩).lookup id = some p' →
        s.preg.lookup id = some p' ∨ p'.id = id ∧ p'.status = .pending := by
      intro id p' hp'
      by_cases hid : id = proposalId
      · subst hid
        rw [Finmap.lookup_insert] at hp'
        cases hp'
        exact Or.inr ⟨rfl,rfl⟩
      · rw [Finmap.lookup_insert_of_ne _ hid] at hp'
        exact Or.inl hp'
    have hsame : ∀ {id : UInt64} {p' : UpgradeProposal} {status : ProposalStatus}, (s.preg.insert proposalId
        ⟨proposalId,moduleName,newVersion,activationBlock,proposer,∅,.pending⟩).lookup id = some p' →
        p'.status = status → status ≠ .pending → s.preg.statusOf id = some status := by
      intro id p' status hp' hstatus hne
      have hold := (hcases hp').resolve_right fun hnew => hne (hstatus.symm.trans hnew.2)
      rw [ProposalRegistry.statusOf, hold, Option.map_some, hstatus]
    refine ⟨?_,?_,?_,?_,⟨[],List.nodup_nil,?_,rfl⟩,.refl _⟩
    · intro id p hp
      refine ⟨p,?_,.refl p,.stay _⟩
      rw [Finmap.lookup_insert_of_ne _ fun hid => by rw [hid, hfresh] at hp; cases hp]
      exact hp
    · intro id p' hnone hp'
      exact (hcases hp').resolve_left fun hold => by rw [hnone] at hold; cases hold
    · exact fun id p' hbefore hp' hscheduled => absurd (hsame hp' hscheduled (by decide)) hbefore
    · exact fun id p' hbefore hp' hexecuted => absurd (hsame hp' hexecuted (by decide)) hbefore
    · exact fun p' => ⟨fun hmem => absurd hmem List.not_mem_nil,
        fun h => absurd (hsame h.1 h.2.1 (by decide)) h.2.2⟩

theorem ids_nodup (preg : ProposalRegistry) : (ProposalRegistry.ids preg).Nodup := by
  unfold ProposalRegistry.ids
  refine List.Nodup.of_map UInt64.toNat ?_
  rw [List.map_map]
  have hsame : ((preg.keys.image UInt64.toNat).sort (· ≤ ·)).map (UInt64.toNat ∘ UInt64.ofNat) =
      (preg.keys.image UInt64.toNat).sort (· ≤ ·) := by
    rw [List.map_congr_left, List.map_id]
    intro n hn
    obtain ⟨k,-,rfl⟩ := Finset.mem_image.mp ((Finset.mem_sort _).mp hn)
    rw [Function.comp_apply, UInt64.ofNat_toNat, id]
  rw [hsame]
  exact Finset.sort_nodup _ _

theorem nodup_ready {preg : ProposalRegistry} (hkeyed : preg.Keyed) (currentBlock : UInt64) :
    ((preg.readyToExecute currentBlock).map UpgradeProposal.id).Nodup := by
  unfold ProposalRegistry.readyToExecute
  refine List.Nodup.sublist (List.Sublist.map _ List.filter_sublist) ?_
  rw [List.map_filterMap]
  refine (ids_nodup preg).filterMap ?_
  intro id id' k hk hk'
  obtain ⟨p,hp,rfl⟩ := Option.map_eq_some_iff.mp hk
  obtain ⟨p',hp',hsame⟩ := Option.map_eq_some_iff.mp hk'
  rw [← hkeyed id p hp, ← hkeyed id' p' hp', hsame]

theorem mem_ready {preg : ProposalRegistry} (hkeyed : preg.Keyed) {currentBlock : UInt64} :
    p ∈ preg.readyToExecute currentBlock ↔
      preg.lookup p.id = some p ∧ p.status = .scheduled ∧ p.activationBlock ≤ currentBlock := by
  rw [ProposalRegistry.readyToExecute, List.mem_filter, mem_proposals hkeyed, Bool.and_eq_true,
    decide_eq_true_eq, decide_eq_true_eq]

theorem writeAll_map (vreg : VersionRegistry) (written : List UpgradeProposal) :
    vreg.writeAll (written.map (fun p => { p with status := .executed })) = vreg.writeAll written := by
  unfold VersionRegistry.writeAll
  rw [List.foldl_map]

theorem upgradeMove_applyReady (hkeyed : s.preg.Keyed) (currentBlock : UInt64) :
    UpgradeMove s (.applyReady currentBlock) (upgradeStep s (.applyReady currentBlock)).1 := by
  obtain ⟨written,hexecuted⟩ := executed_foldl (s.preg.readyToExecute currentBlock) (nodup_ready hkeyed currentBlock) s
    fun p hp => ⟨((mem_ready hkeyed).mp hp).1,((mem_ready hkeyed).mp hp).2.1⟩
  have hstep : (upgradeStep s (.applyReady currentBlock)).1 =
      ((s.preg.readyToExecute currentBlock).map UpgradeProposal.id).foldl UpgradeState.execute s := rfl
  rw [hstep]
  generalize ((s.preg.readyToExecute currentBlock).map UpgradeProposal.id).foldl UpgradeState.execute s = s' at hexecuted
  -- each proposal was ready and is marked now, or is what it was
  have hcases : ∀ id p', s'.preg.lookup id = some p' →
      (∃ p ∈ s.preg.readyToExecute currentBlock, p.id = id ∧
        (p ∈ written ∧ p' = { p with status := .executed } ∨ p ∉ written ∧ p' = { p with status := .failed })) ∨
      s.preg.lookup id = some p' := by
    intro id p' hp'
    by_cases hready : ∃ p ∈ s.preg.readyToExecute currentBlock, p.id = id
    · obtain ⟨p,hp,rfl⟩ := hready
      refine Or.inl ⟨p,hp,rfl,?_⟩
      rcases hexecuted.marked p hp with ⟨hmem,hmark⟩ | ⟨hmem,hmark⟩
      · rw [hmark] at hp'
        exact Or.inl ⟨hmem,(Option.some.inj hp').symm⟩
      · rw [hmark] at hp'
        exact Or.inr ⟨hmem,(Option.some.inj hp').symm⟩
    · rw [hexecuted.kept id fun p hp hid => hready ⟨p,hp,hid⟩] at hp'
      exact Or.inr hp'
  have hstatus : ∀ {p : UpgradeProposal}, p ∈ s.preg.readyToExecute currentBlock →
      s.preg.statusOf p.id = some .scheduled := by
    intro p hp
    obtain ⟨hlookup,hscheduled,-⟩ := (mem_ready hkeyed).mp hp
    rw [ProposalRegistry.statusOf, hlookup, Option.map_some, hscheduled]
  refine ⟨?_,?_,?_,?_,⟨written.map (fun p => { p with status := .executed }),?_,?_,?_⟩,hexecuted.versions⟩
  · intro id p hp
    by_cases hready : ∃ q ∈ s.preg.readyToExecute currentBlock, q.id = id
    · obtain ⟨q,hq,rfl⟩ := hready
      obtain ⟨hlookup,hscheduled,-⟩ := (mem_ready hkeyed).mp hq
      have hsame : p = q := Option.some.inj (hp.symm.trans hlookup)
      rw [hsame, hscheduled]
      rcases hexecuted.marked q hq with ⟨-,hmark⟩ | ⟨-,hmark⟩
      · exact ⟨_,hmark,⟨rfl,rfl,rfl,rfl,rfl⟩,.execute⟩
      · exact ⟨_,hmark,⟨rfl,rfl,rfl,rfl,rfl⟩,.fail⟩
    · refine ⟨p,?_,.refl p,.stay _⟩
      rw [hexecuted.kept id fun q hq hid => hready ⟨q,hq,hid⟩, hp]
  · intro id p' hnone hp'
    rcases hcases id p' hp' with ⟨p,hp,rfl,-⟩ | hold
    · rw [((mem_ready hkeyed).mp hp).1] at hnone
      cases hnone
    · rw [hnone] at hold
      cases hold
  · intro id p' hbefore hp' hscheduled
    rcases hcases id p' hp' with ⟨p,hp,rfl,-⟩ | hold
    · exact absurd (hstatus hp) hbefore
    · refine absurd ?_ hbefore
      rw [ProposalRegistry.statusOf, hold, Option.map_some, hscheduled]
  · intro id p' hbefore hp' hstatus'
    rcases hcases id p' hp' with ⟨p,hp,rfl,⟨-,rfl⟩ | ⟨-,rfl⟩⟩ | hold
    · exact ⟨currentBlock,rfl,((mem_ready hkeyed).mp hp).2.2⟩
    · cases hstatus'
    · refine absurd ?_ hbefore
      rw [ProposalRegistry.statusOf, hold, Option.map_some, hstatus']
  · refine List.Nodup.map_on ?_ hexecuted.nodup
    intro p hp q hq hsame
    have hid : p.id = q.id := (UpgradeProposal.mk.inj hsame).1
    have hp' := ((mem_ready hkeyed).mp (hexecuted.subset p hp)).1
    rw [hid, ((mem_ready hkeyed).mp (hexecuted.subset q hq)).1] at hp'
    exact (Option.some.inj hp').symm
  · intro p'
    rw [List.mem_map]
    constructor
    · rintro ⟨p,hp,rfl⟩
      have hready := hexecuted.subset p hp
      refine ⟨?_,rfl,?_⟩
      · exact ((hexecuted.marked p hready).resolve_right fun h => h.1 hp).2
      · dsimp only
        rw [hstatus hready]
        decide
    · rintro ⟨hp',hexecuted',hbefore⟩
      rcases hcases p'.id p' hp' with ⟨p,-,-,⟨hmem,rfl⟩ | ⟨-,rfl⟩⟩ | hold
      · exact ⟨p,hmem,rfl⟩
      · cases hexecuted'
      · refine absurd ?_ hbefore
        rw [ProposalRegistry.statusOf, hold, Option.map_some, hexecuted']
  · rw [writeAll_map]
    exact hexecuted.modules

theorem upgradeMove_upgradeStep (hkeyed : s.preg.Keyed) (event : GovernanceEvent) :
    UpgradeMove s event (upgradeStep s event).1 := by
  cases event with
  | createProposal proposalId moduleName newVersion activationBlock proposer =>
    exact upgradeMove_createProposal s proposalId moduleName newVersion activationBlock proposer
  | voting call => exact upgradeMove_voting hkeyed call
  | applyReady currentBlock => exact upgradeMove_applyReady hkeyed currentBlock

theorem UpgradeMove.keyed (hkeyed : s.preg.Keyed) (h : UpgradeMove s event s') : s'.preg.Keyed := by
  intro id p' hp'
  cases hp : s.preg.lookup id with
  | none => exact (h.starts id p' hp hp').1
  | some p =>
    obtain ⟨q,hq,hbody,-⟩ := h.moves id p hp
    rw [hp'] at hq
    cases hq
    exact hbody.1.trans (hkeyed id p hp)

theorem UpgradeMove.executed_stays (h : UpgradeMove s event s') (hbefore : s.preg.statusOf id = some .executed) :
    s'.preg.statusOf id = some .executed := by
  obtain ⟨p,hp,hstatus⟩ := Option.map_eq_some_iff.mp hbefore
  obtain ⟨p',hp',-,hmove⟩ := h.moves id p hp
  rw [hstatus] at hmove
  rw [ProposalRegistry.statusOf, hp', Option.map_some]
  generalize p'.status = status' at hmove
  cases hmove
  rfl

end Steps

section Runs
variable {s : UpgradeState}

def executions (s : UpgradeState) (events : List GovernanceEvent) (id : UInt64) :
    List (Machine.Entry UpgradeState GovernanceEvent Unit) :=
  (Machine.history upgradeStep s events).filter (fun e => e.before.preg.statusOf id ≠ some .executed &&
    (upgradeStep e.before e.call).1.preg.statusOf id = some .executed)

theorem executions_of_executed (hkeyed : s.preg.Keyed) {id : UInt64} (h : s.preg.statusOf id = some .executed)
    (events : List GovernanceEvent) : executions s events id = [] := by
  induction events generalizing s with
  | nil => rfl
  | cons event events ih =>
    have hmove := upgradeMove_upgradeStep hkeyed event
    have hrest := ih (hmove.keyed hkeyed) (hmove.executed_stays h)
    unfold executions at hrest ⊢
    rw [Machine.history_cons, List.filter_cons, hrest]
    simp [h]

theorem executions_le_one (hkeyed : s.preg.Keyed) (events : List GovernanceEvent) (id : UInt64) :
    (executions s events id).length ≤ 1 := by
  induction events generalizing s with
  | nil => exact Nat.zero_le 1
  | cons event events ih =>
    have hmove := upgradeMove_upgradeStep hkeyed event
    have hrest := ih (hmove.keyed hkeyed)
    have hcons : executions s (event :: events) id = if (s.preg.statusOf id ≠ some .executed &&
        (upgradeStep s event).1.preg.statusOf id = some .executed) = true then
          ⟨s,event,()⟩ :: executions (upgradeStep s event).1 events id
        else executions (upgradeStep s event).1 events id := by
      unfold executions
      rw [Machine.history_cons, List.filter_cons]
    rw [hcons]
    split
    · rename_i hnow
      rw [Bool.and_eq_true, decide_eq_true_eq, decide_eq_true_eq] at hnow
      rw [executions_of_executed (hmove.keyed hkeyed) hnow.2, List.length_singleton]
    · exact hrest

/-- Every event of a run is a move that is allowed, no proposal is executed twice, and no
module version is lower in the end. -/
theorem upgrades_run (hkeyed : s.preg.Keyed) (events : List GovernanceEvent) :
    (∀ e ∈ Machine.history upgradeStep s events, UpgradeMove e.before e.call (upgradeStep e.before e.call).1) ∧
      (∀ id, (executions s events id).length ≤ 1) ∧
      s.vreg.NoDowngrade (Machine.final upgradeStep s events).vreg := by
  have hkept : ∀ s event, UpgradeState.preg s |>.Keyed → True → (upgradeStep s event).1.preg.Keyed :=
    fun s event hs _ => (upgradeMove_upgradeStep hs event).keyed hs
  obtain ⟨hbefore,-⟩ := Machine.state_invariant upgradeStep (G := fun _ _ => True) hkeyed hkept events
    fun _ _ => trivial
  refine ⟨fun e he => upgradeMove_upgradeStep (hbefore e he) e.call,executions_le_one hkeyed events,?_⟩
  have hversions := Machine.state_invariant upgradeStep (G := fun _ _ => True)
    (I := fun s' : UpgradeState => s'.preg.Keyed ∧ s.vreg.NoDowngrade s'.vreg) ⟨hkeyed,.refl _⟩
    (fun s' event hs _ => ⟨hkept s' event hs.1 trivial,hs.2.trans (upgradeMove_upgradeStep hs.1 event).versions⟩)
    events fun _ _ => trivial
  exact hversions.2.2

/-- A proposal that the only validator votes for, and that is executed when it is due. -/
theorem upgrades_run_voted :
    (∀ id, (executions ⟨.new,upgradeRegistry⟩
      [.voting (.castVote 1 1 true (firstValidators 1) 100),.applyReady 1000000,.applyReady 1000001] id).length ≤ 1) ∧
      (Machine.final upgradeStep ⟨.new,upgradeRegistry⟩
        [.voting (.castVote 1 1 true (firstValidators 1) 100),.applyReady 1000000]).vreg.modules.lookup "zbx-vm" =
        some 2 := by
  refine ⟨(upgrades_run keyed_upgradeRegistry _).2.1,?_⟩
  decide +kernel

end Runs

end ZbxChain.Staking
