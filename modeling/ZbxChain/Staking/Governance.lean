import Mathlib.Data.Finmap
import Mathlib.Data.Finset.Sort
import ZbxChain.Staking.Ledger

/-! # Upgrade proposals, their votes and the registries of governance

One registry keeps the proposals, the other the module versions, activations and flags that
upgrades change. The ordered maps of the source are equal when they hold the same, and so are
finite maps.
-/
namespace ZbxChain.Staking

inductive Vote where
  | yes
  | no
  | abstain
  deriving DecidableEq

inductive ProposalStatus where
  | pending
  | approved
  | rejected
  | scheduled
  | executed
  | failed
  deriving DecidableEq

structure UpgradeProposal where
  id : UInt64
  moduleName : String
  newVersion : UInt32
  activationBlock : UInt64
  proposer : Address
  votes : Finmap (fun _ : Address => Vote)
  status : ProposalStatus
  deriving DecidableEq

/-- The characters `[a-z0-9_-]`. -/
def isModuleNameByte (b : UInt8) : Bool :=
  (97 ≤ b && b ≤ 122) || (48 ≤ b && b ≤ 57) || b = 95 || b = 45

def validateModuleName (name : String) : Except StakingError Unit :=
  if name.isEmpty then .error (.badPayload .moduleNameEmpty)
  else if !name.toUTF8.toList.all isModuleNameByte then .error (.badPayload (.moduleNamePattern name))
  else .ok ()

namespace UpgradeProposal

def new (id : UInt64) (moduleName : String) (newVersion : UInt32) (activationBlock : UInt64)
    (proposer : Address) : Except StakingError UpgradeProposal := do
  validateModuleName moduleName
  return ⟨id,moduleName,newVersion,activationBlock,proposer,∅,.pending⟩

def castVote (p : UpgradeProposal) (validator : Address) (vote : Vote) :
    Except StakingError UpgradeProposal :=
  if p.status ≠ .pending then .error (.badPayload (.notPending p.id))
  else .ok { p with votes := p.votes.insert validator vote }

def yesVotes (p : UpgradeProposal) (validatorSet : Finset Address) : ℕ :=
  (validatorSet.filter (fun voter => p.votes.lookup voter = some .yes)).card

/-- `has_majority` of the tally. -/
def hasMajority (p : UpgradeProposal) (validatorSet : Finset Address) : Bool :=
  validatorSet.card < p.yesVotes validatorSet * 2

/-- `try_finalize`: without a majority, or with one too late, a pending proposal is rejected. -/
def tryFinalize (p : UpgradeProposal) (validatorSet : Finset Address) (currentBlock : UInt64) :
    UpgradeProposal :=
  if p.status ≠ .pending then p
  else if p.hasMajority validatorSet && currentBlock < p.activationBlock then
    { p with status := .scheduled }
  else { p with status := .rejected }

end UpgradeProposal

abbrev ProposalRegistry := Finmap (fun _ : UInt64 => UpgradeProposal)

structure GovernanceColumns where
  proposalCounter : Option UInt64
  proposals : Option ProposalRegistry

namespace GovernanceColumns

def loadProposalRegistry (db : GovernanceColumns) : ProposalRegistry := db.proposals.getD ∅

def persistProposalRegistry (db : GovernanceColumns) (preg : ProposalRegistry) : GovernanceColumns :=
  { db with proposals := some preg }

/-- The id that `next_proposal_id` hands out; the counter wraps. -/
def nextProposalId (db : GovernanceColumns) : UInt64 := db.proposalCounter.getD 0 + 1

end GovernanceColumns

def createProposal (preg : ProposalRegistry) (proposalId : UInt64) (moduleName : String)
    (newVersion : UInt32) (activationBlock : UInt64) (proposer : Address) :
    Except StakingError ProposalRegistry := do
  let proposal ← UpgradeProposal.new proposalId moduleName newVersion activationBlock proposer
  if (preg.lookup proposalId).isSome then .error (.badPayload (.proposalExists proposalId))
  else .ok (preg.insert proposalId proposal)

def castAndMaybeFinalize (preg : ProposalRegistry) (proposalId : UInt64) (voter : Address)
    (approve : Bool) (vs : ValidatorSet) (currentBlock : UInt64) : Except StakingError ProposalRegistry :=
  match preg.lookup proposalId with
  | none => .error (.badPayload (.proposalNotFound proposalId))
  | some proposal => do
    let proposal ← proposal.castVote voter (if approve then .yes else .no)
    return preg.insert proposalId (proposal.tryFinalize vs.activeSet.toFinset currentBlock)

def ProposalRegistry.ids (preg : ProposalRegistry) : List UInt64 :=
  ((preg.keys.image UInt64.toNat).sort (· ≤ ·)).map UInt64.ofNat

/-- `try_finalize_all_pending`: the registry, and whether it has changed. -/
def tryFinalizeAllPending (preg : ProposalRegistry) (vs : ValidatorSet) (currentBlock : UInt64) :
    ProposalRegistry × Bool :=
  let pending := (ProposalRegistry.ids preg).filterMap preg.lookup |>.filter (fun p => p.status = .pending)
  (pending.foldl (fun preg p =>
      preg.insert p.id (p.tryFinalize vs.activeSet.toFinset currentBlock)) preg,
    !pending.isEmpty)

inductive UpgradeError where
  | moduleEmpty
  | modulePattern (name : String)
  | moduleDowngrade (name : String) (current got : UInt32)
  | storageVersion (current got : UInt32)
  | notScheduled (status : ProposalStatus)
  deriving DecidableEq

structure ModuleVersion where
  name : String
  version : UInt32

structure Activation where
  feature : String
  block : UInt64

structure Flag where
  name : String
  enabled : Bool

def ModuleVersion.new (name : String) (version : UInt32) : Except UpgradeError ModuleVersion :=
  if name.isEmpty then .error .moduleEmpty
  else if !name.toUTF8.toList.all isModuleNameByte then .error (.modulePattern name)
  else .ok ⟨name,version⟩

abbrev ModuleVersions := Finmap (fun _ : String => UInt32)

/-- `set`: an entry may keep its version, and not go back. -/
def ModuleVersions.set (modules : ModuleVersions) (entry : ModuleVersion) : Except UpgradeError ModuleVersions :=
  match modules.lookup entry.name with
  | none => .ok (modules.insert entry.name entry.version)
  | some prev =>
    if entry.version < prev then .error (.moduleDowngrade entry.name prev entry.version)
    else .ok (modules.insert entry.name entry.version)

structure RegistryUpgrade where
  setModules : List ModuleVersion
  setActivations : List Activation
  setFlags : List Flag
  bumpStorage : Option UInt32

structure VersionRegistry where
  modules : ModuleVersions
  activations : Finmap (fun _ : String => UInt64)
  flags : Finmap (fun _ : String => Bool)
  storageVersion : UInt32

namespace VersionRegistry

def new : VersionRegistry := ⟨∅,∅,∅,0⟩

/-- `apply`: all of an upgrade, or none of it. -/
def apply (vreg : VersionRegistry) (upgrade : RegistryUpgrade) : Except UpgradeError VersionRegistry := do
  let modules ← upgrade.setModules.foldlM ModuleVersions.set vreg.modules
  let activations := upgrade.setActivations.foldl (fun s a => s.insert a.feature a.block) vreg.activations
  let flags := upgrade.setFlags.foldl (fun s f => s.insert f.name f.enabled) vreg.flags
  match upgrade.bumpStorage with
  | none => return ⟨modules,activations,flags,vreg.storageVersion⟩
  | some version =>
    if vreg.storageVersion < version then return ⟨modules,activations,flags,version⟩
    else throw (.storageVersion vreg.storageVersion version)

end VersionRegistry

section Versions
variable {vreg vreg' : VersionRegistry} {entry : ModuleVersion}

theorem apply_setModule : vreg.apply ⟨[entry],[],[],none⟩ = .ok vreg' ↔
    (∀ prev, vreg.modules.lookup entry.name = some prev → prev ≤ entry.version) ∧
      vreg' = { vreg with modules := vreg.modules.insert entry.name entry.version } := by
  have hset : vreg.apply ⟨[entry],[],[],none⟩ =
      (vreg.modules.set entry).map (fun modules => { vreg with modules := modules }) := by
    unfold VersionRegistry.apply
    simp only [List.foldlM_cons, List.foldlM_nil, List.foldl_nil]
    cases vreg.modules.set entry with
    | error e => rfl
    | ok modules => rfl
  rw [hset, ModuleVersions.set]
  cases hprev : vreg.modules.lookup entry.name with
  | none =>
    simp only [Except.map, Except.ok.injEq, reduceCtorEq, IsEmpty.forall_iff, implies_true, true_and]
    exact eq_comm
  | some prev =>
    dsimp only
    split
    · rename_i hlt
      simp only [Except.map, reduceCtorEq, false_iff, Option.some.injEq, forall_eq', not_and]
      intro hle
      exact absurd hlt (UInt32.not_lt.mpr hle)
    · rename_i hge
      simp only [Except.map, Except.ok.injEq, Option.some.injEq, forall_eq', UInt32.not_lt.mp hge, true_and]
      exact eq_comm

def VersionRegistry.NoDowngrade (vreg vreg' : VersionRegistry) : Prop :=
  ∀ name version, vreg.modules.lookup name = some version →
    ∃ version', vreg'.modules.lookup name = some version' ∧ version ≤ version'

theorem VersionRegistry.NoDowngrade.refl (vreg : VersionRegistry) : vreg.NoDowngrade vreg :=
  fun _ version h => ⟨version,h,UInt32.le_refl version⟩

theorem VersionRegistry.NoDowngrade.trans {vreg'' : VersionRegistry} (h : vreg.NoDowngrade vreg')
    (h' : vreg'.NoDowngrade vreg'') : vreg.NoDowngrade vreg'' := by
  intro name version hversion
  obtain ⟨version',hversion',hle⟩ := h name version hversion
  obtain ⟨version'',hversion'',hle'⟩ := h' name version' hversion'
  exact ⟨version'',hversion'',UInt32.le_trans hle hle'⟩

/-- An upgrade that is applied lowers no version. -/
theorem noDowngrade_apply (h : vreg.apply ⟨[entry],[],[],none⟩ = .ok vreg') : vreg.NoDowngrade vreg' := by
  obtain ⟨hup,rfl⟩ := apply_setModule.mp h
  intro name version hversion
  dsimp only
  by_cases hname : name = entry.name
  · subst hname
    exact ⟨entry.version,Finmap.lookup_insert _,hup version hversion⟩
  · rw [Finmap.lookup_insert_of_ne _ hname]
    exact ⟨version,hversion,UInt32.le_refl version⟩

end Versions

end ZbxChain.Staking
