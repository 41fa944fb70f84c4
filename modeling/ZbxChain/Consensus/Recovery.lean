import Mathlib.Data.Nat.Digits.Lemmas
import Mathlib.Tactic.DeriveEncodable
import Mathlib.Logic.Equiv.Finset
import ZbxChain.Consensus.SafetyRules

/-! # Restarting a validator from its safety file

A running validator is its rules together with the disk. Writes and renames are taken
to succeed. `vote` writes the state through before it returns a vote;
`update_locked_qc` and `advance_epoch` change it in memory only.
-/
namespace ZbxChain.SafetyRules
open Machine

abbrev Disk := PathBuf → Option (List UInt8)

namespace Disk

def write (disk : Disk) (path : PathBuf) (bytes : List UInt8) : Disk :=
  Function.update disk path (some bytes)

/-- A rename moves the file over the target; onto itself it changes nothing. -/
def rename (disk : Disk) (src dst : PathBuf) : Disk :=
  if src = dst then disk
  else match disk src with
    | none => disk
    | some bytes => Function.update (Function.update disk dst (some bytes)) src none

theorem rename_write (disk : Disk) (src dst : PathBuf) (bytes : List UInt8) :
    (disk.write src bytes).rename src dst dst = some bytes := by
  unfold rename
  by_cases h : src = dst
  · subst h
    simp [write]
  · simp [h, write, Function.update_of_ne (Ne.symm h)]

end Disk

/-- `serde_json` at `SafetyState`. -/
structure SerdeJson where
  toVec : SafetyState → Option (List UInt8)
  fromSlice : List UInt8 → Option SafetyState

def SerdeJson.RoundTrips (S : SerdeJson) : Prop :=
  ∀ s, ∃ bytes, S.toVec s = some bytes ∧ S.fromSlice bytes = some s

structure Process where
  rules : SafetyRules
  disk : Disk

variable (P : Platform) (S : SerdeJson)

def newWithPersist (disk : Disk) (privKey : BlsPrivKey) (address : Address) (path : PathBuf) :
    SafetyRules :=
  ⟨((disk path).bind S.fromSlice).getD .default,privKey,P.toPubkey privKey,address,some path⟩

def persistState (rules : SafetyRules) (disk : Disk) : Disk :=
  match rules.persistPath with
  | none => disk
  | some path =>
    match S.toVec rules.state with
    | none => disk
    | some bytes => (disk.write (path.withExtension "tmp") bytes).rename (path.withExtension "tmp") path

def Process.step (p : Process) (call : Call) : Process × Option (Except ConsensusError Vote) :=
  let next := SafetyRules.step P p.rules call
  match next.2 with
  | some (.ok v) => (⟨next.1,persistState S next.1 p.disk⟩, some (.ok v))
  | out => (⟨next.1,p.disk⟩, out)

def Process.start (disk : Disk) (privKey : BlsPrivKey) (address : Address) (path : PathBuf) : Process :=
  ⟨newWithPersist P S disk privKey address path,disk⟩

def Recovers (privKey : BlsPrivKey) (address : Address) (path : PathBuf) (p : Process) : Prop :=
  (newWithPersist P S p.disk privKey address path).state = p.rules.state ∧
    ∀ data parentQc, (∃ e, (p.rules.vote P data parentQc).2 = .error e) →
      ∃ e, ((newWithPersist P S p.disk privKey address path).vote P data parentQc).2 = .error e

def MovesUnsaved (s : SafetyState) : Call → Prop
  | .vote _ _ => False
  | .updateLockedQc qc => s.lockedRound < qc.blockNumber
  | .advanceEpoch newEpoch => s.epoch < newEpoch

variable {P S} {rules : SafetyRules} {p : Process} {path : PathBuf} {privKey : BlsPrivKey}
  {address : Address} {call : Call}

theorem updateLockedQc_of_not_lt {qc : QuorumCertificate}
    (h : ¬ rules.state.lockedRound < qc.blockNumber) : rules.updateLockedQc qc = rules := if_neg h

theorem advanceEpoch_of_not_lt {newEpoch : UInt64} (h : ¬ rules.state.epoch < newEpoch) :
    rules.advanceEpoch newEpoch = rules := if_neg h

theorem state_ne_of_movesUnsaved (h : MovesUnsaved rules.state call) :
    (SafetyRules.step P rules call).1.state ≠ rules.state := by
  intro heq
  cases call with
  | vote data parentQc => exact h
  | updateLockedQc qc =>
    have hlock := congrArg SafetyState.lockedRound heq
    simp only [MovesUnsaved] at h
    simp only [step, updateLockedQc, if_pos h] at hlock
    exact absurd (hlock ▸ h) (UInt64.lt_irrefl _)
  | advanceEpoch newEpoch =>
    have hepoch := congrArg SafetyState.epoch heq
    simp only [MovesUnsaved] at h
    simp only [step, advanceEpoch, if_pos h] at hepoch
    exact absurd (hepoch ▸ h) (UInt64.lt_irrefl _)

theorem disk_of_movesUnsaved (h : MovesUnsaved p.rules.state call) :
    (p.step P S call).1.disk = p.disk ∧
      (p.step P S call).1.rules = (SafetyRules.step P p.rules call).1 := by
  cases call with
  | vote data parentQc => exact h.elim
  | updateLockedQc qc => exact ⟨rfl,rfl⟩
  | advanceEpoch newEpoch => exact ⟨rfl,rfl⟩

/-- What is on disk under the validator's own path is what it has in memory. -/
def Saved (S : SerdeJson) (path : PathBuf) (p : Process) : Prop :=
  p.rules.persistPath = some path ∧
    ((p.disk path).bind S.fromSlice).getD .default = p.rules.state

theorem Saved.recovers (h : Saved S path p) : Recovers P S privKey address path p := by
  obtain ⟨-,hstate⟩ := h
  refine ⟨hstate,?_⟩
  rintro data parentQc ⟨e,he⟩
  obtain ⟨hrefused,-⟩ := vote_error he
  have hback : ¬ (newWithPersist P S p.disk privKey address path).state.Admits data parentQc := by
    rw [newWithPersist, hstate]
    exact hrefused
  obtain ⟨e',he'⟩ := vote_of_not_admits (P := P) hback
  exact ⟨e',by rw [he']⟩

theorem saved_start (privKey : BlsPrivKey) (address : Address) (disk : Disk) :
    Saved S path (Process.start P S disk privKey address path) :=
  ⟨rfl,rfl⟩

theorem saved_persistState (hserde : S.RoundTrips) (hpath : rules.persistPath = some path)
    (disk : Disk) : Saved S path ⟨rules,persistState S rules disk⟩ := by
  obtain ⟨bytes,hto,hfrom⟩ := hserde rules.state
  refine ⟨hpath,?_⟩
  simp only [persistState, hpath, hto, Disk.rename_write, Option.bind_some, hfrom, Option.getD_some]

theorem saved_step (hserde : S.RoundTrips) (h : Saved S path p)
    (hcall : ¬ MovesUnsaved p.rules.state call) : Saved S path (p.step P S call).1 := by
  obtain ⟨hpath,hstate⟩ := h
  cases call with
  | vote data parentQc =>
    by_cases hadmits : p.rules.state.Admits data parentQc
    · simp only [Process.step, SafetyRules.step, vote_of_admits hadmits]
      refine saved_persistState hserde ?_ p.disk
      exact hpath
    · obtain ⟨e,he⟩ := vote_of_not_admits (P := P) hadmits
      simp only [Process.step, SafetyRules.step, he]
      exact ⟨hpath,hstate⟩
  | updateLockedQc qc =>
    simp only [Process.step, SafetyRules.step, updateLockedQc_of_not_lt hcall]
    exact ⟨hpath,hstate⟩
  | advanceEpoch newEpoch =>
    simp only [Process.step, SafetyRules.step, advanceEpoch_of_not_lt hcall]
    exact ⟨hpath,hstate⟩

/-- Recovery is exact after every prefix of a run just when no call of the run moves
the lock or the epoch. -/
theorem recovers_iff_neverMovesUnsaved (hserde : S.RoundTrips) (disk : Disk) (calls : List Call) :
    (∀ pre, pre <+: calls → Recovers P S privKey address path
        (final (Process.step P S) (.start P S disk privKey address path) pre)) ↔
      ∀ e ∈ history (Process.step P S) (.start P S disk privKey address path) calls,
        ¬ MovesUnsaved e.before.rules.state e.call := by
  constructor
  · intro hrecovers e he hmoves
    obtain ⟨xs,ys,hsplit,hbefore⟩ := history_split _ he
    have hxs := (hrecovers xs ⟨_,hsplit.symm⟩).1
    have hnext := (hrecovers (xs ++ [e.call]) ⟨ys,by simp [hsplit]⟩).1
    obtain ⟨hdisk,hrules⟩ := disk_of_movesUnsaved (P := P) (S := S) hmoves
    rw [final_append, ← hbefore] at hnext
    rw [← hbefore] at hxs
    simp only [final_cons, final_nil, newWithPersist, hdisk, hrules] at hnext
    simp only [newWithPersist] at hxs
    exact state_ne_of_movesUnsaved hmoves (hnext.symm.trans hxs)
  · rintro hnever pre ⟨rest,rfl⟩
    rw [history_append] at hnever
    have hsaved := state_invariant (Process.step P S)
      (G := fun p call => ¬ MovesUnsaved p.rules.state call) (I := Saved S path)
      (saved_start (P := P) privKey address disk)
      (fun _ _ hp hcall => saved_step hserde hp hcall) pre
      (fun e he => hnever e (List.mem_append_left _ he))
    exact hsaved.2.recovers

section Digits

instance (n : ℕ) : Encodable (BitVec n) :=
  Encodable.ofLeftInverse BitVec.toNat (BitVec.ofNat n) (fun x => by simp)

instance : Encodable UInt64 := Encodable.ofLeftInverse UInt64.toNat UInt64.ofNat (fun x => by simp)

instance : Encodable UInt8 := Encodable.ofLeftInverse UInt8.toNat UInt8.ofNat (fun x => by simp)

deriving instance Encodable for VoteData, QuorumCertificate, SafetyState

/-- A stand-in for the JSON text: the number of the state, written in base 256. -/
def SerdeJson.digits : SerdeJson where
  toVec := fun s => some ((Nat.digits 256 (Encodable.encode s)).map UInt8.ofNat)
  fromSlice := fun bytes => Encodable.decode (Nat.ofDigits 256 (bytes.map UInt8.toNat))

theorem SerdeJson.roundTrips_digits : SerdeJson.digits.RoundTrips := by
  intro s
  refine ⟨_,rfl,?_⟩
  have hdigits : (Nat.digits 256 (Encodable.encode s)).map (UInt8.toNat ∘ UInt8.ofNat) =
      Nat.digits 256 (Encodable.encode s) := by
    refine (List.map_congr_left ?_).trans (List.map_id _)
    intro d hd
    have hlt : d < 256 := Nat.digits_lt_base (by decide) hd
    simp [Nat.mod_eq_of_lt hlt]
  simp only [SerdeJson.digits, List.map_map, hdigits, Nat.ofDigits_digits, Encodable.encodek]

end Digits

/-- A validator that starts on an empty disk, votes at height 5 and gets a
certificate no higher than its lock recovers at every point. -/
theorem recovers_voting :
    (final (Process.step .integers .digits)
      (.start .integers .digits (fun _ => none) 1 7 ⟨"data","safety",some "json"⟩)
      [.vote ⟨1,5,0,0⟩ ⟨⟨0,0,0,0⟩,0,[],[]⟩]).rules.state.highestVoteRound = 5 ∧
    ∀ pre, pre <+: [Call.vote ⟨1,5,0,0⟩ ⟨⟨0,0,0,0⟩,0,[],[]⟩,
        .updateLockedQc ⟨⟨0,0,0,0⟩,0,[],[]⟩] →
      Recovers .integers .digits 1 7 ⟨"data","safety",some "json"⟩
        (final (Process.step .integers .digits)
          (.start .integers .digits (fun _ => none) 1 7 ⟨"data","safety",some "json"⟩) pre) := by
  refine ⟨rfl,?_⟩
  apply (recovers_iff_neverMovesUnsaved SerdeJson.roundTrips_digits (fun _ => none) _).mpr
  intro e he hmoves
  rcases List.mem_cons.mp he with rfl | he
  · exact hmoves
  · cases List.mem_singleton.mp he
    exact absurd hmoves (by unfold MovesUnsaved; decide)

/-- It locks on a certificate for height 5 and restarts: below the lock it now votes. -/
theorem recovery_loses_lock : ¬ ∀ pre, pre <+: [Call.updateLockedQc ⟨⟨1,5,0,0⟩,0,[],[]⟩] →
    Recovers .integers .digits 1 7 ⟨"data","safety",some "json"⟩
      (final (Process.step .integers .digits)
        (.start .integers .digits (fun _ => none) 1 7 ⟨"data","safety",some "json"⟩) pre) := by
  intro h
  obtain ⟨-,hrefused⟩ := h _ (List.prefix_refl _)
  obtain ⟨e,he⟩ := hrefused ⟨2,6,0,0⟩ ⟨⟨0,0,0,0⟩,0,[],[]⟩ ⟨_,rfl⟩
  cases he

end ZbxChain.SafetyRules
