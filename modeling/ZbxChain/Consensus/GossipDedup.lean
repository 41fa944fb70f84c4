import Mathlib.Data.List.GetD
import ZbxChain.Consensus.Gossip

/-! # Which messages the gossip engine swallows -/
namespace ZbxChain

namespace GossipMessage

def SameKey (m m' : GossipMessage) : Prop :=
  m.priority = m'.priority ∧ m.round = m'.round ∧ m.keySender = m'.keySender

instance (m m' : GossipMessage) : Decidable (SameKey m m') := inferInstanceAs (Decidable (_ ∧ _ ∧ _))

theorem toByte_inj {p p' : GossipPriority} (h : p.toByte = p'.toByte) : p = p' := by
  cases p <;> cases p' <;> first | rfl | exact absurd h (by decide)

theorem keySender_isSome {m m' : GossipMessage} (h : m.priority = m'.priority) :
    m.keySender.isSome = m'.keySender.isSome := by
  cases m <;> cases m' <;> first | rfl | cases h

theorem dedupKey_eq_iff {m m' : GossipMessage} : m.dedupKey = m'.dedupKey ↔ SameKey m m' := by
  constructor
  · intro h
    obtain ⟨hkind,hrest⟩ := List.cons.inj h
    have hpriority := toByte_inj hkind
    rw [List.append_assoc, List.append_assoc] at hrest
    obtain ⟨hround,hrest⟩ := Bytes.bytesBE_append_inj hrest
    obtain ⟨-,hsender⟩ := List.append_inj hrest rfl
    refine ⟨hpriority,Bytes.bytesBE_uint64_inj hround,?_⟩
    have hsome := keySender_isSome hpriority
    cases ha : m.keySender with
    | none =>
      cases hb : m'.keySender with
      | none => rfl
      | some b =>
        rw [ha, hb] at hsome
        cases hsome
    | some a =>
      cases hb : m'.keySender with
      | none =>
        rw [ha, hb] at hsome
        cases hsome
      | some b =>
        rw [ha, hb] at hsender
        exact congrArg some (Bytes.bytesBE_bitVec_inj (k := 20) hsender)
  · rintro ⟨hpriority,hround,hsender⟩
    unfold dedupKey
    rw [hpriority, hround, hsender]

end GossipMessage

namespace GossipEngine

inductive Call where
  | setRound (round : UInt64)
  | updateValidators (validators : List Address)
  | onInbound (sender : Address) (msg : GossipMessage) (nowSecs : UInt64)
  | broadcast (msg : GossipMessage)

def step (g : GossipEngine) : Call → GossipEngine × Except GossipError (Option Envelope)
  | .setRound round => (g.setRound round,.ok none)
  | .updateValidators validators => (g.updateValidators validators,.ok none)
  | .onInbound sender msg nowSecs => g.onInbound sender msg nowSecs
  | .broadcast msg => ((g.broadcast msg).1,.ok (some (g.broadcast msg).2))

def handled (calls : List Call) : List GossipMessage :=
  calls.flatMap (fun call => match call with
    | .onInbound _ msg _ => [msg]
    | .broadcast msg => [msg]
    | .setRound _ => []
    | .updateValidators _ => [])

/-- A message that comes in within the rate limit of its sender and the expiry window. -/
def Timely (g : GossipEngine) : Call → Prop
  | .onInbound sender msg nowSecs =>
    ((g.limiter sender).checkAndRecord nowSecs).2 = true ∧ g.expired msg = false
  | .setRound _ => True
  | .updateValidators _ => True
  | .broadcast _ => True

instance (g : GossipEngine) (call : Call) : Decidable (Timely g call) :=
  match call with
  | .onInbound _ _ _ => inferInstanceAs (Decidable (_ ∧ _))
  | .setRound _ => isTrue trivial
  | .updateValidators _ => isTrue trivial
  | .broadcast _ => isTrue trivial

/-- The window of the source is 10 rounds as long as the sum does not wrap. -/
theorem timely_onInbound_iff {g : GossipEngine} {sender : Address} {msg : GossipMessage} {nowSecs : UInt64}
    (hround : msg.round.toNat + 10 < 2 ^ 64) : Timely g (.onInbound sender msg nowSecs) ↔
      ((g.limiter sender).checkAndRecord nowSecs).2 = true ∧ g.currentRound.toNat ≤ msg.round.toNat + 10 := by
  have hsum : (msg.round + EXPIRY_ROUNDS).toNat = msg.round.toNat + 10 := by
    rw [UInt64.toNat_add]
    exact Nat.mod_eq_of_lt hround
  have hwindow : g.expired msg = false ↔ g.currentRound.toNat ≤ msg.round.toNat + 10 := by
    rw [expired, decide_eq_false_iff_not, UInt64.not_lt, UInt64.le_iff_toNat_le, hsum]
  exact and_congr_right fun _ => hwindow

/-- A message that differs from all earlier ones is forwarded, and no other. -/
def Faithful (earlier : List GossipMessage) (msg : GossipMessage)
    (answer : Except GossipError (Option Envelope)) : Prop :=
  (msg ∉ earlier → ∃ envelope, answer = .ok (some envelope) ∧ envelope.message = msg ∧
      envelope.recipients ≠ []) ∧
    (msg ∈ earlier → answer = .ok none)

section Peers

variable {g : GossipEngine} {exclude : Address}

theorem shuffle_perm (i : ℕ) (lcg : UInt64) (indices : Array ℕ) :
    (shuffle i lcg indices).Perm indices := by
  induction i generalizing lcg indices with
  | zero => exact Array.Perm.refl _
  | succ i ih =>
    refine (ih _ _).trans ?_
    unfold Array.swapIfInBounds
    split
    · split
      · exact Array.swap_perm _ _
      · exact Array.Perm.refl _
    · exact Array.Perm.refl _

theorem length_selectPeers :
    (g.selectPeers exclude).length = min g.fanOut (g.candidates exclude).length := by
  unfold selectPeers
  dsimp only
  rw [List.length_map, List.length_take, Array.length_toList, (shuffle_perm _ _ _).size_eq,
    Array.size_range]

theorem fanOut_pos_iff {n : ℕ} : 0 < squareRootFanOut n ↔ 2 ≤ n := by
  unfold squareRootFanOut MIN_FANOUT
  dsimp only
  rw [lt_min_iff]
  constructor
  · rintro ⟨-,hn⟩
    omega
  · intro hn
    exact ⟨lt_max_of_lt_right (by decide),by omega⟩

theorem selectPeers_ne_nil_iff (exclude : Address) (hfan : g.fanOut = squareRootFanOut g.validators.length) :
    g.selectPeers exclude ≠ [] ↔
      2 ≤ g.validators.length ∧ ∃ v ∈ g.validators, v ≠ g.selfAddr ∧ v ≠ exclude := by
  rw [← List.length_pos_iff, length_selectPeers, lt_min_iff, hfan, fanOut_pos_iff,
    List.length_pos_iff_exists_mem]
  simp [candidates]

end Peers

open Machine

/-- The invariant of a run that does not fill the memory of seen messages. -/
structure Remembers (g : GossipEngine) (me : Address) (earlier : List GossipMessage) : Prop where
  seenSet : ∀ key, key ∈ g.seenSet ↔ ∃ m ∈ earlier, m.dedupKey = key
  room : g.seen.length ≤ earlier.length
  fan : g.fanOut = squareRootFanOut g.validators.length
  self_eq : g.selfAddr = me

variable {g : GossipEngine} {me : Address} {earlier : List GossipMessage} {msg : GossipMessage}

theorem remembers_new (me : Address) (validators : List Address) :
    Remembers (new me validators) me [] :=
  ⟨by simp [new],le_refl _,rfl,rfl⟩

theorem validators_insertSeen {key : List UInt8} :
    (g.insertSeen key).validators = g.validators := by
  unfold insertSeen
  dsimp only
  split
  · split
    · rfl
    · rfl
  · rfl

theorem remembers_insertSeen (msg : GossipMessage) (h : Remembers g me earlier)
    (hroom : earlier.length < SEEN_CAPACITY) :
    Remembers (g.insertSeen msg.dedupKey) me (earlier ++ [msg]) := by
  have hnot : ¬ SEEN_CAPACITY ≤ g.seen.length := Nat.not_le.mpr (lt_of_le_of_lt h.room hroom)
  have heq : g.insertSeen msg.dedupKey =
      { g with seen := g.seen ++ [msg.dedupKey], seenSet := insert msg.dedupKey g.seenSet } := by
    unfold insertSeen
    rw [if_neg hnot]
  rw [heq]
  refine ⟨?_,?_,h.fan,h.self_eq⟩
  · intro key
    simp only [Finset.mem_insert, h.seenSet, List.mem_append, List.mem_singleton]
    constructor
    · rintro (rfl | ⟨m,hm,hkey⟩)
      · exact ⟨msg,Or.inr rfl,rfl⟩
      · exact ⟨m,Or.inl hm,hkey⟩
    · rintro ⟨m,hm | rfl,hkey⟩
      · exact Or.inr ⟨m,hm,hkey⟩
      · exact Or.inl hkey.symm
  · rw [List.length_append, List.length_append]
    exact Nat.add_le_add_right h.room 1

theorem handled_append (calls : List Call) (call : Call) :
    handled (calls ++ [call]) = handled calls ++ handled [call] := List.flatMap_append

def limited (g : GossipEngine) (sender : Address) (nowSecs : UInt64) : GossipEngine :=
  { g with rateLimiters := g.rateLimiters.insert sender ((g.limiter sender).checkAndRecord nowSecs).1 }

theorem remembers_limited (sender : Address) (nowSecs : UInt64) (h : Remembers g me earlier) :
    Remembers (g.limited sender nowSecs) me earlier := ⟨h.seenSet,h.room,h.fan,h.self_eq⟩

theorem onInbound_timely {sender : Address} {nowSecs : UInt64}
    (htimely : Timely g (.onInbound sender msg nowSecs)) :
    g.onInbound sender msg nowSecs =
      if msg.dedupKey ∈ g.seenSet then (g.limited sender nowSecs,.ok none)
      else
        let g' := (g.limited sender nowSecs).insertSeen msg.dedupKey
        if (g'.selectPeers sender).isEmpty then (g',.ok none)
        else (g',.ok (some ⟨msg,g'.selectPeers sender⟩)) := by
  obtain ⟨hallowed,hexpired⟩ := htimely
  have hexpired' : (g.limited sender nowSecs).expired msg = false := hexpired
  unfold onInbound
  dsimp only
  rw [if_neg (not_not.mpr hallowed)]
  change (if (g.limited sender nowSecs).expired msg = true then _ else _) = _
  rw [hexpired', if_neg Bool.false_ne_true]
  rfl

theorem remembers_known (h : Remembers g me earlier) (hknown : msg.dedupKey ∈ g.seenSet) :
    Remembers g me (earlier ++ [msg]) := by
  refine ⟨?_,?_,h.fan,h.self_eq⟩
  · intro key
    rw [h.seenSet]
    constructor
    · rintro ⟨m,hm,hkey⟩
      exact ⟨m,List.mem_append_left _ hm,hkey⟩
    · rintro ⟨m,hm,hkey⟩
      rcases List.mem_append.mp hm with hm | hm
      · exact ⟨m,hm,hkey⟩
      · rw [List.mem_singleton.mp hm] at hkey
        rw [← hkey]
        exact (h.seenSet _).mp hknown
  · rw [List.length_append]
    exact Nat.le_add_right_of_le h.room

theorem remembers_onInbound {sender : Address} {nowSecs : UInt64} (h : Remembers g me earlier)
    (htimely : Timely g (.onInbound sender msg nowSecs)) (hroom : earlier.length < SEEN_CAPACITY) :
    Remembers (g.onInbound sender msg nowSecs).1 me (earlier ++ [msg]) := by
  have hlimited := remembers_limited sender nowSecs h
  rw [onInbound_timely htimely]
  by_cases hknown : msg.dedupKey ∈ g.seenSet
  · rw [if_pos hknown]
    exact remembers_known hlimited hknown
  · have hinserted := remembers_insertSeen msg hlimited hroom
    rw [if_neg hknown]
    dsimp only
    split
    · exact hinserted
    · exact hinserted

theorem remembers_step {call : Call} (h : Remembers g me earlier) (htimely : Timely g call)
    (hroom : (earlier ++ handled [call]).length ≤ SEEN_CAPACITY) :
    Remembers (step g call).1 me (earlier ++ handled [call]) := by
  rw [List.length_append] at hroom
  cases call with
  | setRound round =>
    rw [show handled [.setRound round] = [] from rfl, List.append_nil]
    exact ⟨h.seenSet,h.room,h.fan,h.self_eq⟩
  | updateValidators validators =>
    rw [show handled [.updateValidators validators] = [] from rfl, List.append_nil]
    exact ⟨h.seenSet,h.room,rfl,h.self_eq⟩
  | onInbound sender msg nowSecs => exact remembers_onInbound h htimely hroom
  | broadcast msg => exact remembers_insertSeen msg h hroom

theorem remembers_run (me : Address) (validators : List Address) {calls : List Call}
    (hroom : (handled calls).length ≤ SEEN_CAPACITY)
    (htimely : ∀ e ∈ history step (new me validators) calls, Timely e.before e.call) :
    Remembers (final step (new me validators) calls) me (handled calls) := by
  induction calls using List.reverseRecOn with
  | nil => exact remembers_new me validators
  | append_singleton calls call ih =>
    rw [history_append] at htimely
    rw [handled_append] at hroom
    have hfew : (handled calls).length ≤ SEEN_CAPACITY := by
      rw [List.length_append] at hroom
      exact Nat.le_of_add_right_le hroom
    have hbefore := ih hfew (fun e he => htimely e (List.mem_append_left _ he))
    have hcall : Timely (final step (new me validators) calls) call :=
      htimely ⟨final step (new me validators) calls,call,_⟩
        (List.mem_append_right _ (List.mem_singleton_self _))
    rw [final_append, handled_append]
    exact remembers_step hbefore hcall hroom

/-- After every run that does not fill the memory, a timely message is dealt with as it should
be exactly when the key of a new message is new, and there is a validator to send it to besides
the sender and a second one in the set. -/
theorem onInbound_faithful_iff (me : Address) (validators : List Address) {calls : List Call}
    (hroom : (handled calls).length < SEEN_CAPACITY) {sender : Address} {msg : GossipMessage}
    {nowSecs : UInt64}
    (htimely : ∀ e ∈ history step (new me validators) (calls ++ [.onInbound sender msg nowSecs]),
      Timely e.before e.call) :
    Faithful (handled calls) msg
        ((final step (new me validators) calls).onInbound sender msg nowSecs).2 ↔
      (msg ∉ handled calls →
        (∀ m ∈ handled calls, ¬ m.SameKey msg) ∧
          2 ≤ (final step (new me validators) calls).validators.length ∧
          ∃ v ∈ (final step (new me validators) calls).validators, v ≠ me ∧ v ≠ sender) := by
  rw [history_append] at htimely
  have hinv := remembers_run me validators hroom.le
    (fun e he => htimely e (List.mem_append_left _ he))
  have hlast : Timely (final step (new me validators) calls) (.onInbound sender msg nowSecs) :=
    htimely ⟨final step (new me validators) calls,.onInbound sender msg nowSecs,_⟩
      (List.mem_append_right _ (List.mem_singleton_self _))
  obtain ⟨g,hg⟩ : ∃ g, g = final step (new me validators) calls := ⟨_,rfl⟩
  rw [← hg] at hinv hlast ⊢
  rw [onInbound_timely hlast]
  by_cases hknown : msg.dedupKey ∈ g.seenSet
  · rw [if_pos hknown]
    obtain ⟨m,hm,hkey⟩ := (hinv.seenSet _).mp hknown
    constructor
    · rintro ⟨hnew,-⟩ hfresh
      obtain ⟨envelope,hsome,-⟩ := hnew hfresh
      cases hsome
    · intro hcond
      refine ⟨?_,fun _ => rfl⟩
      intro hfresh
      exact absurd (GossipMessage.dedupKey_eq_iff.mp hkey) ((hcond hfresh).1 m hm)
  · have hfresh : msg ∉ handled calls := fun hmem => hknown ((hinv.seenSet _).mpr ⟨msg,hmem,rfl⟩)
    have hkeys : ∀ m ∈ handled calls, ¬ m.SameKey msg := by
      intro m hm hsame
      exact hknown ((hinv.seenSet _).mpr ⟨m,hm,GossipMessage.dedupKey_eq_iff.mpr hsame⟩)
    have hinserted := remembers_insertSeen msg (remembers_limited sender nowSecs hinv) hroom
    have hpeers := selectPeers_ne_nil_iff sender hinserted.fan
    rw [validators_insertSeen, hinserted.self_eq] at hpeers
    rw [if_neg hknown]
    dsimp only
    generalize (g.limited sender nowSecs).insertSeen msg.dedupKey = g' at hpeers ⊢
    by_cases hnone : g'.selectPeers sender = []
    · have hempty : (g'.selectPeers sender).isEmpty = true := List.isEmpty_iff.mpr hnone
      rw [if_pos hempty]
      constructor
      · rintro ⟨hnew,-⟩
        obtain ⟨envelope,hsome,-⟩ := hnew hfresh
        cases hsome
      · intro hcond
        exact absurd hnone (hpeers.mpr (hcond hfresh).2)
    · have hsome : ¬ (g'.selectPeers sender).isEmpty = true := by
        rwa [List.isEmpty_iff]
      rw [if_neg hsome]
      refine iff_of_true ⟨fun _ => ⟨_,rfl,rfl,hnone⟩,fun hmem => absurd hmem hfresh⟩ ?_
      intro _
      exact ⟨hkeys,hpeers.mp hnone⟩

section Votes

def demoVote (round : UInt64) (phase : UInt8) : GossipMessage :=
  .vote ⟨⟨7,round,phase,0⟩,2,0⟩

/-- A vote of the next round is forwarded. -/
theorem next_round_forwarded :
    Faithful [demoVote 5 0] (demoVote 6 0)
      ((final step (new 1 [1,2,3,4]) [.onInbound 2 (demoVote 5 0) 9]).onInbound 2
        (demoVote 6 0) 9).2 := by
  have hroom : (handled [.onInbound 2 (demoVote 5 0) 9]).length < SEEN_CAPACITY := by decide
  refine (onInbound_faithful_iff 1 [1,2,3,4] hroom ?_).mpr ?_
  · decide +kernel
  · intro _
    exact ⟨by decide,by decide +kernel,3,by decide +kernel⟩

/-- The vote of the next phase is taken for the one already seen. -/
theorem next_phase_swallowed :
    ¬ ∀ (me : Address) (validators : List Address) (calls : List Call) (sender : Address)
      (msg : GossipMessage) (nowSecs : UInt64),
      (∃ v ∈ validators, v ≠ me) →
      (calls ++ [Call.onInbound sender msg nowSecs]).length < SEEN_CAPACITY →
      (∀ e ∈ history step (new me validators) (calls ++ [.onInbound sender msg nowSecs]),
        Timely e.before e.call) →
      Faithful (handled calls) msg
        ((final step (new me validators) calls).onInbound sender msg nowSecs).2 := by
  intro hclaim
  obtain ⟨hnew,-⟩ := hclaim 1 [1,2,3,4] [.onInbound 2 (demoVote 5 0) 9] 2 (demoVote 5 1) 9
    ⟨2,by decide,by decide⟩ (by decide) (by decide +kernel)
  obtain ⟨envelope,hsome,-⟩ := hnew (by decide)
  have htimely : Timely (final step (new 1 [1,2,3,4]) [Call.onInbound 2 (demoVote 5 0) 9])
      (.onInbound 2 (demoVote 5 1) 9) := by
    decide +kernel
  have hknown : (demoVote 5 1).dedupKey ∈
      (final step (new 1 [1,2,3,4]) [Call.onInbound 2 (demoVote 5 0) 9]).seenSet := by
    decide +kernel
  rw [onInbound_timely htimely, if_pos hknown] at hsome
  cases hsome

end Votes

end GossipEngine

end ZbxChain
