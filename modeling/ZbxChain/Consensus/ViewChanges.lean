import ZbxChain.Consensus.Coordinator

/-! # The view changes of a coordinator over a whole run

A certificate leaves the accumulator it came from in place and takes away those of the
rounds before. What a run announces is therefore told by the accumulators that were full
at some time: a round is announced again when a share arrives beyond its quorum, and when
an accumulator that was taken away is filled a second time.
-/
namespace ZbxChain.Coordinator
open Machine

inductive Call where
  | onQc (qc : QuorumCertificate) (now : ℕ)
  | onTimeoutShare (share : TimeoutShare) (now : ℕ)
  | tick (now : ℕ)

abbrev Answer := Except ConsensusError CoordinatorEvent

def step (P : Platform) (c : PacemakerCoordinator) : Call → PacemakerCoordinator × Answer
  | .onQc qc now => ((c.onQc qc now).1,.ok (c.onQc qc now).2)
  | .onTimeoutShare share now => c.onTimeoutShare P share now
  | .tick now => (c,.ok (c.tick P now))

def announced (e : Entry PacemakerCoordinator Call Answer) : Option UInt64 :=
  match e.output with
  | .ok (.newTc tc) => some tc.round
  | _ => none

namespace PacemakerCoordinator

def Full (c : PacemakerCoordinator) (round : UInt64) : Prop :=
  c.quorum ≤ (c.accumulator round).shares.len

/-- The share is counted, and with it the accumulator of its round holds a quorum. -/
def Completes (P : Platform) (c : PacemakerCoordinator) (share : TimeoutShare) : Prop :=
  share.data.epoch = c.epoch ∧
    (c.accumulator share.data.round).shares.lookup share.validator = none ∧
    P.verifySingle share.signature share.blsPubkey (share.data.signingHash P) = true ∧
    c.quorum ≤ (c.accumulator share.data.round).shares.len + 1

/-- What every coordinator keeps: each accumulator stands under its own round and has the
coordinator's epoch and quorum, and the delta is between its bounds. -/
structure Sound (c : PacemakerCoordinator) : Prop where
  keyed : ∀ round acc, c.tcAccumulators.lookup round = some acc →
    acc.round = round ∧ acc.epoch = c.epoch ∧ acc.quorum = c.quorum
  quorum_pos : 0 < c.quorum
  deltaMin : c.deltaMinMs = 500
  deltaMax : c.deltaMaxMs = 30000
  delta_ge : 500 ≤ c.deltaMs.toNat
  delta_le : c.deltaMs.toNat ≤ 30000

variable {P : Platform} {c : PacemakerCoordinator} {round : UInt64}

theorem sound_new (selfAddr : Address) (blsKey : BlsPrivKey) (n epoch : UInt64)
    (config : PacemakerConfig) (now : ℕ) :
    (new P selfAddr blsKey n round epoch config now).Sound where
  keyed := by simp [new]
  quorum_pos := by
    have hthird : ((n - 1) / 3).toNat = (n - 1).toNat / 3 := by simp [UInt64.toNat_div]
    have hlt := (n - 1).toNat_lt
    simp only [new, UInt64.toNat_add, UInt64.toNat_mul, hthird, UInt64.reduceToNat]
    omega
  deltaMin := rfl
  deltaMax := rfl
  delta_ge := by simp [new]
  delta_le := by simp [new]

theorem not_full_new (selfAddr : Address) (blsKey : BlsPrivKey) (n epoch : UInt64)
    (config : PacemakerConfig) (now : ℕ) (round' : UInt64) :
    ¬ (new P selfAddr blsKey n round epoch config now).Full round' := by
  have hsound : (new P selfAddr blsKey n round epoch config now).Sound :=
    sound_new selfAddr blsKey n epoch config now
  have hpos := hsound.quorum_pos
  have hempty : ((new P selfAddr blsKey n round epoch config now).accumulator round').shares.len = 0 := rfl
  unfold Full
  omega

theorem Sound.accumulator (h : c.Sound) (round : UInt64) :
    (c.accumulator round).round = round ∧ (c.accumulator round).epoch = c.epoch ∧
      (c.accumulator round).quorum = c.quorum := by
  unfold PacemakerCoordinator.accumulator
  cases hacc : c.tcAccumulators.lookup round with
  | none => exact ⟨rfl,rfl,rfl⟩
  | some acc => exact h.keyed round acc hacc

theorem advanceToRound_eq (c : PacemakerCoordinator) (round : UInt64) (now : ℕ) :
    ∃ next inner startedAt, c.currentRound ≤ next ∧ c.advanceToRound round now =
      { c with currentRound := next, inner := inner, startedAt := startedAt } := by
  unfold advanceToRound
  split
  · rename_i hlt
    exact ⟨round,_,now,UInt64.le_of_lt hlt,rfl⟩
  · exact ⟨c.currentRound,c.inner,c.startedAt,UInt64.le_refl _,rfl⟩

theorem Sound.shrunk (h : c.Sound) : ∃ delta, c.adaptDelta true = { c with deltaMs := delta } ∧
    500 ≤ delta.toNat ∧ delta ≤ c.deltaMs := by
  have hge := h.delta_ge
  have hle := h.delta_le
  have hfits : c.deltaMs.toNat * 7 % 2 ^ 64 = c.deltaMs.toNat * 7 := Nat.mod_eq_of_lt (by omega)
  refine ⟨_,rfl,?_⟩
  rw [UInt64.le_iff_toNat_le, h.deltaMin, toNat_max64, UInt64.toNat_div, UInt64.toNat_mul]
  simp only [UInt64.reduceToNat, hfits]
  omega

theorem Sound.grown (h : c.Sound) : ∃ delta, c.adaptDelta false = { c with deltaMs := delta } ∧
    500 ≤ delta.toNat ∧ delta.toNat ≤ 30000 := by
  have hge := h.delta_ge
  have hle := h.delta_le
  have hfits : min (c.deltaMs.toNat * 3) (2 ^ 64 - 1) % 2 ^ 64 = c.deltaMs.toNat * 3 := by omega
  refine ⟨_,rfl,?_⟩
  rw [h.deltaMax, toNat_min64, UInt64.toNat_div]
  simp only [UInt64.reduceToNat, UInt64.toNat_ofNat', hfits]
  omega

theorem accumulator_insert (acc : TcAccumulator) (round' : UInt64) :
    accumulator { c with tcAccumulators := c.tcAccumulators.insert round acc } round' =
      if round' = round then acc else c.accumulator round' := by
  unfold accumulator
  by_cases hround : round' = round
  · subst hround
    simp
  · simp [hround, AList.lookup_insert_ne hround]

theorem accumulator_retain (round round' : UInt64) :
    accumulator { c with tcAccumulators := c.tcAccumulators.retain (fun r _ => decide (round ≤ r)) } round' =
      if round ≤ round' then c.accumulator round' else .new round' c.epoch c.quorum := by
  unfold accumulator
  cases hkept : (c.tcAccumulators.retain (fun r _ => decide (round ≤ r))).lookup round' with
  | some acc =>
    obtain ⟨hacc,hle⟩ := AList.lookup_retain.mp hkept
    simp [of_decide_eq_true hle, hacc]
  | none =>
    split
    · rename_i hle
      cases hacc : c.tcAccumulators.lookup round' with
      | none => rfl
      | some acc =>
        have hthere := AList.lookup_retain (p := fun r _ => decide (round ≤ r)).mpr
          ⟨hacc,decide_eq_true hle⟩
        simp [hkept] at hthere
    · rfl

theorem insert_cases {acc : TcAccumulator} {share : TimeoutShare} (hround : acc.round = share.data.round)
    (hepoch : acc.epoch = share.data.epoch) :
    (acc.insert P share).1.round = acc.round ∧ (acc.insert P share).1.epoch = acc.epoch ∧
      (acc.insert P share).1.quorum = acc.quorum ∧
      (((acc.insert P share).2 = none ∧
          (acc.quorum ≤ (acc.insert P share).1.shares.len ↔ acc.quorum ≤ acc.shares.len) ∧
          ¬ (acc.shares.lookup share.validator = none ∧
            P.verifySingle share.signature share.blsPubkey (share.data.signingHash P) = true ∧
            acc.quorum ≤ acc.shares.len + 1)) ∨
        ∃ tc, (acc.insert P share).2 = some tc ∧ tc.round = acc.round ∧
          acc.quorum ≤ (acc.insert P share).1.shares.len ∧
          acc.shares.lookup share.validator = none ∧
          P.verifySingle share.signature share.blsPubkey (share.data.signingHash P) = true ∧
          acc.quorum ≤ acc.shares.len + 1) := by
  unfold TcAccumulator.insert
  rw [if_neg (by simp [hround, hepoch])]
  cases hlook : acc.shares.lookup share.validator with
  | some old => exact ⟨rfl,rfl,rfl,Or.inl ⟨rfl,Iff.rfl,by simp⟩⟩
  | none =>
    have hlen : (acc.shares.insert share.validator share).len = acc.shares.len + 1 := AList.len_insert hlook
    by_cases hsig : P.verifySingle share.signature share.blsPubkey (share.data.signingHash P) = true
    · simp only [Option.isSome_none, Bool.false_eq_true, if_false, hsig, not_true, hlen]
      split
      · refine ⟨rfl,rfl,rfl,Or.inl ⟨rfl,?_,by omega⟩⟩
        simp only [hlen]
        omega
      · refine ⟨rfl,rfl,rfl,Or.inr ⟨_,rfl,rfl,?_,trivial,trivial,by omega⟩⟩
        simp only [hlen]
        omega
    · simp [hsig]

theorem Sound.adaptDelta (h : c.Sound) (success : Bool) : (c.adaptDelta success).Sound := by
  have hgrown := h.grown
  have hshrunk := h.shrunk
  have hle := h.delta_le
  cases success with
  | true =>
    obtain ⟨delta,heq,hge,hdelta⟩ := hshrunk
    rw [heq]
    rw [UInt64.le_iff_toNat_le] at hdelta
    exact ⟨h.keyed,h.quorum_pos,h.deltaMin,h.deltaMax,hge,hdelta.trans hle⟩
  | false =>
    obtain ⟨delta,heq,hge,hdelta⟩ := hgrown
    rw [heq]
    exact ⟨h.keyed,h.quorum_pos,h.deltaMin,h.deltaMax,hge,hdelta⟩

theorem Sound.advanceToRound (h : c.Sound) (round : UInt64) (now : ℕ) :
    (c.advanceToRound round now).Sound := by
  obtain ⟨next,inner,startedAt,-,heq⟩ := advanceToRound_eq c round now
  rw [heq]
  exact ⟨h.keyed,h.quorum_pos,h.deltaMin,h.deltaMax,h.delta_ge,h.delta_le⟩

theorem Sound.insert (h : c.Sound) {acc : TcAccumulator} (hacc : acc.round = round ∧ acc.epoch = c.epoch ∧
    acc.quorum = c.quorum) : Sound { c with tcAccumulators := c.tcAccumulators.insert round acc } where
  keyed := by
    intro round' acc' hlook
    rcases AList.lookup_insert_some hlook with ⟨rfl,rfl⟩ | ⟨-,hold⟩
    · exact hacc
    · exact h.keyed round' acc' hold
  quorum_pos := h.quorum_pos
  deltaMin := h.deltaMin
  deltaMax := h.deltaMax
  delta_ge := h.delta_ge
  delta_le := h.delta_le

theorem Sound.retain (h : c.Sound) (p : UInt64 → TcAccumulator → Bool) :
    Sound { c with tcAccumulators := c.tcAccumulators.retain p } where
  keyed := fun round acc hlook => h.keyed round acc (AList.lookup_retain.mp hlook).1
  quorum_pos := h.quorum_pos
  deltaMin := h.deltaMin
  deltaMax := h.deltaMax
  delta_ge := h.delta_ge
  delta_le := h.delta_le

/-- A call that returns no certificate: the same accumulators stay full, the delta does not grow. -/
structure Quiet (c c' : PacemakerCoordinator) : Prop where
  full_iff : ∀ round, c'.Full round ↔ c.Full round
  round_le : c.currentRound ≤ c'.currentRound
  delta_le : c'.deltaMs ≤ c.deltaMs

theorem quiet_onQc (h : c.Sound) (qc : QuorumCertificate) (now : ℕ) :
    (c.onQc qc now).1.Sound ∧ Quiet c (c.onQc qc now).1 := by
  unfold onQc
  dsimp only
  split
  · have hbase : Sound { c with highQcRound := max c.highQcRound qc.blockNumber } :=
      ⟨h.keyed,h.quorum_pos,h.deltaMin,h.deltaMax,h.delta_ge,h.delta_le⟩
    have hmoved := hbase.advanceToRound (qc.blockNumber + 1) now
    obtain ⟨next,inner,startedAt,hle,heq⟩ :=
      advanceToRound_eq { c with highQcRound := max c.highQcRound qc.blockNumber } (qc.blockNumber + 1) now
    obtain ⟨delta,hdelta,-,hshrunk⟩ := hmoved.shrunk
    refine ⟨hmoved.adaptDelta true,?_⟩
    rw [hdelta, heq]
    rw [heq] at hshrunk
    exact ⟨fun _ => Iff.rfl,hle,hshrunk⟩
  · exact ⟨h,fun _ => Iff.rfl,UInt64.le_refl _,UInt64.le_refl _⟩

def counted (P : Platform) (c : PacemakerCoordinator) (share : TimeoutShare) : PacemakerCoordinator :=
  { c with
    tcAccumulators := c.tcAccumulators.insert share.data.round
      ((c.accumulator share.data.round).insert P share).1 }

def cleaned (P : Platform) (c : PacemakerCoordinator) (share : TimeoutShare) : PacemakerCoordinator :=
  { c.counted P share with
    tcAccumulators := (c.counted P share).tcAccumulators.retain (fun r _ => decide (share.data.round ≤ r)) }

variable {share : TimeoutShare}

theorem onTimeoutShare_of_none (hepoch : share.data.epoch = c.epoch)
    (h : ((c.accumulator share.data.round).insert P share).2 = none) (now : ℕ) :
    c.onTimeoutShare P share now = (c.counted P share,.ok .noop) := by
  simp [onTimeoutShare, counted, hepoch, h]

theorem onTimeoutShare_of_some (hepoch : share.data.epoch = c.epoch) {tc : TimeoutCertificate}
    (h : ((c.accumulator share.data.round).insert P share).2 = some tc) (now : ℕ) :
    c.onTimeoutShare P share now =
      (((c.cleaned P share).adaptDelta false).advanceToRound tc.nextRound now,.ok (.newTc tc)) := by
  simp [onTimeoutShare, cleaned, counted, hepoch, h]

theorem full_counted (round : UInt64) : (c.counted P share).Full round ↔
    c.quorum ≤ (if round = share.data.round then ((c.accumulator share.data.round).insert P share).1
      else c.accumulator round).shares.len := by
  rw [Full, counted, accumulator_insert]

theorem Sound.full_cleaned (h : c.Sound) (round : UInt64) : (c.cleaned P share).Full round ↔
    share.data.round ≤ round ∧ (c.counted P share).Full round := by
  have hpos := h.quorum_pos
  have hempty : (TcAccumulator.new round c.epoch c.quorum).shares.len = 0 := rfl
  rw [Full, cleaned, accumulator_retain]
  split
  · rename_i hle
    simp [hle, Full]
  · rename_i hle
    simp only [hle, false_and, iff_false]
    simp only [counted, hempty]
    omega

/-- A share is refused or counted short of the quorum, or completes a certificate of its round. -/
theorem onTimeoutShare_cases (h : c.Sound) (share : TimeoutShare) (now : ℕ) :
    (c.onTimeoutShare P share now).1.Sound ∧
      ((¬ c.Completes P share ∧ Quiet c (c.onTimeoutShare P share now).1 ∧
          ∀ tc, (c.onTimeoutShare P share now).2 ≠ .ok (.newTc tc)) ∨
        (c.Completes P share ∧ c.currentRound ≤ (c.onTimeoutShare P share now).1.currentRound ∧
          (∃ tc, (c.onTimeoutShare P share now).2 = .ok (.newTc tc) ∧ tc.round = share.data.round) ∧
          (c.onTimeoutShare P share now).1.Full share.data.round ∧
          ∀ round, (c.onTimeoutShare P share now).1.Full round → round = share.data.round ∨ c.Full round)) := by
  by_cases hepoch : share.data.epoch = c.epoch
  · obtain ⟨hround,hep,hquorum⟩ := h.accumulator share.data.round
    obtain ⟨hround',hep',hquorum',hcases⟩ :=
      insert_cases (P := P) (hround : (c.accumulator share.data.round).round = share.data.round)
        (hep.trans hepoch.symm)
    have hcounted : (c.counted P share).Sound :=
      h.insert ⟨hround'.trans hround,hep'.trans hep,hquorum'.trans hquorum⟩
    rw [hquorum] at hcases
    rcases hcases with ⟨hnone,hsame,hnot⟩ | ⟨tc,hsome,htc,hfull,hfresh,hsig,hlen⟩
    · rw [onTimeoutShare_of_none hepoch hnone]
      refine ⟨hcounted,Or.inl ⟨fun hc => hnot hc.2,⟨?_,UInt64.le_refl _,UInt64.le_refl _⟩,by simp⟩⟩
      intro round
      rw [full_counted, Full]
      split
      · rename_i hr
        simpa [hr] using hsame
      · exact Iff.rfl
    · rw [onTimeoutShare_of_some hepoch hsome]
      have hcleaned : (c.cleaned P share).Sound := hcounted.retain _
      obtain ⟨delta,hdelta,-,-⟩ := hcleaned.grown
      obtain ⟨next,inner,startedAt,hle,hmoved⟩ :=
        advanceToRound_eq ((c.cleaned P share).adaptDelta false) tc.nextRound now
      have hsameFull : ∀ round, (((c.cleaned P share).adaptDelta false).advanceToRound tc.nextRound now).Full round ↔
          (c.cleaned P share).Full round := by
        intro round
        rw [hmoved, hdelta]
        exact Iff.rfl
      refine ⟨(hcleaned.adaptDelta false).advanceToRound _ _,Or.inr
        ⟨⟨hepoch,hfresh,hsig,hlen⟩,?_,⟨tc,rfl,htc.trans hround⟩,?_,?_⟩⟩
      · rw [hdelta] at hle hmoved
        rw [hdelta, hmoved]
        exact hle
      · rw [hsameFull, h.full_cleaned, full_counted]
        simpa using hfull
      · intro round hr
        rw [hsameFull, h.full_cleaned, full_counted] at hr
        by_cases hsame : round = share.data.round
        · exact Or.inl hsame
        · exact Or.inr (by simpa [hsame, Full] using hr.2)
  · have herr : c.onTimeoutShare P share now = (c,.error (.invalidEpoch c.epoch share.data.epoch)) := by
      simp [onTimeoutShare, hepoch]
    rw [herr]
    exact ⟨h,Or.inl ⟨fun hc => hepoch hc.1,⟨fun _ => Iff.rfl,UInt64.le_refl _,UInt64.le_refl _⟩,by simp⟩⟩

end PacemakerCoordinator

open PacemakerCoordinator

variable {P : Platform} {c : PacemakerCoordinator} {round : UInt64}

theorem step_cases (h : c.Sound) (call : Call) :
    (step P c call).1.Sound ∧
      ((announced ⟨c,call,(step P c call).2⟩ = none ∧ Quiet c (step P c call).1 ∧
          ∀ share now, call = .onTimeoutShare share now → ¬ c.Completes P share) ∨
        ∃ share now, call = .onTimeoutShare share now ∧ c.Completes P share ∧
          announced ⟨c,call,(step P c call).2⟩ = some share.data.round ∧
          c.currentRound ≤ (step P c call).1.currentRound ∧
          (step P c call).1.Full share.data.round ∧
          ∀ round, (step P c call).1.Full round → round = share.data.round ∨ c.Full round) := by
  cases call with
  | onQc qc now =>
    obtain ⟨hsound,hquiet⟩ := quiet_onQc h qc now
    refine ⟨hsound,Or.inl ⟨?_,hquiet,by simp⟩⟩
    by_cases hround : c.currentRound ≤ qc.blockNumber
    · simp [announced, step, onQc, hround]
    · simp [announced, step, onQc, hround]
  | tick now =>
    refine ⟨h,Or.inl ⟨?_,⟨fun _ => Iff.rfl,UInt64.le_refl _,UInt64.le_refl _⟩,by simp⟩⟩
    by_cases hdue : c.isTimedOut now = true
    · simp [announced, step, tick, hdue]
    · simp [announced, step, tick, hdue]
  | onTimeoutShare share now =>
    obtain ⟨hsound,hcases⟩ := onTimeoutShare_cases (P := P) h share now
    refine ⟨hsound,?_⟩
    rcases hcases with ⟨hnot,hquiet,hnone⟩ | ⟨hcompletes,hround,⟨tc,htc,hshare⟩,hfull,honly⟩
    · refine Or.inl ⟨?_,hquiet,?_⟩
      · unfold announced
        split
        · rename_i tc htc
          exact absurd htc (hnone tc)
        · rfl
      · rintro share' now' ⟨⟩
        exact hnot
    · refine Or.inr ⟨share,now,rfl,hcompletes,?_,hround,hfull,honly⟩
      simp [announced, step, htc, hshare]

/-- The rounds announced so far are those whose accumulator was full at some time. -/
structure Told (past : List (Entry PacemakerCoordinator Call Answer)) (c : PacemakerCoordinator) : Prop where
  sound : c.Sound
  announced_iff : ∀ round, round ∈ past.filterMap announced ↔
    (∃ e ∈ past, e.before.Full round) ∨ c.Full round

theorem told_step {past : List (Entry PacemakerCoordinator Call Answer)} (h : Told past c) (call : Call) :
    Told (past ++ [⟨c,call,(step P c call).2⟩]) (step P c call).1 := by
  obtain ⟨hsound,hcases⟩ := step_cases (P := P) h.sound call
  refine ⟨hsound,?_⟩
  intro round
  have hpast := h.announced_iff round
  have hfull : (∃ e ∈ past ++ [⟨c,call,(step P c call).2⟩], e.before.Full round) ↔
      (∃ e ∈ past, e.before.Full round) ∨ c.Full round := by
    simp [or_and_right, exists_or]
  rw [hfull, List.filterMap_append, List.mem_append, hpast]
  rcases hcases with ⟨hnone,hquiet,-⟩ | ⟨share,now,rfl,-,hsome,-,hnow,honly⟩
  · simp [hnone, hquiet.full_iff round]
  · have hlast : round ∈ [(⟨c,.onTimeoutShare share now,(step P c (.onTimeoutShare share now)).2⟩ :
        Entry PacemakerCoordinator Call Answer)].filterMap announced ↔ round = share.data.round := by
      simp [hsome]
    rw [hlast]
    constructor
    · rintro (hbefore | rfl)
      · exact Or.inl hbefore
      · exact Or.inr hnow
    · rintro (hbefore | hafter)
      · exact Or.inl hbefore
      · exact (honly round hafter).elim Or.inr (fun hthen => Or.inl (Or.inr hthen))

/-- One view change for each round: the round never falls, the delta stays between its bounds
and grows only with a certificate, and no two certificates are of one round. -/
structure ViewChangesOnce (P : Platform) (c : PacemakerCoordinator) (calls : List Call) : Prop where
  rounds : ∀ e ∈ history (step P) c calls, e.before.currentRound ≤ (step P e.before e.call).1.currentRound
  delta : ∀ e ∈ history (step P) c calls,
    e.before.deltaMinMs ≤ (step P e.before e.call).1.deltaMs ∧
      (step P e.before e.call).1.deltaMs ≤ e.before.deltaMaxMs
  once : ((history (step P) c calls).filterMap announced).Nodup
  backOff : ∀ e ∈ history (step P) c calls,
    e.before.deltaMs < (step P e.before e.call).1.deltaMs → (announced e).isSome

section Runs
variable (selfAddr : Address) (blsKey : BlsPrivKey) (n start epoch : UInt64) (config : PacemakerConfig)
  (now : ℕ) (calls : List Call)

theorem told_run :
    Told (history (step P) (.new P selfAddr blsKey n start epoch config now) calls)
      (final (step P) (.new P selfAddr blsKey n start epoch config now) calls) := by
  refine trace_invariant (step P) (G := fun _ _ => True) (J := Told)
    ⟨sound_new selfAddr blsKey n epoch config now,?_⟩ (fun _ _ call h _ => told_step h call) calls
    (fun _ _ => trivial)
  intro round
  simpa using not_full_new selfAddr blsKey n epoch config now round

/-- Each round has one view change exactly in the runs in which no share completes a
certificate of a round whose accumulator is full, or was full at any time before. -/
theorem view_changes_once_iff :
    ViewChangesOnce P (.new P selfAddr blsKey n start epoch config now) calls ↔
      ∀ past e rest,
        history (step P) (.new P selfAddr blsKey n start epoch config now) calls = past ++ e :: rest →
        ∀ share t, e.call = .onTimeoutShare share t → e.before.Completes P share →
        ∀ e' ∈ past ++ [e], ¬ e'.before.Full share.data.round := by
  have hcut : ∀ past e rest,
      history (step P) (.new P selfAddr blsKey n start epoch config now) calls = past ++ e :: rest →
      Told past e.before ∧ e = ⟨e.before,e.call,(step P e.before e.call).2⟩ := by
    intro past e rest h
    obtain ⟨xs,rfl,hbefore,hout⟩ := history_cut _ h
    exact ⟨hbefore ▸ told_run selfAddr blsKey n start epoch config now xs,hout ▸ rfl⟩
  have htold : ∀ e ∈ history (step P) (.new P selfAddr blsKey n start epoch config now) calls,
      e.before.Sound ∧ e = ⟨e.before,e.call,(step P e.before e.call).2⟩ := by
    intro e he
    obtain ⟨past,rest,hsplit⟩ := List.append_of_mem he
    exact ⟨(hcut past e rest hsplit).1.sound,(hcut past e rest hsplit).2⟩
  -- whatever the shares, only the certificates can come twice
  have hrest : ViewChangesOnce P (.new P selfAddr blsKey n start epoch config now) calls ↔
      ((history (step P) (.new P selfAddr blsKey n start epoch config now) calls).filterMap
        announced).Nodup := by
    refine ⟨fun h => h.once,fun h => ⟨?_,?_,h,?_⟩⟩
    · intro e he
      obtain ⟨hsound,-⟩ := htold e he
      rcases (step_cases (P := P) hsound e.call).2 with ⟨-,hquiet,-⟩ | ⟨share,t,-,-,-,hle,-⟩
      · exact hquiet.round_le
      · exact hle
    · intro e he
      obtain ⟨hsound,-⟩ := htold e he
      have hnext := (step_cases (P := P) hsound e.call).1
      rw [UInt64.le_iff_toNat_le, UInt64.le_iff_toNat_le, hsound.deltaMin, hsound.deltaMax]
      exact ⟨hnext.delta_ge,hnext.delta_le⟩
    · intro e he hlt
      obtain ⟨hsound,heq⟩ := htold e he
      rw [heq]
      rcases (step_cases (P := P) hsound e.call).2 with ⟨-,hquiet,-⟩ | ⟨share,t,-,-,hsome,-⟩
      · exact absurd hquiet.delta_le (UInt64.not_le.mpr hlt)
      · simp [hsome]
  rw [hrest, nodup_announced_iff]
  constructor
  · rintro honce past e rest hsplit share t hcall hcompletes e' he' hfull
    obtain ⟨hpast,heq⟩ := hcut past e rest hsplit
    have hbefore : (∃ e' ∈ past, e'.before.Full share.data.round) ∨ e.before.Full share.data.round := by
      rcases List.mem_append.mp he' with he' | he'
      · exact Or.inl ⟨e',he',hfull⟩
      · exact Or.inr (List.mem_singleton.mp he' ▸ hfull)
    rcases (step_cases (P := P) hpast.sound e.call).2 with ⟨-,-,hnot⟩ | ⟨share',t',hcall',-,hsome,-⟩
    · exact hnot share t hcall hcompletes
    · obtain ⟨rfl,-⟩ : share = share' ∧ t = t' := by simpa [hcall] using hcall'
      rw [← heq] at hsome
      exact honce past e rest hsplit _ hsome ((hpast.announced_iff _).mpr hbefore)
  · intro hfirst past e rest hsplit round hround hmem
    obtain ⟨hpast,heq⟩ := hcut past e rest hsplit
    rcases (step_cases (P := P) hpast.sound e.call).2 with
      ⟨hnone,-⟩ | ⟨share,t,hcall,hcompletes,hsome,-⟩
    · rw [← heq, hround] at hnone
      cases hnone
    · rw [← heq, hround] at hsome
      obtain rfl := Option.some.inj hsome
      rcases (hpast.announced_iff _).mp hmem with ⟨e',he',hfull⟩ | hfull
      · exact hfirst past e rest hsplit share t hcall hcompletes e' (List.mem_append_left _ he') hfull
      · exact hfirst past e rest hsplit share t hcall hcompletes e (by simp) hfull

end Runs

def demoShare (validator : ℕ) : TimeoutShare :=
  let data : TimeoutShareData := ⟨1,0,0⟩
  ⟨data,validator,Platform.integers.toPubkey validator,
    Platform.integers.sign validator (data.signingHash .integers)⟩

/-- Four validators, all of whom time out in round 1: the share beyond the quorum of three
announces the round a second time. -/
theorem fourth_share_changes_view_again : ¬ ViewChangesOnce .integers
    (.new .integers 1 1 4 1 0 .default 0)
    ([1,2,3,4].map (fun v => .onTimeoutShare (demoShare v) 0)) := by
  intro h
  exact absurd h.once (by decide +kernel)

end ZbxChain.Coordinator
