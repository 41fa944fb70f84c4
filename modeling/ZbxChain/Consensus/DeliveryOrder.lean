import Mathlib.Data.List.Find
import ZbxChain.Consensus.Tally

/-! # Which certificate a sequence of votes leads to

The first vote of a block number and phase that is not filtered out opens the
accumulator, and only votes for that very data are ever counted there. The outcome of
a sequence of deliveries is therefore read off the sequence: `opening` is the vote
that opens the accumulator, `supporters` are the voters counted for some data.
-/
namespace ZbxChain.HotStuffConsensus
open Machine

abbrev Delivery := Vote × BlsPubKey

def deliver (x : Delivery) : Call := .vote x.1 x.2

instance (P : Platform) (cs : HotStuffConsensus) (vote : Vote) (pk : BlsPubKey) :
    Decidable (cs.Authentic P vote pk) := inferInstanceAs (Decidable (_ ∧ _ ∧ _))

variable (P : Platform) (cs : HotStuffConsensus)

/-- The first hash that `a` shows at `key`: the one on record, else that of its first
authentic delivery. -/
def firstHash (xs : List Delivery) (key : UInt64 × UInt8) (a : Address) : Option H256 :=
  ((cs.seenVotes.lookup (key.1,key.2,a)).map Prod.fst).or
    ((xs.find? (fun x => decide (cs.Authentic P x.1 x.2 ∧ voteKey x.1.data = key ∧
      x.1.voter = a))).map (fun x => x.1.data.blockHash))

/-- An authentic vote for the first hash its voter shows. -/
def Unrefused (xs : List Delivery) (x : Delivery) : Prop :=
  cs.Authentic P x.1 x.2 ∧
    cs.firstHash P xs (voteKey x.1.data) x.1.voter = some x.1.data.blockHash

instance (xs : List Delivery) (x : Delivery) : Decidable (cs.Unrefused P xs x) :=
  inferInstanceAs (Decidable (_ ∧ _))

def opening (xs : List Delivery) (key : UInt64 × UInt8) : Option Delivery :=
  xs.find? (fun x => decide (voteKey x.1.data = key ∧ cs.Unrefused P xs x))

def supporters (xs : List Delivery) (data : VoteData) : Finset Address :=
  ((xs.filter (fun x => decide (x.1.data = data ∧ cs.Unrefused P xs x))).map
    (fun x => x.1.voter)).toFinset

variable {P cs} {xs : List Delivery} {x y : Delivery} {key : UInt64 × UInt8} {a : Address}
  {data : VoteData} {s : HotStuffConsensus}

theorem firstHash_append : cs.firstHash P (xs ++ [x]) key a = (cs.firstHash P xs key a).or
    (if cs.Authentic P x.1 x.2 ∧ voteKey x.1.data = key ∧ x.1.voter = a
      then some x.1.data.blockHash else none) := by
  unfold firstHash
  rw [List.find?_append, Option.map_or, Option.or_assoc, List.find?_singleton]
  by_cases h : cs.Authentic P x.1 x.2 ∧ voteKey x.1.data = key ∧ x.1.voter = a
  · simp [h]
  · simp [h]

theorem unrefused_append_old (hy : y ∈ xs) :
    cs.Unrefused P (xs ++ [x]) y ↔ cs.Unrefused P xs y := by
  unfold Unrefused
  refine and_congr_right ?_
  intro hauth
  have hshown : (cs.firstHash P xs (voteKey y.1.data) y.1.voter).isSome = true := by
    have hfound : (xs.find? (fun z => decide (cs.Authentic P z.1 z.2 ∧
        voteKey z.1.data = voteKey y.1.data ∧ z.1.voter = y.1.voter))).isSome = true :=
      List.find?_isSome.mpr ⟨y,hy,decide_eq_true ⟨hauth,rfl,rfl⟩⟩
    simp only [firstHash, Option.isSome_or, Option.isSome_map, hfound, Bool.or_true]
  rw [firstHash_append, Option.or_of_isSome hshown]

theorem unrefused_append_new : cs.Unrefused P (xs ++ [x]) x ↔ cs.Authentic P x.1 x.2 ∧
    ¬ ∃ h, cs.firstHash P xs (voteKey x.1.data) x.1.voter = some h ∧ h ≠ x.1.data.blockHash := by
  unfold Unrefused
  refine and_congr_right ?_
  intro hauth
  rw [firstHash_append]
  cases cs.firstHash P xs (voteKey x.1.data) x.1.voter with
  | none => simp [hauth]
  | some h => simp

theorem opening_append : cs.opening P (xs ++ [x]) key = (cs.opening P xs key).or
    (if voteKey x.1.data = key ∧ cs.Unrefused P (xs ++ [x]) x then some x else none) := by
  unfold opening
  rw [List.find?_append, List.find?_singleton]
  congr 1
  · refine List.find?_congr ?_
    intro y hy
    simp only [unrefused_append_old hy]
  · by_cases h : voteKey x.1.data = key ∧ cs.Unrefused P (xs ++ [x]) x
    · simp [h]
    · simp [h]

theorem voteKey_of_opening (h : cs.opening P xs key = some x) : voteKey x.1.data = key := by
  unfold opening at h
  have hfound := List.find?_some h
  exact (of_decide_eq_true hfound).1

theorem supporters_append : cs.supporters P (xs ++ [x]) data =
    if x.1.data = data ∧ cs.Unrefused P (xs ++ [x]) x then insert x.1.voter (cs.supporters P xs data)
    else cs.supporters P xs data := by
  have hold : xs.filter (fun y => decide (y.1.data = data ∧ cs.Unrefused P (xs ++ [x]) y)) =
      xs.filter (fun y => decide (y.1.data = data ∧ cs.Unrefused P xs y)) := by
    refine List.filter_congr ?_
    intro y hy
    simp only [unrefused_append_old hy]
  unfold supporters
  rw [List.filter_append, hold]
  by_cases h : x.1.data = data ∧ cs.Unrefused P (xs ++ [x]) x
  · rw [if_pos h, List.filter_singleton, decide_eq_true h]
    ext b
    simp
  · rw [if_neg h, List.filter_singleton, decide_eq_false h]
    simp

theorem supporters_of_unopened (h : cs.opening P xs (voteKey data) = none) :
    cs.supporters P xs data = ∅ := by
  have hnone : xs.filter (fun y => decide (y.1.data = data ∧ cs.Unrefused P xs y)) = [] := by
    refine List.filter_eq_nil_iff.mpr ?_
    intro y hy hsupports
    obtain ⟨rfl,hunref⟩ := of_decide_eq_true hsupports
    exact List.find?_eq_none.mp h y hy (decide_eq_true ⟨rfl,hunref⟩)
  rw [supporters, hnone]
  rfl

/-- What a machine knows after the deliveries `xs`, in terms of the state before them. -/
structure Intake (P : Platform) (cs : HotStuffConsensus) (xs : List Delivery)
    (s : HotStuffConsensus) : Prop where
  validatorSet : s.validatorSet = cs.validatorSet
  validatorPubkeys : s.validatorPubkeys = cs.validatorPubkeys
  seen : ∀ vote : Vote, s.seenHash vote = cs.firstHash P xs (voteKey vote.data) vote.voter
  opened : ∀ key, cs.voteAccumulators.lookup key = none →
    (s.voteAccumulators.lookup key).map (·.data) = (cs.opening P xs key).map (·.1.data)
  counted : ∀ key acc, cs.voteAccumulators.lookup key = none →
    s.voteAccumulators.lookup key = some acc → acc.quorum = cs.validatorSet.quorum ∧
      acc.votes.keySet = cs.supporters P xs acc.data

theorem Intake.authentic (h : Intake P cs xs s) {vote : Vote} {pk : BlsPubKey} :
    s.Authentic P vote pk ↔ cs.Authentic P vote pk := by
  unfold Authentic
  rw [h.validatorSet, h.validatorPubkeys]

theorem Intake.unrefused (h : Intake P cs xs s) : cs.Unrefused P (xs ++ [x]) x ↔
    s.Authentic P x.1 x.2 ∧ ¬ s.Equivocates x.1 := by
  rw [unrefused_append_new, h.authentic, Equivocates, h.seen]

theorem seenHash_remember (vote v : Vote) (pk : BlsPubKey) :
    (s.remember vote pk).seenHash v = (s.seenHash v).or
      (if voteKey vote.data = voteKey v.data ∧ vote.voter = v.voter
        then some vote.data.blockHash else none) := by
  have hkey : (voteKey vote.data = voteKey v.data ∧ vote.voter = v.voter) ↔
      (v.data.blockNumber,v.data.phase,v.voter) =
        (vote.data.blockNumber,vote.data.phase,vote.voter) := by
    simp only [voteKey, Prod.mk.injEq, and_assoc, eq_comm]
  simp only [hkey]
  unfold seenHash remember
  by_cases hsame : (v.data.blockNumber,v.data.phase,v.voter) =
      (vote.data.blockNumber,vote.data.phase,vote.voter)
  · rw [if_pos hsame, hsame]
    cases hlook : s.seenVotes.lookup (vote.data.blockNumber,vote.data.phase,vote.voter) with
    | some entry => simp [hlook]
    | none => simp [AList.lookup_insert]
  · rw [if_neg hsame, Option.or_none]
    split
    · rfl
    · simp only [AList.lookup_insert_ne hsame]

theorem Intake.congr {s' : HotStuffConsensus} (h : Intake P cs xs s) (hf : QcFrame s s') :
    Intake P cs xs s' := by
  obtain ⟨hvs,hpk,hseen,hopened,hcounted⟩ := h
  refine ⟨hf.validatorSet.trans hvs,hf.validatorPubkeys.trans hpk,?_,?_,?_⟩
  · intro vote
    rw [← hseen vote, seenHash, hf.seenVotes, seenHash]
  · intro key hkey
    rw [hf.voteAccumulators]
    exact hopened key hkey
  · intro key acc hkey hlook
    rw [hf.voteAccumulators] at hlook
    exact hcounted key acc hkey hlook

theorem Intake.filtered (h : Intake P cs xs s)
    (hx : ¬ (s.Authentic P x.1 x.2 ∧ ¬ s.Equivocates x.1)) :
    Intake P cs (xs ++ [x]) (s.acceptVote P x.1 x.2).1 := by
  obtain ⟨hframe,hacc,hseen,-⟩ := acceptVote_of_filtered hx
  have hrefused : ¬ cs.Unrefused P (xs ++ [x]) x := fun hu => hx (h.unrefused.mp hu)
  refine ⟨hframe.validatorSet.trans h.validatorSet,
    hframe.validatorPubkeys.trans h.validatorPubkeys,?_,?_,?_⟩
  · intro vote
    have hold : (s.acceptVote P x.1 x.2).1.seenHash vote = s.seenHash vote := by
      rw [seenHash, hseen, seenHash]
    rw [hold, h.seen, firstHash_append]
    split
    · rename_i hsame
      obtain ⟨hauth,hkey,hvoter⟩ := hsame
      have heq : s.Equivocates x.1 := not_not.mp (fun hn => hx ⟨h.authentic.mpr hauth,hn⟩)
      obtain ⟨hash,hshown,-⟩ := heq
      rw [h.seen, hkey, hvoter] at hshown
      rw [hshown]
      rfl
    · rw [Option.or_none]
  · intro key hkey
    rw [hacc, opening_append, if_neg (fun hu => hrefused hu.2), Option.or_none]
    exact h.opened key hkey
  · intro key acc hkey hlook
    rw [hacc] at hlook
    rw [supporters_append, if_neg (fun hu => hrefused hu.2)]
    exact h.counted key acc hkey hlook

theorem Intake.accumulator (h : Intake P cs xs s) (vote : Vote)
    (hkey : cs.voteAccumulators.lookup (voteKey vote.data) = none) :
    (s.accumulator vote.data).data =
        ((cs.opening P xs (voteKey vote.data)).map (·.1.data)).getD vote.data ∧
      (s.accumulator vote.data).quorum = cs.validatorSet.quorum ∧
      (s.accumulator vote.data).votes.keySet =
        cs.supporters P xs (s.accumulator vote.data).data := by
  have hopened := h.opened _ hkey
  unfold HotStuffConsensus.accumulator
  cases hlook : s.voteAccumulators.lookup (voteKey vote.data) with
  | some acc =>
    rw [hlook] at hopened
    obtain ⟨hquorum,hset⟩ := h.counted _ acc hkey hlook
    simp only [voteKey] at hlook
    rw [hlook]
    exact ⟨by rw [← hopened]; rfl,hquorum,hset⟩
  | none =>
    rw [hlook] at hopened
    have hunopened : cs.opening P xs (voteKey vote.data) = none :=
      Option.map_eq_none_iff.mp hopened.symm
    simp only [voteKey] at hlook
    rw [hlook, hunopened]
    refine ⟨rfl,congrArg ValidatorSet.quorum h.validatorSet,?_⟩
    rw [Option.getD_none, VoteAccumulator.new, supporters_of_unopened hunopened]
    rfl

theorem Intake.taken (h : Intake P cs xs s)
    (hx : s.Authentic P x.1 x.2 ∧ ¬ s.Equivocates x.1) :
    Intake P cs (xs ++ [x]) (s.acceptVote P x.1 x.2).1 := by
  have hunref : cs.Unrefused P (xs ++ [x]) x := h.unrefused.mpr hx
  have hframe := intakeFrame_acceptVote P s x.1 x.2
  have hlookup : ∀ key, (s.acceptVote P x.1 x.2).1.voteAccumulators.lookup key =
      if key = voteKey x.1.data then some ((s.accumulator x.1.data).addVote P x.1 x.2).1
      else s.voteAccumulators.lookup key := by
    intro key
    rw [acceptVote_of_authentic hx.1 hx.2]
    simp only [accumulate, accumulator_remember, voteAccumulators_remember]
    split
    · rename_i hkey
      rw [hkey, voteKey, AList.lookup_insert]
    · rename_i hkey
      exact AList.lookup_insert_ne hkey
  obtain ⟨hdata,hquorum,hset⟩ := VoteAccumulator.addVote_spec (s.accumulator x.1.data) hx.1.2.2
  refine ⟨hframe.validatorSet.trans h.validatorSet,
    hframe.validatorPubkeys.trans h.validatorPubkeys,?_,?_,?_⟩
  · intro vote
    have hremember : (s.acceptVote P x.1 x.2).1.seenHash vote = (s.remember x.1 x.2).seenHash vote := by
      rw [acceptVote_of_authentic hx.1 hx.2]
      rfl
    rw [hremember, seenHash_remember, h.seen, firstHash_append]
    simp only [h.authentic.mp hx.1, true_and]
  · intro key hkey
    rw [hlookup, opening_append]
    by_cases hsame : voteKey x.1.data = key
    · subst hsame
      obtain ⟨hacc,-,-⟩ := h.accumulator x.1 hkey
      rw [if_pos rfl, if_pos ⟨rfl,hunref⟩, Option.map_some, hdata, hacc]
      cases cs.opening P xs (voteKey x.1.data) with
      | none => rfl
      | some o => rfl
    · rw [if_neg (Ne.symm hsame), if_neg (fun hu => hsame hu.1), Option.or_none]
      exact h.opened key hkey
  · intro key acc hkey hlook
    rw [hlookup] at hlook
    by_cases hsame : key = voteKey x.1.data
    · subst hsame
      obtain ⟨-,hq,hsupp⟩ := h.accumulator x.1 hkey
      rw [if_pos rfl] at hlook
      cases hlook
      refine ⟨hquorum.trans hq,?_⟩
      rw [hset, hdata, supporters_append, hsupp]
      simp only [hunref, and_true]
    · rw [if_neg hsame] at hlook
      obtain ⟨hq,hsupp⟩ := h.counted key acc hkey hlook
      refine ⟨hq,?_⟩
      have hother : x.1.data ≠ acc.data := by
        intro heq
        have hopened := h.opened key hkey
        rw [hlook] at hopened
        obtain ⟨o,ho,hodata⟩ := Option.map_eq_some_iff.mp hopened.symm
        exact hsame (by rw [← voteKey_of_opening ho, hodata, heq])
      rw [supporters_append, if_neg (fun hu => hother hu.1)]
      exact hsupp

theorem intake_run (P : Platform) (cs : HotStuffConsensus) (xs : List Delivery) :
    Intake P cs xs (final (step P) cs (xs.map deliver)) := by
  induction xs using List.reverseRecOn with
  | nil =>
    refine ⟨rfl,rfl,?_,?_,?_⟩
    · intro vote
      simp only [firstHash, List.find?_nil, Option.map_none, Option.or_none]
      rfl
    · intro key hkey
      simp only [List.map_nil, final_nil, hkey, opening, List.find?_nil, Option.map_none]
    · intro key acc hkey hlook
      rw [List.map_nil, final_nil, hkey] at hlook
      cases hlook
  | append_singleton xs x ih =>
    rw [List.map_append, final_append]
    refine Intake.congr ?_ (onVote_tally P _ x.1 x.2)
    by_cases hx : (final (step P) cs (xs.map deliver)).Authentic P x.1 x.2 ∧
        ¬ (final (step P) cs (xs.map deliver)).Equivocates x.1
    · exact ih.taken hx
    · exact ih.filtered hx

/-- Some call of the history formed a certificate for `data`. -/
def Formed (P : Platform) (past : List Step) (data : VoteData) : Prop :=
  ∃ e ∈ past, (e.before.formedQc P e.call).map (·.voteData) = some data

instance (past : List Step) (data : VoteData) : Decidable (Formed P past data) :=
  inferInstanceAs (Decidable (∃ e ∈ past, _))

theorem formed_append {past : List Step} {e : Step} : Formed P (past ++ [e]) data ↔
    Formed P past data ∨ (e.before.formedQc P e.call).map (·.voteData) = some data := by
  constructor
  · rintro ⟨e',he',hqc⟩
    rcases List.mem_append.mp he' with hold | hnew
    · exact Or.inl ⟨e',hold,hqc⟩
    · cases List.mem_singleton.mp hnew
      exact Or.inr hqc
  · rintro (⟨e',he',hqc⟩ | hqc)
    · exact ⟨e',List.mem_append_left _ he',hqc⟩
    · exact ⟨e,by simp,hqc⟩

/-- A delivery forms a certificate for `data` when it is the vote that completes it. -/
theorem Intake.formed_iff (h : Intake P cs xs s)
    (hnone : cs.voteAccumulators.lookup (voteKey data) = none) :
    (s.formedQc P (deliver x)).map (·.voteData) = some data ↔
      x.1.data = data ∧ cs.Unrefused P (xs ++ [x]) x ∧
        ((cs.opening P xs (voteKey data)).map (·.1.data)).getD data = data ∧
        x.1.voter ∉ cs.supporters P xs data ∧
        cs.validatorSet.quorum ≤ (cs.supporters P xs data).card + 1 := by
  constructor
  · intro hformed
    obtain ⟨qc,hqc,rfl⟩ := Option.map_eq_some_iff.mp hformed
    obtain ⟨hauth,hneq,⟨hdata,hnew,-⟩,hquorum,rfl⟩ := formedQc_spec hqc
    simp only [VoteAccumulator.voteData_formQc, VoteAccumulator.record_data] at hnone ⊢
    rw [← hdata] at hnone ⊢
    obtain ⟨hacc,hq,hset⟩ := h.accumulator x.1 hnone
    rw [← hdata] at hacc hset
    have hcard := AList.card_keySet (t := (s.accumulator x.1.data).votes)
    rw [hset] at hcard
    rw [hq, ← hcard] at hquorum
    refine ⟨rfl,h.unrefused.mpr ⟨hauth,hneq⟩,hacc.symm,?_,hquorum⟩
    rw [← hset, AList.mem_keySet, hnew]
    exact fun ⟨v,hv⟩ => nomatch hv
  · rintro ⟨rfl,hunref,hopen,hnew,hquorum⟩
    obtain ⟨hauth,hneq⟩ := h.unrefused.mp hunref
    obtain ⟨hacc,hq,hset⟩ := h.accumulator x.1 hnone
    rw [hopen] at hacc
    rw [hacc] at hset
    have hcard := AList.card_keySet (t := (s.accumulator x.1.data).votes)
    rw [hset] at hcard
    rw [← hset, AList.mem_keySet] at hnew
    have hcounts : (s.accumulator x.1.data).Counts P x.1 x.2 :=
      ⟨hacc.symm,Option.eq_none_iff_forall_ne_some.mpr (fun v hv => hnew ⟨v,hv⟩),hauth.2.2⟩
    refine Option.map_eq_some_iff.mpr ⟨_,formedQc_of_counts hauth hneq hcounts ?_,hacc⟩
    omega

/-- One more delivery: a certificate for `data` was formed, or is formed now, just when
the sequence with it opens for `data` and brings a quorum of supporters. -/
theorem enough_append : ((((cs.opening P xs (voteKey data)).map (·.1.data) = some data ∧
        cs.validatorSet.quorum ≤ (cs.supporters P xs data).card) ∨
      (x.1.data = data ∧ cs.Unrefused P (xs ++ [x]) x ∧
        ((cs.opening P xs (voteKey data)).map (·.1.data)).getD data = data ∧
        x.1.voter ∉ cs.supporters P xs data ∧
        cs.validatorSet.quorum ≤ (cs.supporters P xs data).card + 1)) ↔
    (cs.opening P (xs ++ [x]) (voteKey data)).map (·.1.data) = some data ∧
      cs.validatorSet.quorum ≤ (cs.supporters P (xs ++ [x]) data).card) := by
  have hpos : 0 < cs.validatorSet.quorum := by
    have := cs.validatorSet.quorum_eq
    omega
  rw [opening_append, supporters_append]
  cases hopen : cs.opening P xs (voteKey data) with
  | some o =>
    simp only [Option.map_some, Option.some_or, Option.getD_some, Option.some.injEq]
    by_cases hx : x.1.data = data ∧ cs.Unrefused P (xs ++ [x]) x
    · obtain ⟨hdata,hunref⟩ := hx
      by_cases hvoted : x.1.voter ∈ cs.supporters P xs data
      · simp [hdata, hunref, hvoted]
      · have hcard := Finset.card_insert_of_notMem hvoted
        simp only [hdata, hunref, hvoted, and_self, not_false_eq_true, true_and, ↓reduceIte, hcard]
        constructor
        · rintro (⟨ho,hq⟩ | h)
          · exact ⟨ho,by omega⟩
          · exact h
        · exact Or.inr
    · have hno : ¬ (x.1.data = data ∧ cs.Unrefused P (xs ++ [x]) x ∧ o.1.data = data ∧
          x.1.voter ∉ cs.supporters P xs data ∧
          cs.validatorSet.quorum ≤ (cs.supporters P xs data).card + 1) :=
        fun h => hx ⟨h.1,h.2.1⟩
      rw [if_neg hx, or_iff_left hno]
  | none =>
    have hempty : cs.supporters P xs data = ∅ := supporters_of_unopened hopen
    by_cases hx : x.1.data = data ∧ cs.Unrefused P (xs ++ [x]) x
    · obtain ⟨rfl,hunref⟩ := hx
      simp [hunref, hempty]
    · have hno : ¬ (x.1.data = data ∧ cs.Unrefused P (xs ++ [x]) x ∧
          (Option.map (fun y : Delivery => y.1.data) none).getD data = data ∧
          x.1.voter ∉ cs.supporters P xs data ∧
          cs.validatorSet.quorum ≤ (cs.supporters P xs data).card + 1) :=
        fun h => hx ⟨h.1,h.2.1⟩
      rw [if_neg hx, or_iff_left hno, hempty, Finset.card_empty]
      constructor
      · rintro ⟨-,hq⟩
        omega
      · rintro ⟨-,hq⟩
        omega

/-- From a state without an accumulator for its number and phase, a sequence of votes
forms a certificate for `data` just when the vote that opens the accumulator is for
`data` and a quorum of distinct voters support `data`. -/
theorem formed_iff_opening (P : Platform) (cs : HotStuffConsensus) (data : VoteData)
    (hnone : cs.voteAccumulators.lookup (voteKey data) = none) (xs : List Delivery) :
    Formed P (history (step P) cs (xs.map deliver)) data ↔
      (cs.opening P xs (voteKey data)).map (·.1.data) = some data ∧
        cs.validatorSet.quorum ≤ (cs.supporters P xs data).card := by
  induction xs using List.reverseRecOn with
  | nil =>
    constructor
    · rintro ⟨e,he,-⟩
      cases he
    · rintro ⟨hopen,-⟩
      cases hopen
  | append_singleton xs x ih =>
    have hnow := (intake_run P cs xs).formed_iff (x := x) hnone
    rw [List.map_append, history_append, List.map_cons, List.map_nil, history_cons, history_nil,
      formed_append, ih, hnow, enough_append]

def demoFour : HotStuffConsensus :=
  boot (demoRules 1) (.new [1,2,3,4] (by decide)) (fun a => (demoRules a).pubKey)

def demoDelivery (addr : Address) (data : VoteData) : Delivery :=
  ((demoRules addr).ballot .integers data,(demoRules addr).pubKey)

theorem formed_beside_stray_vote : Formed .integers (history (step .integers) demoFour
    ([demoDelivery 1 ⟨7,1,0,0⟩, demoDelivery 4 ⟨9,1,0,0⟩, demoDelivery 2 ⟨7,1,0,0⟩,
      demoDelivery 3 ⟨7,1,0,0⟩].map deliver)) ⟨7,1,0,0⟩ := by
  apply (formed_iff_opening .integers demoFour ⟨7,1,0,0⟩ (by decide +kernel) _).mpr
  decide +kernel

/-- Validator 4 votes first and for another block: the quorum of 1, 2 and 3 that
follows is not certified. -/
theorem not_formed_after_early_vote :
    let xs := [demoDelivery 4 ⟨9,1,0,0⟩, demoDelivery 1 ⟨7,1,0,0⟩, demoDelivery 2 ⟨7,1,0,0⟩,
      demoDelivery 3 ⟨7,1,0,0⟩]
    demoFour.voteAccumulators.lookup (1,0) = none ∧
      (∀ x ∈ xs, demoFour.Authentic .integers x.1 x.2) ∧
      demoFour.validatorSet.quorum ≤
        ((xs.filter (fun x => decide (x.1.data = ⟨7,1,0,0⟩))).map (fun x => x.1.voter)).toFinset.card ∧
      ¬ Formed .integers (history (step .integers) demoFour (xs.map deliver)) ⟨7,1,0,0⟩ := by
  decide +kernel

end ZbxChain.HotStuffConsensus
