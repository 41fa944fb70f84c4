import ZbxChain.Consensus.HighestQc

/-! # Timeout shares pooled by a machine that receives nothing else

The accumulator keeps the first validly signed share of each validator, whatever its
round, and a certificate takes its round from whichever kept share the hash table lists
first.
-/
namespace ZbxChain.HotStuff2
open Machine

abbrev Share := TimeoutShare × BlsPubKey

def Signed (P : Platform) (d : Share) : Prop :=
  P.verifySingle d.1.signature d.2 (d.1.signingHash P) = true

def shareStep (P : Platform) (hs : HotStuff2) (d : Share) :
    HotStuff2 × Except ConsensusError (List Hs2Event) := hs.onTimeoutShare P d.1 d.2

/-- The shares that count, the newest in front: the first one of each validator. -/
def kept (delivered : List Share) : List Share :=
  delivered.foldl (fun ks d => if d.1.validator ∈ ks.map (·.1.validator) then ks else d :: ks) []

structure Pooled (P : Platform) (delivered : List Share) (acc : TcAccumulator) : Prop where
  entries : acc.shares.entries = (kept delivered).map (fun d => ⟨d.1.validator,d⟩)
  signed : ∀ d ∈ kept delivered, Signed P d

variable {P : Platform} {delivered : List Share} {acc : TcAccumulator} {d : Share}
  {tc : TimeoutCertificate}

theorem kept_append (delivered : List Share) (d : Share) :
    kept (delivered ++ [d]) =
      if d.1.validator ∈ (kept delivered).map (·.1.validator) then kept delivered
      else d :: kept delivered := by
  rw [kept, List.foldl_append]
  rfl

theorem kept_of_fresh (h : d.1.validator ∉ (kept delivered).map (·.1.validator)) :
    kept (delivered ++ [d]) = d :: kept delivered := by
  rw [kept_append, if_neg h]

theorem pooled_new (P : Platform) (quorum : ℕ) : Pooled P [] (.new quorum) :=
  ⟨rfl,by simp [kept]⟩

theorem round_buildTc (htc : acc.buildTc P = some tc) :
    tc.round = ((P.iterOrder acc.shares.entries).head?.map (·.2.1.round)).getD 0 := by
  unfold TcAccumulator.buildTc at htc
  dsimp only at htc
  split at htc
  · cases htc
  · cases htc
    simp only [List.head?_map, Option.map_map, Function.comp_def]

namespace Pooled

theorem keys (h : Pooled P delivered acc) : acc.shares.keys = (kept delivered).map (·.1.validator) := by
  rw [AList.keys, List.keys, h.entries, List.map_map]
  rfl

theorem nodup (h : Pooled P delivered acc) : ((kept delivered).map (·.1.validator)).Nodup :=
  h.keys ▸ acc.shares.keys_nodup

theorem len (h : Pooled P delivered acc) : acc.shares.len = (kept delivered).length := by
  rw [AList.len, h.entries, List.length_map]

theorem isSome_lookup (h : Pooled P delivered acc) (v : Address) :
    (acc.shares.lookup v).isSome = true ↔ v ∈ (kept delivered).map (·.1.validator) := by
  rw [AList.lookup_isSome, AList.mem_keys, h.keys]

theorem insert (h : Pooled P delivered acc) (hsigned : Signed P d)
    (hfresh : d.1.validator ∉ (kept delivered).map (·.1.validator)) :
    Pooled P (delivered ++ [d]) { acc with shares := acc.shares.insert d.1.validator d } := by
  have hnew : d.1.validator ∉ acc.shares := by
    rw [AList.mem_keys, h.keys]
    exact hfresh
  refine ⟨?_,?_⟩
  · rw [kept_of_fresh hfresh, List.map_cons, AList.entries_insert_of_notMem hnew, h.entries]
  · rw [kept_of_fresh hfresh]
    intro d' hd'
    rcases List.mem_cons.mp hd' with rfl | hd'
    · exact hsigned
    · exact h.signed d' hd'

theorem addShare_cases (h : Pooled P delivered acc) (hsigned : Signed P d) :
    (d.1.validator ∈ (kept delivered).map (·.1.validator) ∧
      acc.addShare P d.1 d.2 = (acc,none)) ∨
    (d.1.validator ∉ (kept delivered).map (·.1.validator) ∧
      acc.addShare P d.1 d.2 = ({ acc with shares := acc.shares.insert d.1.validator d },
        if acc.quorum ≤ (kept delivered).length + 1 then
          TcAccumulator.buildTc P { acc with shares := acc.shares.insert d.1.validator d }
        else none)) := by
  have hsig : P.verifySingle d.1.signature d.2 (d.1.signingHash P) = true := hsigned
  unfold TcAccumulator.addShare
  by_cases hknown : d.1.validator ∈ (kept delivered).map (·.1.validator)
  · exact Or.inl ⟨hknown,if_pos ((h.isSome_lookup _).mpr hknown)⟩
  · have hlen : (acc.shares.insert d.1.validator d).len = (kept delivered).length + 1 := by
      have hlook : acc.shares.lookup d.1.validator = none := by
        rw [AList.lookup_eq_none, AList.mem_keys, h.keys]
        exact hknown
      rw [AList.len_insert hlook, h.len]
    refine Or.inr ⟨hknown,?_⟩
    rw [if_neg (fun hsome => hknown ((h.isSome_lookup _).mp hsome)), if_neg (not_not.mpr hsig)]
    simp only [Prod.mk.eta, hlen]
    split
    · rfl
    · rfl

theorem addShare (h : Pooled P delivered acc) (hsigned : Signed P d) :
    Pooled P (delivered ++ [d]) (acc.addShare P d.1 d.2).1 ∧
      (acc.addShare P d.1 d.2).1.quorum = acc.quorum := by
  rcases h.addShare_cases hsigned with ⟨hknown,heq⟩ | ⟨hfresh,heq⟩
  · rw [heq]
    refine ⟨⟨?_,?_⟩,rfl⟩
    · rw [kept_append, if_pos hknown]
      exact h.entries
    · rw [kept_append, if_pos hknown]
      exact h.signed
  · rw [heq]
    exact ⟨h.insert hsigned hfresh,rfl⟩

theorem exists_order (h : Pooled P delivered acc) :
    ∃ listed : List Share, listed.Perm (kept delivered) ∧
      P.iterOrder acc.shares.entries = listed.map (fun d => ⟨d.1.validator,d⟩) := by
  have hperm := P.iterOrder_perm acc.shares.entries
  have hvalues := hperm.map Sigma.snd
  rw [h.entries, List.map_map, Function.comp_def, List.map_id'] at hvalues
  refine ⟨_,hvalues,?_⟩
  rw [← h.entries, List.map_map]
  have hentry : ∀ e ∈ P.iterOrder acc.shares.entries,
      ((fun d : Share => (⟨d.1.validator,d⟩ : (_ : Address) × Share)) ∘ Sigma.snd) e = id e := by
    intro e he
    rw [P.mem_iterOrder, h.entries] at he
    obtain ⟨d,-,rfl⟩ := List.mem_map.mp he
    rfl
  rw [List.map_congr_left hentry, List.map_id]

theorem buildTc_eq (h : Pooled P delivered acc) :
    ∃ listed : List Share, listed.Perm (kept delivered) ∧ acc.buildTc P =
      (P.aggregateSignatures ((kept delivered).map (·.1.signature))).map (fun agg =>
        { round := (listed.head?.map (·.1.round)).getD 0
          highestQcRound := (listed.map (·.1.highestQcRound)).foldl max 0
          aggSignature := agg
          signerHashes := listed.map (·.1.signingHash P)
          signerPubkeys := listed.map (·.2)
          signers := listed.map (·.1.validator)
          signerCount := listed.length
          signerSignatures := listed.map (·.1.signature) }) := by
  obtain ⟨listed,hperm,horder⟩ := h.exists_order
  have hagg := P.aggregateSignatures_perm (hperm.map (·.1.signature))
  have hlen : acc.shares.len = listed.length := h.len.trans hperm.length_eq.symm
  refine ⟨listed,hperm,?_⟩
  rw [← hagg]
  simp only [TcAccumulator.buildTc, horder, hlen, List.map_map, Function.comp_def, List.head?_map,
    Option.map_map]
  cases P.aggregateSignatures (listed.map (·.1.signature)) with
  | none => rfl
  | some agg => rfl

theorem isSome_buildTc (h : Pooled P delivered acc) :
    (acc.buildTc P).isSome =
      (P.aggregateSignatures ((kept delivered).map (·.1.signature))).isSome := by
  obtain ⟨listed,-,heq⟩ := h.buildTc_eq
  rw [heq, Option.isSome_map]

theorem buildTc_spec (h : Pooled P delivered acc) (htc : acc.buildTc P = some tc) :
    tc.signers.Perm ((kept delivered).map (·.1.validator)) ∧
      (kept delivered ≠ [] → ∃ d ∈ kept delivered, tc.round = d.1.round) ∧
      (∀ quorum ≤ (kept delivered).length, tc.verify P quorum = true) := by
  obtain ⟨listed,hperm,heq⟩ := h.buildTc_eq
  rw [heq] at htc
  obtain ⟨agg,-,rfl⟩ := Option.map_eq_some_iff.mp htc
  have hsigners := hperm.map (·.1.validator)
  refine ⟨hsigners,?_,?_⟩
  · intro hne
    cases listed with
    | nil => exact absurd (List.nil_perm.mp hperm) hne
    | cons d rest => exact ⟨d,hperm.subset List.mem_cons_self,rfl⟩
  · intro quorum hquorum
    have hcount : ¬ listed.length < quorum := by
      rw [hperm.length_eq]
      omega
    have hnodup : ¬ ¬ (listed.map (·.1.validator)).Nodup :=
      not_not.mpr (hsigners.nodup_iff.mpr h.nodup)
    unfold TimeoutCertificate.verify
    rw [if_neg hcount, if_neg (by simp only [List.length_map, ne_eq, not_true_eq_false, or_self,
      not_false_eq_true]), if_neg hnodup, List.zip_map', List.zip_map', List.all_map,
      List.all_eq_true]
    intro d hd
    exact h.signed d (hperm.subset hd)

end Pooled

theorem onTimeoutShare_keeps (P : Platform) (hs : HotStuff2) (share : TimeoutShare)
    (pubkey : BlsPubKey) :
    (hs.onTimeoutShare P share pubkey).1.tcAccum = (hs.tcAccum.addShare P share pubkey).1 ∧
      (hs.onTimeoutShare P share pubkey).1.quorum = hs.quorum := by
  unfold onTimeoutShare
  dsimp only
  split
  · exact ⟨rfl,rfl⟩
  · split
    · exact ⟨rfl,rfl⟩
    · split
      · exact ⟨rfl,rfl⟩
      · exact ⟨rfl,rfl⟩

theorem pooled_run {hs : HotStuff2} (hstart : hs.tcAccum = .new hs.quorum) (delivered : List Share)
    (hsigned : ∀ d ∈ delivered, Signed P d) :
    Pooled P delivered (final (shareStep P) hs delivered).tcAccum ∧
      (final (shareStep P) hs delivered).tcAccum.quorum = hs.quorum ∧
      (final (shareStep P) hs delivered).quorum = hs.quorum := by
  induction delivered using List.reverseRecOn with
  | nil =>
    rw [final_nil, hstart]
    exact ⟨pooled_new P hs.quorum,rfl,rfl⟩
  | append_singleton front d ih =>
    obtain ⟨hpool,hacc,hquorum⟩ := ih (fun d' hd' => hsigned d' (List.mem_append_left _ hd'))
    have hd := hsigned d (List.mem_append_right _ (List.mem_singleton_self d))
    obtain ⟨hkept,hsame⟩ := onTimeoutShare_keeps P (final (shareStep P) hs front) d.1 d.2
    obtain ⟨hnext,hnextQuorum⟩ := hpool.addShare hd
    rw [final_append, final_cons, final_nil, shareStep, hkept]
    exact ⟨hnext,hnextQuorum.trans hacc,hsame.trans hquorum⟩

/-- Every certificate that the delivery of `d` after `front` forms, and `verify` accepts,
has a quorum of distinct signers, and the share each of them contributed is of its round. -/
def CertifiesOneRound (P : Platform) (hs : HotStuff2) (front : List Share) (d : Share) : Prop :=
  ∀ tc, ((final (shareStep P) hs front).tcAccum.addShare P d.1 d.2).2 = some tc →
    tc.verify P (final (shareStep P) hs front).quorum = true →
      tc.signers.Nodup ∧ hs.quorum ≤ tc.signers.length ∧
        ∀ v ∈ tc.signers, ∃ d' ∈ kept (front ++ [d]), d'.1.validator = v ∧ d'.1.round = tc.round

/-- If `d` is the first share of its validator, completes a quorum of validators and the
signatures aggregate, then the first share of each of the others is of the round of `d`. -/
def RoundsAgree (P : Platform) (quorum : ℕ) (front : List Share) (d : Share) : Prop :=
  d.1.validator ∉ (kept front).map (·.1.validator) → quorum ≤ (kept front).length + 1 →
    (P.aggregateSignatures ((d :: kept front).map (·.1.signature))).isSome = true →
      ∀ d' ∈ kept front, d'.1.round = d.1.round

theorem certifiesOneRound_iff {hs : HotStuff2} (hstart : hs.tcAccum = .new hs.quorum)
    {front : List Share} (hfront : ∀ d ∈ front, Signed P d) (hd : Signed P d) :
    CertifiesOneRound P hs front d ↔ RoundsAgree P hs.quorum front d := by
  obtain ⟨hpool,hacc,hquorum⟩ := pooled_run hstart front hfront
  unfold CertifiesOneRound RoundsAgree
  rw [hquorum]
  rcases hpool.addShare_cases hd with ⟨hknown,heq⟩ | ⟨hfresh,heq⟩
  · rw [heq]
    exact ⟨fun _ hfresh => absurd hknown hfresh,fun _ tc htc => nomatch htc⟩
  · have hkept := kept_of_fresh hfresh
    have hnext := hpool.insert hd hfresh
    have hbuilt := hnext.isSome_buildTc
    rw [heq, hacc]
    rw [hacc] at hnext hbuilt
    rw [hkept] at hbuilt ⊢
    constructor
    · intro hone _ hreach hagg d' hd'
      rw [← hbuilt] at hagg
      obtain ⟨tc,htc⟩ := Option.isSome_iff_exists.mp hagg
      obtain ⟨hsigners,-,hverify⟩ := hnext.buildTc_spec htc
      rw [hkept] at hsigners hverify
      have hrounds := (hone tc (by rw [if_pos hreach, htc]) (hverify _ hreach)).2.2
      have hnodup := hnext.nodup
      rw [hkept] at hnodup
      -- the contributed share of a validator is its only kept share
      have hround : ∀ x ∈ d :: kept front, x.1.round = tc.round := by
        intro x hx
        obtain ⟨y,hy,hval,hyround⟩ :=
          hrounds x.1.validator (hsigners.symm.subset (List.mem_map_of_mem hx))
        rw [← hyround, List.inj_on_of_nodup_map hnodup hy hx hval]
      exact (hround d' (List.mem_cons_of_mem _ hd')).trans (hround d List.mem_cons_self).symm
    · intro hagree tc htc _
      split at htc
      · rename_i hreach
        obtain ⟨hsigners,hsome,-⟩ := hnext.buildTc_spec htc
        rw [hkept] at hsigners hsome
        have hagg := hagree hfresh hreach (hbuilt ▸ Option.isSome_iff_exists.mpr ⟨tc,htc⟩)
        have hall : ∀ x ∈ d :: kept front, x.1.round = d.1.round := by
          intro x hx
          rcases List.mem_cons.mp hx with rfl | hx
          · rfl
          · exact hagg x hx
        obtain ⟨y,hy,hround⟩ := hsome (List.cons_ne_nil _ _)
        have hnodup := hnext.nodup
        rw [hkept] at hnodup
        refine ⟨hsigners.nodup_iff.mpr hnodup,?_,?_⟩
        · rw [hsigners.length_eq, List.length_map, List.length_cons]
          exact hreach
        · intro v hv
          obtain ⟨x,hx,rfl⟩ := List.mem_map.mp (hsigners.subset hv)
          exact ⟨x,hx,rfl,by rw [hround, hall x hx, hall y hy]⟩
      · cases htc

/-- Over any list of validly signed shares, every certificate certifies one round just when
no share completes a quorum of validators whose first shares are of different rounds. -/
theorem certifiesOneRound_run (P : Platform) (genesisQc : QuorumCertificate) (validator : Address)
    (validators : { l : List Address // l ≠ [] }) (delivered : List Share)
    (hsigned : ∀ d ∈ delivered, Signed P d) :
    (∀ front d back, delivered = front ++ d :: back →
        CertifiesOneRound P (new genesisQc validator validators) front d) ↔
      ∀ front d back, delivered = front ++ d :: back →
        RoundsAgree P (2 * validators.1.length / 3 + 1) front d := by
  refine forall₄_congr ?_
  rintro front d back rfl
  have hfront : ∀ d' ∈ front, Signed P d' := fun d' hd' => hsigned d' (List.mem_append_left _ hd')
  have hd : Signed P d := hsigned d (List.mem_append_right _ List.mem_cons_self)
  exact certifiesOneRound_iff rfl hfront hd

/-- A share that validator `addr` signs for `round`, over the genesis certificate. -/
def demoShare (addr : Address) (round : UInt64) : Share :=
  let share : TimeoutShare := ⟨round,0,some .zero,addr,0⟩
  ({ share with signature :=
      Platform.integers.sign (addr.setWidth 256) (share.signingHash .integers) },
    Platform.integers.toPubkey (addr.setWidth 256))

instance (P : Platform) (d : Share) : Decidable (Signed P d) := inferInstanceAs (Decidable (_ = true))

/-- Validator 1 times out in round 5 and validator 2 in round 7, each signing one share:
both go into a certificate for round 7. -/
theorem mixes_rounds_five_and_seven :
    (∀ d ∈ [demoShare 1 5, demoShare 2 7], Signed .integers d) ∧
    (∃ tc, ((final (shareStep .integers) (new genesisQc 1 ⟨[1, 2],by decide⟩)
        [demoShare 1 5]).tcAccum.addShare .integers (demoShare 2 7).1 (demoShare 2 7).2).2 = some tc ∧
      tc.verify .integers 2 = true ∧ tc.round = 7 ∧ 1 ∈ tc.signers ∧
      ∀ d ∈ [demoShare 1 5, demoShare 2 7], d.1.validator = 1 → d.1.round ≠ tc.round) ∧
    ¬ CertifiesOneRound .integers (new genesisQc 1 ⟨[1, 2],by decide⟩) [demoShare 1 5]
      (demoShare 2 7) := by
  have hsigned : ∀ d ∈ [demoShare 1 5, demoShare 2 7], Signed .integers d := by decide +kernel
  have hformed : ∃ tc ∈ ((final (shareStep .integers) (new genesisQc 1 ⟨[1, 2],by decide⟩)
        [demoShare 1 5]).tcAccum.addShare .integers (demoShare 2 7).1 (demoShare 2 7).2).2,
      tc.verify .integers 2 = true ∧ tc.round = 7 ∧ 1 ∈ tc.signers ∧
      ∀ d ∈ [demoShare 1 5, demoShare 2 7], d.1.validator = 1 → d.1.round ≠ tc.round := by
    decide +kernel
  obtain ⟨tc,htc,hverify,hround,hsigner,hnone⟩ := hformed
  have hquorum : (final (shareStep .integers) (new genesisQc 1 ⟨[1, 2],by decide⟩)
      [demoShare 1 5]).quorum = 2 := by
    decide +kernel
  have hkept : ∀ d ∈ kept ([demoShare 1 5] ++ [demoShare 2 7]),
      d ∈ [demoShare 1 5, demoShare 2 7] := by
    decide +kernel
  refine ⟨hsigned,⟨tc,htc,hverify,hround,hsigner,hnone⟩,fun hone => ?_⟩
  rw [← hquorum] at hverify
  obtain ⟨d,hd,hval,hsame⟩ := (hone tc htc hverify).2.2 1 hsigner
  exact hnone d (hkept d hd) hval hsame

/-- Two shares of round 5 make a certificate for round 5. -/
theorem certifies_round_five :
    (∀ front d back, [demoShare 1 5, demoShare 2 5] = front ++ d :: back →
        CertifiesOneRound .integers (new genesisQc 1 ⟨[1, 2],by decide⟩) front d) ↔
      ∀ front d back, [demoShare 1 5, demoShare 2 5] = front ++ d :: back →
        RoundsAgree .integers (2 * [(1 : Address), 2].length / 3 + 1) front d :=
  certifiesOneRound_run .integers genesisQc 1 ⟨[1, 2],by decide⟩ [demoShare 1 5, demoShare 2 5]
    (by decide +kernel)

end ZbxChain.HotStuff2
