import Mathlib.Data.List.MinMax
import ZbxChain.Execution.Scheduler

/-! # When the lanes of the scheduler are independent

A transaction that conflicts with every lane opens a new one, so a second lane always stands
beside a conflict; the lanes are independent exactly when there is only one.
-/
namespace ZbxChain

def Conflict (txs : List SignedTransaction) (i j : ℕ) : Prop :=
  ∃ t u, txs[i]? = some t ∧ txs[j]? = some u ∧
    (deriveAccessSet t).conflictsWith (deriveAccessSet u) = true

def FirstOfSender (txs : List SignedTransaction) (j : ℕ) : Prop :=
  ∀ i, i < j → ∀ t u, txs[i]? = some t → txs[j]? = some u → t.sender ≠ u.sender

/-- The first transaction of a sender conflicts with none before it. -/
def NewSendersFree (txs : List SignedTransaction) : Prop :=
  ∀ i j, i < j → FirstOfSender txs j → ¬ Conflict txs i j

def Interleaves (lanes : List (List ℕ)) (order : List ℕ) : Prop :=
  order.Perm lanes.flatten ∧ ∀ lane ∈ lanes, lane.Sublist order

/-- What the lanes promise: a partition in order, one lane for each sender, no conflict
between lanes, and the result of the sequential run from every interleaving. -/
structure ParallelSafe (txs : List SignedTransaction) (lanes : List (List ℕ)) : Prop where
  partition : lanes.flatten.Perm (List.range txs.length)
  increasing : ∀ lane ∈ lanes, lane.Pairwise (· < ·)
  pinned : ∀ i j t u, txs[i]? = some t → txs[j]? = some u → t.sender = u.sender →
    ∃ lane ∈ lanes, i ∈ lane ∧ j ∈ lane
  independent : ∀ k k' : ℕ, k ≠ k' → ∀ lane lane', lanes[k]? = some lane → lanes[k']? = some lane' →
    ∀ i ∈ lane, ∀ j ∈ lane', ¬ Conflict txs i j
  serial : ∀ (α : Type) (effect : ℕ → (AccessKey → α) → AccessKey → α),
    (∀ i t, txs[i]? = some t → (deriveAccessSet t).Governs (effect i)) →
    ∀ order, Interleaves lanes order → ∀ s,
      Commutation.run effect s order = Commutation.run effect s (List.range txs.length)

section Conflict

variable {txs : List SignedTransaction} {tx : SignedTransaction} {i j : ℕ}

theorem getElem?_append_last (h : i < txs.length) : (txs ++ [tx])[i]? = txs[i]? :=
  List.getElem?_append_left h

theorem getElem?_last : (txs ++ [tx])[txs.length]? = some tx := List.getElem?_concat_length

theorem lt_length {t : SignedTransaction} (h : txs[i]? = some t) : i < txs.length :=
  (List.getElem?_eq_some_iff.mp h).1

theorem getElem?_append_cases {t : SignedTransaction} (h : (txs ++ [tx])[i]? = some t) :
    txs[i]? = some t ∨ i = txs.length ∧ t = tx := by
  have hi := lt_length h
  rw [List.length_append, List.length_singleton] at hi
  rcases Nat.lt_or_ge i txs.length with hlt | hge
  · rw [getElem?_append_last hlt] at h
    exact Or.inl h
  · have heq : i = txs.length := by omega
    rw [heq, getElem?_last] at h
    exact Or.inr ⟨heq,(Option.some.inj h).symm⟩

theorem getElem?_append_old {t : SignedTransaction} (h : txs[i]? = some t) :
    (txs ++ [tx])[i]? = some t := by
  rw [getElem?_append_last (lt_length h)]
  exact h

theorem Conflict.append (h : Conflict txs i j) : Conflict (txs ++ [tx]) i j := by
  obtain ⟨t,u,ht,hu,hc⟩ := h
  exact ⟨t,u,getElem?_append_old ht,getElem?_append_old hu,hc⟩

theorem Conflict.of_append (h : Conflict (txs ++ [tx]) i j) (hi : i < txs.length)
    (hj : j < txs.length) : Conflict txs i j := by
  obtain ⟨t,u,ht,hu,hc⟩ := h
  rw [getElem?_append_last hi] at ht
  rw [getElem?_append_last hj] at hu
  exact ⟨t,u,ht,hu,hc⟩

theorem Conflict.last_iff :
    Conflict (txs ++ [tx]) i txs.length ∧ i < txs.length ↔
      ∃ t, txs[i]? = some t ∧ (deriveAccessSet t).conflictsWith (deriveAccessSet tx) = true := by
  constructor
  · rintro ⟨⟨t,u,ht,hu,hc⟩,hi⟩
    rw [getElem?_append_last hi] at ht
    rw [getElem?_last] at hu
    cases hu
    exact ⟨t,ht,hc⟩
  · rintro ⟨t,ht,hc⟩
    exact ⟨⟨t,tx,getElem?_append_old ht,getElem?_last,hc⟩,lt_length ht⟩

end Conflict

namespace Lanes

/-- A transaction joins lane `k`, which is the lane of its sender from then on. -/
structure Joins (l : Lanes) (idx : ℕ) (tx : SignedTransaction) (k : ℕ) (l' : Lanes) : Prop where
  lt : k < l.lanes.length
  lanes_eq : l'.lanes = l.lanes.modify k (· ++ [idx])
  sets_eq : l'.laneSets = l.laneSets.modify k (·.extend (deriveAccessSet tx))
  lookup_eq : ∀ a, l'.senderLane.lookup a =
    if a = tx.sender then some k else l.senderLane.lookup a

structure Opens (l : Lanes) (idx : ℕ) (tx : SignedTransaction) (l' : Lanes) : Prop where
  lanes_eq : l'.lanes = l.lanes ++ [[idx]]
  sets_eq : l'.laneSets = l.laneSets ++ [deriveAccessSet tx]
  lookup_eq : ∀ a, l'.senderLane.lookup a =
    if a = tx.sender then some l.lanes.length else l.senderLane.lookup a

/-- A lane is joined where it is the sender's, or the sender has none and there is a lane
without a conflict or no more to open. -/
def MayJoin (maxLanes : ℕ) (l : Lanes) (tx : SignedTransaction) (k : ℕ) : Prop :=
  l.senderLane.lookup tx.sender = some k ∨ l.senderLane.lookup tx.sender = none ∧
    ((∃ set ∈ l.laneSets, set.conflictsWith (deriveAccessSet tx) = false) ∨
      maxLanes ≤ l.lanes.length)

/-- A lane is opened by a new sender whose transaction conflicts with all lanes there are. -/
structure MayOpen (maxLanes : ℕ) (l : Lanes) (tx : SignedTransaction) : Prop where
  newSender : l.senderLane.lookup tx.sender = none
  conflicts : ∀ set ∈ l.laneSets, set.conflictsWith (deriveAccessSet tx) = true
  room : l.lanes.length < maxLanes

variable {maxLanes : ℕ} {l : Lanes} {idx : ℕ} {tx : SignedTransaction}

theorem lookup_pin (a : Address) (k : ℕ) :
    (l.pin tx.sender k).senderLane.lookup a =
      if a = tx.sender then some k else l.senderLane.lookup a := by
  unfold pin
  by_cases h : a = tx.sender
  · rw [if_pos h, h, AList.lookup_insert]
  · rw [if_neg h, AList.lookup_insert_ne h]

theorem smallest_lt (h : 0 < l.lanes.length) : l.smallest < l.lanes.length := by
  apply List.findIdx_lt_length_of_exists
  cases hmin : l.lanes.argmin List.length with
  | none =>
    rw [List.argmin_eq_none.mp hmin] at h
    exact absurd h (Nat.lt_irrefl 0)
  | some lane =>
    refine ⟨lane,List.argmin_mem hmin,?_⟩
    rw [List.all_eq_true]
    intro other hother
    exact decide_eq_true (List.le_of_mem_argmin hother hmin)

theorem place_cases (idx : ℕ) (tx : SignedTransaction) (hmax : 1 ≤ maxLanes) (hlen : l.laneSets.length = l.lanes.length)
    (hpin : ∀ a k, l.senderLane.lookup a = some k → k < l.lanes.length) :
    (∃ k, Joins l idx tx k (l.place maxLanes idx tx) ∧ MayJoin maxLanes l tx k) ∨
      Opens l idx tx (l.place maxLanes idx tx) ∧ MayOpen maxLanes l tx := by
  unfold place
  dsimp only
  cases hlook : l.senderLane.lookup tx.sender with
  | some k =>
    refine Or.inl ⟨k,⟨hpin _ _ hlook,rfl,rfl,?_⟩,Or.inl hlook⟩
    intro a
    by_cases h : a = tx.sender
    · rw [if_pos h, h]
      exact hlook
    · rw [if_neg h]
      rfl
  | none =>
    dsimp only
    cases hfind : l.laneSets.findIdx? (fun lset => ¬ lset.conflictsWith (deriveAccessSet tx)) with
    | some k =>
      obtain ⟨hk,hfree,-⟩ := List.findIdx?_eq_some_iff_getElem.mp hfind
      have hset : (l.laneSets[k]).conflictsWith (deriveAccessSet tx) = false := by
        simpa using hfree
      exact Or.inl ⟨k,⟨hlen ▸ hk,rfl,rfl,fun a => lookup_pin a k⟩,
        Or.inr ⟨hlook,Or.inl ⟨_,List.getElem_mem hk,hset⟩⟩⟩
    | none =>
      have hall : ∀ set ∈ l.laneSets, set.conflictsWith (deriveAccessSet tx) = true := by
        intro set hset
        have hnot := List.findIdx?_eq_none_iff.mp hfind set hset
        simpa using hnot
      dsimp only
      by_cases hbudget : l.lanes.length < maxLanes
      · rw [if_pos hbudget]
        exact Or.inr ⟨⟨rfl,rfl,fun a => lookup_pin a _⟩,hlook,hall,hbudget⟩
      · rw [if_neg hbudget]
        have hfull : maxLanes ≤ l.lanes.length := Nat.not_lt.mp hbudget
        exact Or.inl ⟨l.smallest,⟨smallest_lt (hmax.trans hfull),rfl,rfl,fun a => lookup_pin a _⟩,
          Or.inr ⟨hlook,Or.inr hfull⟩⟩

/-- The invariant of the loop. By its last two fields a second lane stands beside a conflict,
and there is none as long as the first transactions of the senders have no conflicts. -/
structure Inv (maxLanes : ℕ) (txs : List SignedTransaction) (l : Lanes) : Prop where
  partition : l.lanes.flatten.Perm (List.range txs.length)
  increasing : ∀ lane ∈ l.lanes, lane.Pairwise (· < ·)
  lengths : l.laneSets.length = l.lanes.length
  sets : ∀ (k : ℕ) lane set, l.lanes[k]? = some lane → l.laneSets[k]? = some set →
    ∀ c, set.conflictsWith c = true ↔
      ∃ i ∈ lane, ∃ t : SignedTransaction, txs[i]? = some t ∧
        (deriveAccessSet t).conflictsWith c = true
  owned : ∀ a k, l.senderLane.lookup a = some k →
    (∃ (i : ℕ) (t : SignedTransaction), txs[i]? = some t ∧ t.sender = a) ∧
      ∃ lane, l.lanes[k]? = some lane ∧
        ∀ (i : ℕ) (t : SignedTransaction), txs[i]? = some t → t.sender = a → i ∈ lane
  unseen : ∀ a, l.senderLane.lookup a = none →
    ∀ (i : ℕ) (t : SignedTransaction), txs[i]? = some t → t.sender ≠ a
  budget : l.lanes.length ≤ maxLanes
  beside : ∀ (k : ℕ) lane, 0 < k → l.lanes[k]? = some lane →
    ∃ lane₀, l.lanes[0]? = some lane₀ ∧ ∃ i ∈ lane₀, ∃ j ∈ lane, Conflict txs i j
  alone : 2 ≤ maxLanes → (l.lanes.length ≤ 1 ↔ NewSendersFree txs)

theorem inv_empty (maxLanes : ℕ) : Inv maxLanes [] Lanes.empty := by
  refine ⟨List.Perm.refl _,?_,rfl,?_,?_,?_,Nat.zero_le _,?_,?_⟩
  · intro lane h
    cases h
  · intro k lane set h
    cases h
  · intro a k h
    cases h
  · intro a _ i t h
    cases h
  · intro k lane _ h
    cases h
  · intro _
    refine iff_of_true (Nat.zero_le 1) ?_
    rintro i j _ _ ⟨t,u,h,-⟩
    cases h

section Step

variable {txs : List SignedTransaction} {l' : Lanes}

theorem mem_lane_lt (h : Inv maxLanes txs l) {lane : List ℕ} {i : ℕ} (hlane : lane ∈ l.lanes)
    (hi : i ∈ lane) : i < txs.length := by
  have hflat : i ∈ l.lanes.flatten := List.mem_flatten.mpr ⟨lane,hlane,hi⟩
  exact List.mem_range.mp (h.partition.mem_iff.mp hflat)

/-- Every transaction is in a lane. -/
theorem mem_some_lane (h : Inv maxLanes txs l) {i : ℕ} (hi : i < txs.length) :
    ∃ lane ∈ l.lanes, i ∈ lane :=
  List.mem_flatten.mp (h.partition.mem_iff.mpr (List.mem_range.mpr hi))

theorem firstOfSender_append {j : ℕ} (hj : j < txs.length) :
    FirstOfSender (txs ++ [tx]) j ↔ FirstOfSender txs j := by
  constructor
  · intro h i hij t u ht hu
    exact h i hij t u (getElem?_append_old ht) (getElem?_append_old hu)
  · intro h i hij t u ht hu
    rw [getElem?_append_last (hij.trans hj)] at ht
    rw [getElem?_append_last hj] at hu
    exact h i hij t u ht hu

theorem firstOfSender_last_iff (h : Inv maxLanes txs l) :
    FirstOfSender (txs ++ [tx]) txs.length ↔ l.senderLane.lookup tx.sender = none := by
  constructor
  · intro hfirst
    cases hlook : l.senderLane.lookup tx.sender with
    | none => rfl
    | some k =>
      obtain ⟨⟨i,t,ht,hsender⟩,-⟩ := h.owned _ _ hlook
      exact absurd hsender
        (hfirst i (lt_length ht) t tx (getElem?_append_old ht) getElem?_last)
  · intro hnone i hi t u ht hu
    rw [getElem?_append_last hi] at ht
    rw [getElem?_last] at hu
    cases hu
    exact h.unseen _ hnone i t ht

theorem conflict_last_of_set (h : Inv maxLanes txs l) {k : ℕ} {lane : List ℕ} {set : AccessSet}
    (hlane : l.lanes[k]? = some lane) (hset : l.laneSets[k]? = some set)
    (hc : set.conflictsWith (deriveAccessSet tx) = true) :
    ∃ i ∈ lane, i < txs.length ∧ Conflict (txs ++ [tx]) i txs.length := by
  obtain ⟨i,hi,t,ht,hconf⟩ := (h.sets k lane set hlane hset _).mp hc
  obtain ⟨hconflict,hlt⟩ := Conflict.last_iff.mpr ⟨t,ht,hconf⟩
  exact ⟨i,hi,hlt,hconflict⟩

theorem exists_append_iff (tx : SignedTransaction) (h : Inv maxLanes txs l) {lane : List ℕ} (hlane : lane ∈ l.lanes)
    (p : SignedTransaction → Prop) :
    (∃ i ∈ lane, ∃ t : SignedTransaction, (txs ++ [tx])[i]? = some t ∧ p t) ↔
      ∃ i ∈ lane, ∃ t : SignedTransaction, txs[i]? = some t ∧ p t := by
  constructor
  · rintro ⟨i,hi,t,ht,hp⟩
    rw [getElem?_append_last (mem_lane_lt h hlane hi)] at ht
    exact ⟨i,hi,t,ht,hp⟩
  · rintro ⟨i,hi,t,ht,hp⟩
    exact ⟨i,hi,t,getElem?_append_old ht,hp⟩

theorem flatten_modify_perm {lanes : List (List ℕ)} {k n : ℕ} (hk : k < lanes.length) :
    (lanes.modify k (· ++ [n])).flatten.Perm (lanes.flatten ++ [n]) := by
  obtain ⟨front,lane,back,rfl,-,hmod⟩ := List.exists_of_modify (· ++ [n]) hk
  rw [hmod, List.flatten_append, List.flatten_cons, List.flatten_append, List.flatten_cons,
    List.append_assoc lane, List.append_assoc front.flatten, List.append_assoc lane back.flatten]
  exact ((List.perm_append_comm.append_left lane)).append_left front.flatten

theorem range_succ_perm {lanes lanes' : List (List ℕ)} {n : ℕ} (h : lanes.flatten.Perm (List.range n))
    (hstep : lanes'.flatten.Perm (lanes.flatten ++ [n])) :
    lanes'.flatten.Perm (List.range (n + 1)) := by
  rw [List.range_succ]
  exact hstep.trans (h.append_right [n])

theorem newSendersFree_of_append (h : NewSendersFree (txs ++ [tx])) : NewSendersFree txs := by
  rintro i j hij hfirst hconflict
  obtain ⟨t,u,ht,hu,hc⟩ := hconflict
  exact h i j hij ((firstOfSender_append (lt_length hu)).mpr hfirst)
    (Conflict.append ⟨t,u,ht,hu,hc⟩)

theorem newSendersFree_append_iff (h : Inv maxLanes txs l) :
    NewSendersFree (txs ++ [tx]) ↔ NewSendersFree txs ∧
      (l.senderLane.lookup tx.sender = none → ∀ i, i < txs.length →
        ¬ Conflict (txs ++ [tx]) i txs.length) := by
  constructor
  · intro hfree
    refine ⟨newSendersFree_of_append hfree,?_⟩
    intro hnone i hi
    exact hfree i _ hi ((firstOfSender_last_iff h).mpr hnone)
  · rintro ⟨hfree,hlast⟩ i j hij hfirst hconflict
    have hj : j < (txs ++ [tx]).length := by
      obtain ⟨-,u,-,hu,-⟩ := hconflict
      exact lt_length hu
    rw [List.length_append, List.length_singleton] at hj
    rcases Nat.lt_or_ge j txs.length with hlt | hge
    · exact hfree i j hij ((firstOfSender_append hlt).mp hfirst)
        (hconflict.of_append (hij.trans hlt) hlt)
    · have heq : j = txs.length := by omega
      subst heq
      exact hlast ((firstOfSender_last_iff h).mp hfirst) i hij hconflict

def Grows (l l' : Lanes) : Prop :=
  ∀ (m : ℕ) lane, l.lanes[m]? = some lane → ∃ lane', l'.lanes[m]? = some lane' ∧ lane ⊆ lane'

/-- A transaction that joins a lane keeps the owners of the others. -/
theorem owned_step (h : Inv maxLanes txs l) {k : ℕ} (hgrows : Grows l l')
    (hlookup : ∀ a, l'.senderLane.lookup a =
      if a = tx.sender then some k else l.senderLane.lookup a)
    {lane' : List ℕ} (hlane' : l'.lanes[k]? = some lane') (hlast : txs.length ∈ lane')
    (howner : ∀ (i : ℕ) (t : SignedTransaction), txs[i]? = some t → t.sender = tx.sender →
      i ∈ lane') :
    ∀ a m, l'.senderLane.lookup a = some m →
      (∃ (i : ℕ) (t : SignedTransaction), (txs ++ [tx])[i]? = some t ∧ t.sender = a) ∧
        ∃ lane, l'.lanes[m]? = some lane ∧ ∀ (i : ℕ) (t : SignedTransaction),
          (txs ++ [tx])[i]? = some t → t.sender = a → i ∈ lane := by
  intro a m hlook
  rw [hlookup] at hlook
  by_cases ha : a = tx.sender
  · rw [if_pos ha] at hlook
    cases hlook
    refine ⟨⟨txs.length,tx,getElem?_last,ha.symm⟩,lane',hlane',?_⟩
    intro i t ht hsender
    rcases getElem?_append_cases ht with ht | ⟨rfl,-⟩
    · exact howner i t ht (hsender.trans ha)
    · exact hlast
  · rw [if_neg ha] at hlook
    obtain ⟨⟨i,t,ht,hsender⟩,lane,hlane,hall⟩ := h.owned _ _ hlook
    obtain ⟨lane',hlane',hsub⟩ := hgrows m lane hlane
    refine ⟨⟨i,t,getElem?_append_old ht,hsender⟩,lane',hlane',?_⟩
    intro i t ht hsender
    rcases getElem?_append_cases ht with ht | ⟨-,rfl⟩
    · exact hsub (hall i t ht hsender)
    · exact absurd hsender.symm ha

theorem unseen_step (h : Inv maxLanes txs l) {k : ℕ}
    (hlookup : ∀ a, l'.senderLane.lookup a =
      if a = tx.sender then some k else l.senderLane.lookup a) :
    ∀ a, l'.senderLane.lookup a = none →
      ∀ (i : ℕ) (t : SignedTransaction), (txs ++ [tx])[i]? = some t → t.sender ≠ a := by
  intro a hlook i t ht
  rw [hlookup] at hlook
  by_cases ha : a = tx.sender
  · rw [if_pos ha] at hlook
    cases hlook
  · rw [if_neg ha] at hlook
    rcases getElem?_append_cases ht with ht | ⟨-,rfl⟩
    · exact h.unseen a hlook i t ht
    · exact Ne.symm ha

theorem beside_step (h : Inv maxLanes txs l) (hgrows : Grows l l') {m : ℕ} (hm : 0 < m)
    (hlt : m < l.lanes.length) {lane' : List ℕ} (hlane' : l'.lanes[m]? = some lane') :
    ∃ lane₀, l'.lanes[0]? = some lane₀ ∧ ∃ i ∈ lane₀, ∃ j ∈ lane', Conflict (txs ++ [tx]) i j := by
  obtain ⟨lane₀,hlane₀,i,hi,j,hj,hconflict⟩ := h.beside m _ hm (List.getElem?_eq_getElem hlt)
  obtain ⟨lane₀',hlane₀',hsub₀⟩ := hgrows 0 lane₀ hlane₀
  obtain ⟨lane'',hlane'',hsub⟩ := hgrows m _ (List.getElem?_eq_getElem hlt)
  rw [hlane'] at hlane''
  cases hlane''
  exact ⟨lane₀',hlane₀',i,hsub₀ hi,j,hsub hj,hconflict.append⟩

section Join

variable {k : ℕ}

theorem Joins.grows (hj : Joins l txs.length tx k l') : Grows l l' := by
  intro m lane hlane
  rw [hj.lanes_eq, List.getElem?_modify, hlane]
  refine ⟨_,rfl,?_⟩
  intro i hi
  split
  · exact List.mem_append_left _ hi
  · exact hi

theorem Joins.joined (hj : Joins l txs.length tx k l') :
    ∃ lane, l.lanes[k]? = some lane ∧ l'.lanes[k]? = some (lane ++ [txs.length]) := by
  have hlt := hj.lt
  refine ⟨l.lanes[k],List.getElem?_eq_getElem hlt,?_⟩
  rw [hj.lanes_eq, List.getElem?_modify_eq, List.getElem?_eq_getElem hj.lt]
  rfl

theorem Joins.increasing (h : Inv maxLanes txs l) (hj : Joins l txs.length tx k l') :
    ∀ lane ∈ l'.lanes, lane.Pairwise (· < ·) := by
  intro lane hlane
  obtain ⟨front,old,back,hsplit,-,hmod⟩ := List.exists_of_modify (· ++ [txs.length]) hj.lt
  have hold : old ∈ l.lanes := hsplit ▸ List.mem_append_right _ List.mem_cons_self
  rw [hj.lanes_eq, hmod] at hlane
  rcases List.mem_append.mp hlane with hfront | hrest
  · exact h.increasing lane (hsplit ▸ List.mem_append_left _ hfront)
  · rcases List.mem_cons.mp hrest with rfl | hback
    · rw [List.pairwise_append]
      refine ⟨h.increasing old hold,List.pairwise_singleton _ _,?_⟩
      intro i hi j hj
      rw [List.mem_singleton.mp hj]
      exact mem_lane_lt h hold hi
    · exact h.increasing lane (hsplit ▸ List.mem_append_right _ (List.mem_cons_of_mem _ hback))

theorem Joins.sets (h : Inv maxLanes txs l) (hj : Joins l txs.length tx k l') :
    ∀ (m : ℕ) lane set, l'.lanes[m]? = some lane → l'.laneSets[m]? = some set →
      ∀ c, set.conflictsWith c = true ↔
        ∃ i ∈ lane, ∃ t : SignedTransaction, (txs ++ [tx])[i]? = some t ∧
          (deriveAccessSet t).conflictsWith c = true := by
  intro m lane set hlane hset c
  rw [hj.lanes_eq, List.getElem?_modify] at hlane
  rw [hj.sets_eq, List.getElem?_modify] at hset
  obtain ⟨lane₀,hlane₀,rfl⟩ := Option.map_eq_some_iff.mp hlane
  obtain ⟨set₀,hset₀,rfl⟩ := Option.map_eq_some_iff.mp hset
  have hmem : lane₀ ∈ l.lanes := List.mem_of_getElem? hlane₀
  have hold := h.sets m lane₀ set₀ hlane₀ hset₀ c
  rw [← exists_append_iff tx h hmem] at hold
  by_cases hm : k = m
  · rw [if_pos hm, if_pos hm, AccessSet.extend_conflictsWith, Bool.or_eq_true, hold]
    constructor
    · rintro (⟨i,hi,t,ht,hc⟩ | hc)
      · exact ⟨i,List.mem_append_left _ hi,t,ht,hc⟩
      · exact ⟨txs.length,List.mem_append_right _ (List.mem_singleton_self _),tx,getElem?_last,hc⟩
    · rintro ⟨i,hi,t,ht,hc⟩
      rcases List.mem_append.mp hi with hi | hi
      · exact Or.inl ⟨i,hi,t,ht,hc⟩
      · rw [List.mem_singleton.mp hi, getElem?_last] at ht
        cases ht
        exact Or.inr hc
  · rw [if_neg hm, if_neg hm]
    exact hold

theorem MayJoin.free (h : Inv maxLanes txs l) (hwhy : MayJoin maxLanes l tx k) (htwo : 2 ≤ maxLanes)
    (hone : l.lanes.length ≤ 1) (hnone : l.senderLane.lookup tx.sender = none) {i : ℕ}
    (hi : i < txs.length) : ¬ Conflict (txs ++ [tx]) i txs.length := by
  intro hconflict
  rcases hwhy with howner | ⟨-,⟨set,hset,hnoconf⟩ | hfull⟩
  · rw [hnone] at howner
    cases howner
  · -- the only lane holds every earlier transaction, and does not conflict
    obtain ⟨lane,hlane,hmem⟩ := mem_some_lane h hi
    obtain ⟨m,hm,hget⟩ := List.mem_iff_getElem.mp hlane
    obtain ⟨m',hm',hget'⟩ := List.mem_iff_getElem.mp hset
    have hsame : m' = m := by
      have hlen := h.lengths
      omega
    subst hsame
    obtain ⟨t,ht,hc⟩ := Conflict.last_iff.mp ⟨hconflict,hi⟩
    have hsetc := (h.sets m' lane set (hget ▸ List.getElem?_eq_getElem hm)
      (hget' ▸ List.getElem?_eq_getElem hm') (deriveAccessSet tx)).mpr ⟨i,hmem,t,ht,hc⟩
    rw [hnoconf] at hsetc
    cases hsetc
  · omega

theorem inv_join (h : Inv maxLanes txs l) (hj : Joins l txs.length tx k l')
    (hwhy : MayJoin maxLanes l tx k) : Inv maxLanes (txs ++ [tx]) l' := by
  obtain ⟨lane,hlane,hlane'⟩ := hj.joined
  have hlength : l'.lanes.length = l.lanes.length := by
    rw [hj.lanes_eq, List.length_modify]
  refine ⟨?_,hj.increasing h,?_,hj.sets h,?_,unseen_step h hj.lookup_eq,?_,?_,?_⟩
  · rw [hj.lanes_eq, List.length_append, List.length_singleton]
    exact range_succ_perm h.partition (flatten_modify_perm hj.lt)
  · rw [hj.sets_eq, List.length_modify, hlength, h.lengths]
  · apply owned_step h hj.grows hj.lookup_eq hlane'
      (List.mem_append_right _ (List.mem_singleton_self _))
    intro i t ht hsender
    rcases hwhy with howner | ⟨hnone,-⟩
    · obtain ⟨-,lane₀,hlane₀,hall⟩ := h.owned _ _ howner
      rw [hlane] at hlane₀
      cases hlane₀
      exact List.mem_append_left _ (hall i t ht hsender)
    · exact absurd hsender (h.unseen _ hnone i t ht)
  · rw [hlength]
    exact h.budget
  · intro m lane' hm hget
    exact beside_step h hj.grows hm (hlength ▸ (List.getElem?_eq_some_iff.mp hget).1) hget
  · intro htwo
    rw [hlength, newSendersFree_append_iff h, h.alone htwo]
    refine ⟨fun hfree => ⟨hfree,?_⟩,And.left⟩
    intro hnone i hi
    exact hwhy.free h htwo ((h.alone htwo).mpr hfree) hnone hi

end Join

section Open

theorem Opens.grows (ho : Opens l txs.length tx l') : Grows l l' := by
  intro m lane hlane
  refine ⟨lane,?_,List.Subset.refl _⟩
  rw [ho.lanes_eq, List.getElem?_append_left (List.getElem?_eq_some_iff.mp hlane).1]
  exact hlane

theorem Opens.opened (ho : Opens l txs.length tx l') :
    l'.lanes[l.lanes.length]? = some [txs.length] := by
  rw [ho.lanes_eq]
  exact List.getElem?_concat_length

theorem Opens.sets (h : Inv maxLanes txs l) (ho : Opens l txs.length tx l') :
    ∀ (m : ℕ) lane set, l'.lanes[m]? = some lane → l'.laneSets[m]? = some set →
      ∀ c, set.conflictsWith c = true ↔
        ∃ i ∈ lane, ∃ t : SignedTransaction, (txs ++ [tx])[i]? = some t ∧
          (deriveAccessSet t).conflictsWith c = true := by
  intro m lane set hlane hset c
  rw [ho.lanes_eq] at hlane
  rw [ho.sets_eq] at hset
  rcases Nat.lt_or_ge m l.lanes.length with hm | hm
  · rw [List.getElem?_append_left hm] at hlane
    rw [List.getElem?_append_left (h.lengths ▸ hm)] at hset
    rw [exists_append_iff tx h (List.mem_of_getElem? hlane)]
    exact h.sets m lane set hlane hset c
  · have hlt := (List.getElem?_eq_some_iff.mp hlane).1
    rw [List.length_append, List.length_singleton] at hlt
    have heq : m = l.lanes.length := by omega
    subst heq
    rw [List.getElem?_concat_length] at hlane
    rw [← h.lengths, List.getElem?_concat_length] at hset
    cases hlane
    cases hset
    constructor
    · intro hc
      exact ⟨txs.length,List.mem_singleton_self _,tx,getElem?_last,hc⟩
    · rintro ⟨i,hi,t,ht,hc⟩
      rw [List.mem_singleton.mp hi, getElem?_last] at ht
      cases ht
      exact hc

theorem MayOpen.conflict_first (h : Inv maxLanes txs l) (hwhy : MayOpen maxLanes l tx)
    (hpos : 0 < l.lanes.length) : ∃ lane₀, l.lanes[0]? = some lane₀ ∧ ∃ i ∈ lane₀, i < txs.length ∧
      Conflict (txs ++ [tx]) i txs.length := by
  have hpos' : 0 < l.laneSets.length := h.lengths ▸ hpos
  refine ⟨l.lanes[0],List.getElem?_eq_getElem hpos,?_⟩
  exact conflict_last_of_set h (List.getElem?_eq_getElem hpos) (List.getElem?_eq_getElem hpos')
    (hwhy.conflicts _ (List.getElem_mem hpos'))

theorem inv_open (h : Inv maxLanes txs l) (ho : Opens l txs.length tx l')
    (hwhy : MayOpen maxLanes l tx) : Inv maxLanes (txs ++ [tx]) l' := by
  have hlength : l'.lanes.length = l.lanes.length + 1 := by
    rw [ho.lanes_eq, List.length_append, List.length_singleton]
  refine ⟨?_,?_,?_,ho.sets h,?_,unseen_step h ho.lookup_eq,?_,?_,?_⟩
  · rw [ho.lanes_eq, List.length_append, List.length_singleton]
    apply range_succ_perm h.partition
    rw [List.flatten_append, List.flatten_singleton]
  · rw [ho.lanes_eq]
    refine List.forall_mem_append.mpr ⟨h.increasing,List.forall_mem_singleton.mpr ?_⟩
    exact List.pairwise_singleton _ _
  · rw [ho.sets_eq, List.length_append, List.length_singleton, hlength, h.lengths]
  · apply owned_step h ho.grows ho.lookup_eq ho.opened (List.mem_singleton_self _)
    intro i t ht hsender
    exact absurd hsender (h.unseen _ hwhy.newSender i t ht)
  · rw [hlength]
    exact hwhy.room
  · intro m lane' hm hget
    rcases Nat.lt_or_ge m l.lanes.length with hlt | hge
    · exact beside_step h ho.grows hm hlt hget
    · have hlt := (List.getElem?_eq_some_iff.mp hget).1
      have heq : m = l.lanes.length := by omega
      subst heq
      rw [ho.opened] at hget
      cases hget
      obtain ⟨lane₀,hlane₀,i,hi,-,hconflict⟩ := hwhy.conflict_first h hm
      obtain ⟨lane₀',hlane₀',hsub⟩ := ho.grows 0 lane₀ hlane₀
      exact ⟨lane₀',hlane₀',i,hsub hi,txs.length,List.mem_singleton_self _,hconflict⟩
  · intro htwo
    rw [hlength, newSendersFree_append_iff h, ← h.alone htwo]
    constructor
    · intro hone
      refine ⟨by omega,?_⟩
      intro _ i hi
      obtain ⟨lane,hlane,-⟩ := mem_some_lane h hi
      have hpos := List.length_pos_of_mem hlane
      omega
    · rintro ⟨-,hfree⟩
      by_contra hmore
      obtain ⟨-,-,i,-,hi,hconflict⟩ := hwhy.conflict_first h (by omega)
      exact hfree hwhy.newSender i hi hconflict

end Open

end Step

theorem inv_schedule (txs : List SignedTransaction) (hmax : 1 ≤ maxLanes) :
    Inv maxLanes txs (schedule txs maxLanes) := by
  induction txs using List.reverseRecOn with
  | nil => exact inv_empty maxLanes
  | append_singleton txs tx ih =>
    rw [schedule_append]
    have hpin : ∀ a k, (schedule txs maxLanes).senderLane.lookup a = some k →
        k < (schedule txs maxLanes).lanes.length := by
      intro a k hlook
      obtain ⟨-,lane,hlane,-⟩ := ih.owned a k hlook
      exact (List.getElem?_eq_some_iff.mp hlane).1
    rcases place_cases txs.length tx hmax ih.lengths hpin with ⟨k,hj,hwhy⟩ | ⟨ho,hwhy⟩
    · exact inv_join ih hj hwhy
    · exact inv_open ih ho hwhy

section Safety

variable {txs : List SignedTransaction}

theorem pinned_of_inv (h : Inv maxLanes txs l) {i j : ℕ} {t u : SignedTransaction}
    (ht : txs[i]? = some t) (hu : txs[j]? = some u) (hsender : t.sender = u.sender) :
    ∃ lane ∈ l.lanes, i ∈ lane ∧ j ∈ lane := by
  cases hlook : l.senderLane.lookup t.sender with
  | none => exact absurd rfl (h.unseen _ hlook i t ht)
  | some k =>
    obtain ⟨-,lane,hlane,hall⟩ := h.owned _ _ hlook
    exact ⟨lane,List.mem_of_getElem? hlane,hall i t ht rfl,hall j u hu hsender.symm⟩

/-- Lanes without conflicts between them can be interleaved in any way. -/
theorem serial_of_independent {lanes : List (List ℕ)}
    (hpartition : lanes.flatten.Perm (List.range txs.length))
    (hincreasing : ∀ lane ∈ lanes, lane.Pairwise (· < ·))
    (hindependent : ∀ k k' : ℕ, k ≠ k' → ∀ lane lane', lanes[k]? = some lane →
      lanes[k']? = some lane' → ∀ i ∈ lane, ∀ j ∈ lane', ¬ Conflict txs i j)
    {α : Type} {effect : ℕ → (AccessKey → α) → AccessKey → α}
    (hgoverns : ∀ i t, txs[i]? = some t → (deriveAccessSet t).Governs (effect i))
    {order : List ℕ} (horder : Interleaves lanes order) (s : AccessKey → α) :
    Commutation.run effect s order = Commutation.run effect s (List.range txs.length) := by
  obtain ⟨hperm,hkeeps⟩ := horder
  have hall : (List.range txs.length).Perm order := (hperm.trans hpartition).symm
  have hnodup : order.Nodup := hall.nodup_iff.mp List.nodup_range
  have hplace : ∀ {i : ℕ}, i ∈ List.range txs.length → ∃ (k : ℕ) (lane : List ℕ),
      lanes[k]? = some lane ∧ i ∈ lane := by
    intro i hi
    obtain ⟨lane,hlane,hmem⟩ := List.mem_flatten.mp (hpartition.mem_iff.mpr hi)
    obtain ⟨k,hk⟩ := List.mem_iff_getElem?.mp hlane
    exact ⟨k,lane,hk,hmem⟩
  apply Commutation.run_eq_of_commute hall
  intro i j hij hji s
  have hlt : i < j := by
    have hpair := List.pairwise_lt_range.sublist hij
    simpa using hpair
  have hi : i ∈ List.range txs.length := hij.subset List.mem_cons_self
  have hj : j ∈ List.range txs.length := hij.subset (List.mem_cons_of_mem _ List.mem_cons_self)
  obtain ⟨k,lane,hlane,hilane⟩ := hplace hi
  obtain ⟨k',lane',hlane',hjlane⟩ := hplace hj
  by_cases hk : k = k'
  · -- one lane keeps its two transactions in order
    subst hk
    rw [hlane] at hlane'
    cases hlane'
    have hmem := List.mem_of_getElem? hlane
    have hsub := Commutation.pair_sublist (hincreasing lane hmem) hilane hjlane hlt
    exact absurd hji (Commutation.not_both_orders hnodup (hsub.trans (hkeeps lane hmem)))
  · have hfree := hindependent k k' hk lane lane' hlane hlane' i hilane j hjlane
    obtain ⟨t,ht⟩ : ∃ t, txs[i]? = some t :=
      ⟨_,List.getElem?_eq_getElem (List.mem_range.mp hi)⟩
    obtain ⟨u,hu⟩ : ∃ u, txs[j]? = some u :=
      ⟨_,List.getElem?_eq_getElem (List.mem_range.mp hj)⟩
    apply (hgoverns i t ht).comm (hgoverns j u hu)
    rw [← Bool.not_eq_true]
    exact fun hc => hfree ⟨t,u,ht,hu,hc⟩

theorem independent_iff (h : Inv maxLanes txs l) :
    (∀ k k' : ℕ, k ≠ k' → ∀ lane lane', l.lanes[k]? = some lane → l.lanes[k']? = some lane' →
      ∀ i ∈ lane, ∀ j ∈ lane', ¬ Conflict txs i j) ↔ l.lanes.length ≤ 1 := by
  constructor
  · intro hindependent
    by_contra hmore
    have hlt : 1 < l.lanes.length := Nat.not_le.mp hmore
    obtain ⟨lane₀,hlane₀,i,hi,j,hj,hconflict⟩ :=
      h.beside 1 _ Nat.one_pos (List.getElem?_eq_getElem hlt)
    exact hindependent 0 1 Nat.zero_ne_one lane₀ _ hlane₀ (List.getElem?_eq_getElem hlt) i hi j hj
      hconflict
  · intro hone k k' hk lane lane' hlane hlane'
    have hlt := (List.getElem?_eq_some_iff.mp hlane).1
    have hlt' := (List.getElem?_eq_some_iff.mp hlane').1
    omega

theorem length_le_one_iff (h : Inv maxLanes txs l) (hmax : 1 ≤ maxLanes) :
    l.lanes.length ≤ 1 ↔ maxLanes = 1 ∨ NewSendersFree txs := by
  have hbudget := h.budget
  by_cases hone : maxLanes = 1
  · exact iff_of_true (hone ▸ hbudget) (Or.inl hone)
  · rw [or_iff_right hone]
    exact h.alone (by omega)

/-- The lanes keep their promise exactly when one lane is all there may be, or no first
transaction of a sender conflicts with an earlier one. -/
theorem schedule_parallelSafe_iff (txs : List SignedTransaction) {maxLanes : ℕ}
    (hmax : 1 ≤ maxLanes) :
    ParallelSafe txs (schedule txs maxLanes).lanes ↔ maxLanes = 1 ∨ NewSendersFree txs := by
  have h := inv_schedule txs hmax
  rw [← length_le_one_iff h hmax, ← independent_iff h]
  constructor
  · exact ParallelSafe.independent
  · intro hindependent
    refine ⟨h.partition,h.increasing,?_,hindependent,?_⟩
    · intro i j t u ht hu hsender
      exact pinned_of_inv h ht hu hsender
    · intro α effect hgoverns order horder s
      exact serial_of_independent h.partition h.increasing hindependent hgoverns horder s

end Safety

section Transfers

def demoTransfer (sender recipient : Address) : SignedTransaction where
  tx :=
    { txType := .dynamicFee, nonce := 0, maxPriorityFeePerGas := 0, maxFeePerGas := 1
      gasLimit := 21000, recipient := some recipient, value := 0, data := [], accessList := []
      chainId := 8989 }
  sig := ⟨0,0,0⟩
  sender := sender
  hash := 0

/-- Two transfers that have nothing to do with each other share the first lane. -/
theorem disjoint_transfers_safe :
    ParallelSafe [demoTransfer 1 2,demoTransfer 3 4]
      (schedule [demoTransfer 1 2,demoTransfer 3 4] 8).lanes := by
  refine (schedule_parallelSafe_iff _ (by decide)).mpr (Or.inr ?_)
  rintro i j hij - ⟨t,u,ht,hu,hc⟩
  have hj : j < 2 := lt_length hu
  have hi : i = 0 := by omega
  have hj' : j = 1 := by omega
  subst hi hj'
  cases ht
  cases hu
  exact absurd hc (by decide)

/-- Two transfers to one recipient end up in two lanes. -/
theorem shared_recipient_splits :
    ¬ ∀ (txs : List SignedTransaction) (maxLanes : ℕ), 1 ≤ maxLanes →
      ParallelSafe txs (schedule txs maxLanes).lanes := by
  intro hclaim
  have hsafe := hclaim [demoTransfer 1 99,demoTransfer 2 99] 8 (by decide)
  have hlanes : (schedule [demoTransfer 1 99,demoTransfer 2 99] 8).lanes = [[0],[1]] := by decide
  rw [hlanes] at hsafe
  apply hsafe.independent 0 1 Nat.zero_ne_one [0] [1] rfl rfl 0 List.mem_cons_self 1
    List.mem_cons_self
  exact ⟨demoTransfer 1 99,demoTransfer 2 99,rfl,rfl,by decide⟩

end Transfers

end Lanes

end ZbxChain
