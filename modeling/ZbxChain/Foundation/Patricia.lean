import Mathlib.Data.List.Basic

/-! # Patricia trees

A tree over an alphabet `α` that stores values under words: a leaf carries the rest of
its word, an extension a shared stretch of words, a branch one subtree for each next
letter and a value for the word that ends there. In normal form a branch holds at least
two things and an extension leads to a branch; such a tree is determined by the map it
stands for, and insertion and deletion keep the form.
-/
namespace ZbxChain

inductive Patricia (α β : Type*) where
  | empty
  | leaf (path : List α) (value : β)
  | ext (path : List α) (child : Patricia α β)
  | branch (children : α → Patricia α β) (value : Option β)

namespace Patricia
variable {α β : Type*} [DecidableEq α]

def get : Patricia α β → List α → Option β
  | empty, _ => none
  | leaf path value, key => if key = path then some value else none
  | ext path child, key => (key.dropPrefix? path).bind child.get
  | branch _ value, [] => value
  | branch children _, a :: key => (children a).get key

/-- The same words with `path` in front of each. -/
def join (path : List α) : Patricia α β → Patricia α β
  | empty => empty
  | leaf q value => leaf (path ++ q) value
  | ext q child => ext (path ++ q) child
  | branch children value =>
    if path = [] then branch children value else ext path (branch children value)

/-- A branch with one more value, under a word that nothing in it shares a letter with. -/
def place (children : α → Patricia α β) (value : Option β) : List α → β → Patricia α β
  | [], v => branch children (some v)
  | a :: rest, v => branch (Function.update children a (leaf rest v)) value

/-- The longest common prefix of two words, and what is left of each. -/
def split : List α → List α → List α × List α × List α
  | a :: xs, b :: ys =>
    if a = b then (a :: (split xs ys).1,(split xs ys).2) else ([],a :: xs,b :: ys)
  | xs, ys => ([],xs,ys)

def insert : Patricia α β → List α → β → Patricia α β
  | empty, key, v => leaf key v
  | leaf path old, key, v =>
    match split key path with
    | (_, [], []) => leaf path v
    | (p, rest, []) => join p (place (fun _ => empty) (some old) rest v)
    | (p, rest, a :: tail) =>
      join p (place (Function.update (fun _ => empty) a (leaf tail old)) none rest v)
  | ext path child, key, v =>
    match split key path with
    | (_, rest, []) => ext path (child.insert rest v)
    | (p, rest, a :: tail) =>
      join p (place (Function.update (fun _ => empty) a (join tail child)) none rest v)
  | branch children _, [], v => branch children (some v)
  | branch children value, a :: key, v =>
    branch (Function.update children a ((children a).insert key v)) value

open Classical in
/-- What becomes of a branch that may have lost something. -/
noncomputable def collapse (children : α → Patricia α β) (value : Option β) : Patricia α β :=
  match value with
  | some v => if ∀ a, children a = empty then leaf [] v else branch children (some v)
  | none =>
    if ∀ a, children a = empty then empty
    else if h : ∃ a, ∀ b, b ≠ a → children b = empty then join [h.choose] (children h.choose)
    else branch children none

/-- The tree without a word, or `none` if the word is not there. -/
noncomputable def delete : Patricia α β → List α → Option (Patricia α β)
  | empty, _ => none
  | leaf path _, key => if key = path then some empty else none
  | ext path child, key => ((key.dropPrefix? path).bind child.delete).map (join path)
  | branch children value, [] => value.map (fun _ => collapse children none)
  | branch children value, a :: key =>
    ((children a).delete key).map (fun t => collapse (Function.update children a t) value)

def IsBranch : Patricia α β → Prop
  | branch _ _ => True
  | _ => False

/-- At least two of the children and the value are there. -/
def Forks (children : α → Patricia α β) (value : Option β) : Prop :=
  ∃ a, children a ≠ empty ∧ (value ≠ none ∨ ∃ b, b ≠ a ∧ children b ≠ empty)

def Normal : Patricia α β → Prop
  | empty => True
  | leaf _ _ => True
  | ext path child => path ≠ [] ∧ child.IsBranch ∧ child.Normal
  | branch children value => (∀ a, (children a).Normal) ∧ Forks children value

variable {t u : Patricia α β} {path key rest : List α} {v : β} {children : α → Patricia α β}
  {value : Option β}

section Words

theorem dropPrefix?_eq_some : key.dropPrefix? path = some rest ↔ key = path ++ rest := by
  rw [List.dropPrefix?_eq_some_iff]
  constructor
  · rintro ⟨p,hkey,hp⟩
    rw [hkey, eq_of_beq hp]
  · intro h
    exact ⟨path,h,beq_self_eq_true path⟩

@[simp] theorem dropPrefix?_append (path rest : List α) :
    (path ++ rest).dropPrefix? path = some rest := dropPrefix?_eq_some.mpr rfl

theorem dropPrefix?_append_right (p q : List α) :
    key.dropPrefix? (p ++ q) = (key.dropPrefix? p).bind (·.dropPrefix? q) := by
  ext r
  rw [Option.bind_eq_some_iff, dropPrefix?_eq_some]
  constructor
  · intro h
    exact ⟨q ++ r,dropPrefix?_eq_some.mpr (by rw [h, List.append_assoc]),dropPrefix?_append q r⟩
  · rintro ⟨s,hs,hr⟩
    rw [dropPrefix?_eq_some] at hs hr
    rw [hs, hr, List.append_assoc]

/-- The common prefix and the two rests, which differ in their first elements. -/
theorem split_spec (xs ys : List α) :
    xs = (split xs ys).1 ++ (split xs ys).2.1 ∧ ys = (split xs ys).1 ++ (split xs ys).2.2 ∧
      ∀ a, (split xs ys).2.1.head? = some a → (split xs ys).2.2.head? ≠ some a := by
  induction xs generalizing ys with
  | nil => simp [split]
  | cons a xs ih =>
    cases ys with
    | nil => simp [split]
    | cons b ys =>
      by_cases h : a = b
      · subst h
        obtain ⟨hxs,hys,hhead⟩ := ih ys
        simp only [split, if_true, List.cons_append]
        exact ⟨congrArg _ hxs,congrArg _ hys,hhead⟩
      · simp [split, h, Ne.symm h]

theorem split_append (p xs ys : List α) (h : ∀ a, xs.head? = some a → ys.head? ≠ some a) :
    split (p ++ xs) (p ++ ys) = (p,xs,ys) := by
  induction p with
  | nil =>
    cases xs with
    | nil => simp [split]
    | cons a xs =>
      cases ys with
      | nil => simp [split]
      | cons b ys =>
        have hne : a ≠ b := fun hab => h a rfl (by rw [hab]; rfl)
        simp [split, hne]
  | cons a p ih => simp [split, ih]

end Words

section Get

@[simp] theorem get_empty (key : List α) : (empty : Patricia α β).get key = none := rfl
@[simp] theorem get_leaf : (leaf path v).get key = if key = path then some v else none := rfl
@[simp] theorem get_ext : (ext path t).get key = (key.dropPrefix? path).bind t.get := rfl
@[simp] theorem get_branch_nil : (branch children value).get [] = value := rfl
@[simp] theorem get_branch_cons (a : α) :
    (branch children value).get (a :: key) = (children a).get key := rfl

theorem get_join (path key : List α) (t : Patricia α β) :
    (join path t).get key = (key.dropPrefix? path).bind t.get := by
  cases t with
  | empty => cases h : key.dropPrefix? path <;> simp [join]
  | leaf q v =>
    rw [join, get_leaf]
    by_cases h : key = path ++ q
    · subst h
      simp
    · rw [if_neg h]
      cases hrest : key.dropPrefix? path with
      | none => rfl
      | some rest =>
        have hne : rest ≠ q := fun heq => h (heq ▸ dropPrefix?_eq_some.mp hrest)
        simp [hne]
  | ext q child =>
    rw [join, get_ext, dropPrefix?_append_right]
    cases key.dropPrefix? path <;> simp
  | branch children value =>
    by_cases h : path = []
    · subst h
      simp [join]
    · simp [join, h]

theorem get_place (hfree : ∀ a, rest.head? = some a → children a = empty)
    (hend : rest = [] → value = none) :
    (place children value rest v).get key =
      if key = rest then some v else (branch children value).get key := by
  cases rest with
  | nil => cases key <;> simp [place]
  | cons a rest =>
    cases key with
    | nil => simp [place]
    | cons b key =>
      by_cases h : b = a
      · subst h
        simp [place, hfree b rfl]
      · simp [place, h]

theorem get_branch_single (a : α) (t : Patricia α β) (key : List α) :
    (branch (Function.update (fun _ => empty) a t) none).get key = (join [a] t).get key := by
  rw [get_join]
  cases key with
  | nil =>
    have hnone : ([] : List α).dropPrefix? [a] = none := by simp [List.dropPrefix?]
    simp [hnone]
  | cons b key =>
    by_cases h : b = a
    · subst h
      have hsome : (b :: key).dropPrefix? [b] = some key := dropPrefix?_append [b] key
      simp [hsome]
    · have hnone : (b :: key).dropPrefix? [a] = none := by simp [List.dropPrefix?, h]
      simp [hnone, h]

theorem bind_dropPrefix? (p : List α) (f : List α → Option β) :
    ((key.dropPrefix? p).bind fun k => if k = rest then some v else f k) =
      if key = p ++ rest then some v else (key.dropPrefix? p).bind f := by
  cases hdrop : key.dropPrefix? p with
  | none =>
    have hne : key ≠ p ++ rest := by
      intro h
      rw [dropPrefix?_eq_some.mpr h] at hdrop
      cases hdrop
    rw [if_neg hne]
    rfl
  | some k =>
    have hkey := dropPrefix?_eq_some.mp hdrop
    by_cases h : k = rest
    · rw [if_pos (by rw [hkey, h])]
      exact if_pos h
    · rw [if_neg (by rw [hkey]; simpa using h)]
      exact if_neg h

theorem get_join_place (p : List α) (hfree : ∀ a, rest.head? = some a → children a = empty)
    (hend : rest = [] → value = none) :
    (join p (place children value rest v)).get key =
      if key = p ++ rest then some v else (join p (branch children value)).get key := by
  rw [get_join, get_join, ← bind_dropPrefix?]
  congr 1
  funext k
  exact get_place hfree hend

theorem get_join_join (p q : List α) (t : Patricia α β) :
    (join p (join q t)).get key = (join (p ++ q) t).get key := by
  rw [get_join, get_join, dropPrefix?_append_right]
  cases key.dropPrefix? p with
  | none => rfl
  | some k => exact get_join q k t

theorem get_ext_join (path : List α) (t : Patricia α β) :
    (ext path t).get key = (join path t).get key := by
  rw [get_join, get_ext]

theorem get_leaf_join (path : List α) (v : β) :
    (leaf path v).get key = (join path (leaf [] v)).get key := by
  rw [join, List.append_nil]

theorem get_join_single (p tail : List α) (a : α) (t : Patricia α β) :
    (join p (branch (Function.update (fun _ => empty) a (join tail t)) none)).get key =
      (join (p ++ a :: tail) t).get key := by
  have hsingle : (join p (branch (Function.update (fun _ => empty) a (join tail t)) none)).get key =
      (join p (join [a] (join tail t))).get key := by
    rw [get_join, get_join]
    congr 1
    funext k
    exact get_branch_single a _ k
  rw [hsingle, get_join_join, get_join_join]
  simp

theorem free_of_split {tail : List α} {a : α} {t : Patricia α β}
    (hhead : ∀ b, rest.head? = some b → (a :: tail).head? ≠ some b) (b : α)
    (hb : rest.head? = some b) : Function.update (fun _ => (empty : Patricia α β)) a t b = empty := by
  have hne : b ≠ a := fun h => hhead b hb (by rw [h]; rfl)
  rw [Function.update_of_ne hne]

end Get

section Insert

/-- An insertion is a point update of the map that the tree stands for. -/
theorem get_insert (t : Patricia α β) (key : List α) (v : β) (k : List α) :
    (t.insert key v).get k = if k = key then some v else t.get k := by
  induction t generalizing key k with
  | empty => rfl
  | leaf path old =>
    obtain ⟨hkey,hpath,hhead⟩ := split_spec key path
    unfold insert
    rcases hsplit : split key path with ⟨p,r,s⟩
    rw [hsplit] at hkey hpath hhead
    dsimp only at hkey hpath hhead ⊢
    cases s with
    | nil =>
      rw [List.append_nil] at hpath
      subst hpath
      cases r with
      | nil =>
        rw [List.append_nil] at hkey
        subst hkey
        by_cases h : k = key <;> simp [h]
      | cons b r =>
        dsimp only
        rw [get_join_place path (fun _ _ => rfl) (by simp), ← hkey]
        congr 1
        rw [get_leaf_join, get_join, get_join]
        congr 1
        funext q
        cases q <;> simp
    | cons a tail =>
      have hrest : (leaf tail old : Patricia α β) = join tail (leaf [] old) := by simp [join]
      cases r <;> dsimp only <;>
        rw [get_join_place p (free_of_split hhead) (by simp), ← hkey, hrest,
          get_join_single, ← hpath, ← get_leaf_join]
  | ext path child ih =>
    obtain ⟨hkey,hpath,hhead⟩ := split_spec key path
    unfold insert
    rcases hsplit : split key path with ⟨p,r,s⟩
    rw [hsplit] at hkey hpath hhead
    dsimp only at hkey hpath hhead ⊢
    cases s with
    | nil =>
      rw [List.append_nil] at hpath
      subst hpath
      dsimp only
      rw [get_ext, get_ext, hkey, ← bind_dropPrefix?]
      congr 1
      funext q
      exact ih r q
    | cons a tail =>
      dsimp only
      rw [get_join_place p (free_of_split hhead) (by simp), ← hkey, get_join_single,
        ← hpath, ← get_ext_join]
  | branch children value ih =>
    cases key with
    | nil => cases k <;> simp [insert]
    | cons a key =>
      cases k with
      | nil => simp [insert]
      | cons b k =>
        by_cases h : b = a
        · subst h
          simp [insert, ih]
        · simp [insert, h]

omit [DecidableEq α] in
theorem leaf_ne_empty (path : List α) (v : β) : leaf path v ≠ empty := by
  intro h
  cases h

omit [DecidableEq α] in
theorem ext_ne_empty (path : List α) (child : Patricia α β) : ext path child ≠ empty := by
  intro h
  cases h

theorem ne_empty_of_get {k : List α} (h : t.get k = some v) : t ≠ empty := by
  rintro rfl
  cases h

theorem insert_ne_empty (t : Patricia α β) (key : List α) (v : β) : t.insert key v ≠ empty := by
  have hget : (t.insert key v).get key = some v := by rw [get_insert, if_pos rfl]
  exact ne_empty_of_get hget

theorem IsBranch.insert (h : t.IsBranch) (key : List α) (v : β) : (t.insert key v).IsBranch := by
  cases t with
  | branch children value => cases key <;> trivial
  | empty => cases h
  | leaf => cases h
  | ext => cases h

omit [DecidableEq α] in
theorem IsBranch.ne_empty (h : t.IsBranch) : t ≠ empty := by
  rintro rfl
  cases h

omit [DecidableEq α] in
theorem Normal.join (h : t.Normal) (path : List α) : (join path t).Normal := by
  cases t with
  | empty => trivial
  | leaf q v => trivial
  | ext q child =>
    have hne : path ++ q ≠ [] := fun hnil => h.1 (List.append_eq_nil_iff.mp hnil).2
    exact ⟨hne,h.2⟩
  | branch children value =>
    by_cases hpath : path = []
    · rwa [Patricia.join, if_pos hpath]
    · rw [Patricia.join, if_neg hpath]
      exact ⟨hpath,trivial,h⟩

omit [DecidableEq α] in
theorem join_ne_empty (h : t ≠ empty) (path : List α) : Patricia.join path t ≠ empty := by
  cases t with
  | empty => exact absurd rfl h
  | leaf q v => exact nofun
  | ext q child => exact nofun
  | branch children value =>
    by_cases hpath : path = []
    · rwa [Patricia.join, if_pos hpath]
    · rw [Patricia.join, if_neg hpath]
      exact nofun

theorem Normal.update (hn : ∀ a, (children a).Normal) (a : α) (ht : t.Normal) (b : α) :
    (Function.update children a t b).Normal := by
  by_cases h : b = a
  · subst h
    rwa [Function.update_self]
  · rw [Function.update_of_ne h]
    exact hn b

theorem normal_place (hn : ∀ a, (children a).Normal)
    (hfork : ∃ a, children a ≠ empty ∧ rest.head? ≠ some a ∨ rest ≠ [] ∧ value ≠ none) :
    (place children value rest v).Normal := by
  cases rest with
  | nil =>
    obtain ⟨a,⟨ha,-⟩ | ⟨hne,-⟩⟩ := hfork
    · exact ⟨hn,a,ha,Or.inl nofun⟩
    · exact absurd rfl hne
  | cons b rest =>
    refine ⟨Normal.update hn b trivial,b,?_,?_⟩
    · rw [Function.update_self]
      exact nofun
    · obtain ⟨a,⟨ha,hhead⟩ | ⟨-,hvalue⟩⟩ := hfork
      · have hne : a ≠ b := fun h => hhead (by rw [h]; rfl)
        exact Or.inr ⟨a,hne,by rwa [Function.update_of_ne hne]⟩
      · exact Or.inl hvalue

theorem normal_place_single {tail : List α} {a : α} (ht : t.Normal) (hne : t ≠ empty)
    (hhead : ∀ b, rest.head? = some b → (a :: tail).head? ≠ some b) (path : List α) :
    (Patricia.join path
      (place (Function.update (fun _ => empty) a t) none rest v)).Normal := by
  have hempty : ∀ b : α, (empty : Patricia α β).Normal := fun _ => trivial
  refine Normal.join (normal_place (Normal.update hempty a ht) ⟨a,Or.inl ⟨?_,?_⟩⟩) path
  · rwa [Function.update_self]
  · exact fun h => hhead a h rfl

theorem Forks.update {a : α} (h : Forks children value) (ht : t ≠ empty) :
    Forks (Function.update children a t) value := by
  obtain ⟨b,hb,hrest⟩ := h
  have hkeeps : ∀ c, children c ≠ empty → Function.update children a t c ≠ empty := by
    intro c hc
    by_cases hca : c = a
    · subst hca
      rwa [Function.update_self]
    · rwa [Function.update_of_ne hca]
  refine ⟨b,hkeeps b hb,?_⟩
  rcases hrest with hvalue | ⟨c,hne,hc⟩
  · exact Or.inl hvalue
  · exact Or.inr ⟨c,hne,hkeeps c hc⟩

/-- Insertion keeps trees normal. -/
theorem Normal.insert (h : t.Normal) (key : List α) (v : β) : (t.insert key v).Normal := by
  induction t generalizing key with
  | empty => trivial
  | leaf path old =>
    obtain ⟨-,-,hhead⟩ := split_spec key path
    unfold Patricia.insert
    rcases hsplit : split key path with ⟨p,r,s⟩
    rw [hsplit] at hhead
    dsimp only at hhead ⊢
    cases s with
    | nil =>
      cases r with
      | nil => trivial
      | cons b r =>
        have hplace : (place (fun _ => empty) (some old) (b :: r) v).Normal :=
          normal_place (fun _ => trivial) ⟨b,Or.inr ⟨nofun,nofun⟩⟩
        exact hplace.join p
    | cons a tail =>
      have hplace := normal_place_single (t := leaf tail old) (v := v) trivial nofun hhead p
      cases r <;> exact hplace
  | ext path child ih =>
    obtain ⟨hne,hbranch,hchild⟩ := h
    obtain ⟨-,-,hhead⟩ := split_spec key path
    unfold Patricia.insert
    rcases hsplit : split key path with ⟨p,r,s⟩
    rw [hsplit] at hhead
    dsimp only at hhead ⊢
    cases s with
    | nil => exact ⟨hne,hbranch.insert r v,ih hchild r⟩
    | cons a tail =>
      exact normal_place_single (hchild.join tail) (join_ne_empty hbranch.ne_empty tail) hhead p
  | branch children value ih =>
    obtain ⟨hn,hfork⟩ := h
    cases key with
    | nil =>
      obtain ⟨a,ha,-⟩ := hfork
      exact ⟨hn,a,ha,Or.inl nofun⟩
    | cons a key =>
      exact ⟨Normal.update hn a (ih a (hn a) key),hfork.update (insert_ne_empty (children a) key v)⟩

end Insert

section Delete

theorem update_lone {a : α} (h : ∀ b, b ≠ a → children b = empty) :
    Function.update (fun _ => empty) a (children a) = children := by
  funext b
  by_cases hb : b = a
  · subst hb
    rw [Function.update_self]
  · rw [Function.update_of_ne hb, h b hb]

theorem get_collapse (children : α → Patricia α β) (value : Option β) (key : List α) :
    (collapse children value).get key = (branch children value).get key := by
  cases value with
  | some v =>
    rw [collapse]
    split
    · rename_i hall
      cases key with
      | nil => simp
      | cons a key => simp [hall]
    · rfl
  | none =>
    rw [collapse]
    split
    · rename_i hall
      cases key with
      | nil => rfl
      | cons a key => simp [hall]
    · split
      · rename_i hlone
        rw [← get_branch_single, update_lone hlone.choose_spec]
      · rfl

omit [DecidableEq α] in
theorem normal_collapse (hn : ∀ a, (children a).Normal) (value : Option β) :
    (collapse children value).Normal := by
  cases value with
  | some v =>
    rw [collapse]
    split
    · trivial
    · rename_i hsome
      obtain ⟨a,ha⟩ := not_forall.mp hsome
      exact ⟨hn,a,ha,Or.inl nofun⟩
  | none =>
    rw [collapse]
    split
    · trivial
    · rename_i hsome
      split
      · exact (hn _).join _
      · rename_i hmany
        obtain ⟨a,ha⟩ := not_forall.mp hsome
        obtain ⟨b,hb⟩ := not_forall.mp (not_exists.mp hmany a)
        obtain ⟨hne,hb⟩ := Classical.not_imp.mp hb
        exact ⟨hn,a,ha,Or.inr ⟨b,hne,hb⟩⟩

omit [DecidableEq α] in
theorem collapse_none (h : ∀ a, children a = empty) : collapse children none = empty := by
  rw [collapse, if_pos h]

omit [DecidableEq α] in
theorem collapse_some (h : ∀ a, children a = empty) (v : β) :
    collapse children (some v) = leaf [] v := by
  rw [collapse, if_pos h]

omit [DecidableEq α] in
theorem collapse_lone {a : α} (ha : children a ≠ empty) (h : ∀ b, b ≠ a → children b = empty) :
    collapse children none = join [a] (children a) := by
  have hsome : ¬ ∀ b, children b = empty := fun hall => ha (hall a)
  have hlone : ∃ b, ∀ c, c ≠ b → children c = empty := ⟨a,h⟩
  have hchoose : hlone.choose = a := by
    by_contra hne
    exact ha (hlone.choose_spec a (Ne.symm hne))
  rw [collapse, if_neg hsome, dif_pos hlone, hchoose]

omit [DecidableEq α] in
theorem collapse_of_forks (h : Forks children value) :
    collapse children value = branch children value := by
  obtain ⟨a,ha,hrest⟩ := h
  have hsome : ¬ ∀ b, children b = empty := fun hall => ha (hall a)
  cases value with
  | some v => rw [collapse, if_neg hsome]
  | none =>
    have hmany : ¬ ∃ b, ∀ c, c ≠ b → children c = empty := by
      rintro ⟨b,hb⟩
      obtain hvalue | ⟨c,hca,hc⟩ := hrest
      · exact hvalue rfl
      · by_cases hab : a = b
        · exact hc (hb c (hab ▸ hca))
        · exact ha (hb a hab)
    rw [collapse, if_neg hsome, dif_neg hmany]

theorem delete_eq_none (t : Patricia α β) (key : List α) :
    t.delete key = none ↔ t.get key = none := by
  induction t generalizing key with
  | empty => simp [delete]
  | leaf path v => by_cases h : key = path <;> simp [delete, h]
  | ext path child ih =>
    rw [delete, get_ext]
    cases key.dropPrefix? path with
    | none => simp
    | some rest => simp [ih]
  | branch children value ih =>
    cases key with
    | nil => simp [delete]
    | cons a key => simp [delete, ih]

/-- A deletion takes one key out of the map. -/
theorem get_delete (h : t.delete key = some u) (k : List α) :
    u.get k = if k = key then none else t.get k := by
  induction t generalizing key u k with
  | empty => cases h
  | leaf path v =>
    rw [delete] at h
    split at h
    · rename_i hkey
      cases h
      subst hkey
      by_cases hk : k = key <;> simp [hk]
    · cases h
  | ext path child ih =>
    rw [delete] at h
    obtain ⟨child',hchild,rfl⟩ := Option.map_eq_some_iff.mp h
    obtain ⟨rest,hrest,hdelete⟩ := Option.bind_eq_some_iff.mp hchild
    have hkey := dropPrefix?_eq_some.mp hrest
    rw [get_join, get_ext]
    cases hdrop : k.dropPrefix? path with
    | none =>
      have hne : k ≠ key := by
        rintro rfl
        rw [hrest] at hdrop
        cases hdrop
      simp [hne]
    | some q =>
      have hk := dropPrefix?_eq_some.mp hdrop
      have hiff : k = key ↔ q = rest := by
        rw [hk, hkey]
        exact List.append_cancel_left_eq ..|>.to_iff
      simp only [Option.bind_some, ih hdelete q, hiff]
  | branch children value ih =>
    cases key with
    | nil =>
      rw [delete] at h
      obtain ⟨v,-,rfl⟩ := Option.map_eq_some_iff.mp h
      rw [get_collapse]
      cases k <;> simp
    | cons a key =>
      rw [delete] at h
      obtain ⟨child,hchild,rfl⟩ := Option.map_eq_some_iff.mp h
      rw [get_collapse]
      cases k with
      | nil => simp
      | cons b k =>
        by_cases hb : b = a
        · subst hb
          simp [ih b hchild]
        · simp [hb]

/-- Deletion keeps trees normal: the rests are joined again. -/
theorem Normal.delete (hn : t.Normal) (h : t.delete key = some u) : u.Normal := by
  induction t generalizing key u with
  | empty => cases h
  | leaf path v =>
    rw [Patricia.delete] at h
    split at h
    · cases h
      trivial
    · cases h
  | ext path child ih =>
    rw [Patricia.delete] at h
    obtain ⟨child',hchild,rfl⟩ := Option.map_eq_some_iff.mp h
    obtain ⟨rest,-,hdelete⟩ := Option.bind_eq_some_iff.mp hchild
    exact (ih hn.2.2 hdelete).join path
  | branch children value ih =>
    cases key with
    | nil =>
      rw [Patricia.delete] at h
      obtain ⟨v,-,rfl⟩ := Option.map_eq_some_iff.mp h
      exact normal_collapse hn.1 none
    | cons a key =>
      rw [Patricia.delete] at h
      obtain ⟨child,hchild,rfl⟩ := Option.map_eq_some_iff.mp h
      exact normal_collapse (Normal.update hn.1 a (ih a (hn.1 a) hchild)) value

end Delete

section Canonical

def Has (t : Patricia α β) (key : List α) : Prop := t.get key ≠ none

theorem has_congr (h : ∀ key, t.get key = u.get key) (key : List α) : t.Has key ↔ u.Has key := by
  rw [Has, h, Has]

theorem has_join {p : List α} : (join p t).Has key ↔ ∃ rest, key = p ++ rest ∧ t.Has rest := by
  unfold Has
  rw [get_join]
  constructor
  · intro h
    cases hdrop : key.dropPrefix? p with
    | none =>
      rw [hdrop] at h
      exact absurd rfl h
    | some rest =>
      rw [hdrop] at h
      exact ⟨rest,dropPrefix?_eq_some.mp hdrop,h⟩
  · rintro ⟨rest,rfl,h⟩
    simpa using h

theorem has_ext : (ext path t).Has key ↔ ∃ rest, key = path ++ rest ∧ t.Has rest := by
  rw [← has_join, Has, get_ext_join, Has]

theorem has_leaf : (leaf path v).Has key ↔ key = path := by
  unfold Has
  by_cases h : key = path <;> simp [h]

/-- Two words of the tree that part at the first letter, or one of which ends there. -/
def Parts (t : Patricia α β) : Prop := ∃ k l, t.Has k ∧ t.Has l ∧ k.head? ≠ l.head?

theorem parts_congr (h : ∀ key, t.get key = u.get key) : t.Parts ↔ u.Parts := by
  simp only [Parts, has_congr h]

theorem Normal.has (hn : t.Normal) (hne : t ≠ empty) : ∃ key, t.Has key := by
  induction t with
  | empty => exact absurd rfl hne
  | leaf path v => exact ⟨path,has_leaf.mpr rfl⟩
  | ext path child ih =>
    obtain ⟨rest,hrest⟩ := ih hn.2.2 hn.2.1.ne_empty
    exact ⟨path ++ rest,has_ext.mpr ⟨rest,rfl,hrest⟩⟩
  | branch children value ih =>
    obtain ⟨hchildren,a,ha,-⟩ := hn
    obtain ⟨key,hkey⟩ := ih a (hchildren a) ha
    exact ⟨a :: key,hkey⟩

theorem Normal.parts (hn : (branch children value).Normal) : (branch children value).Parts := by
  obtain ⟨hchildren,a,ha,hrest⟩ := hn
  obtain ⟨k,hk⟩ := (hchildren a).has ha
  rcases hrest with hvalue | ⟨b,hba,hb⟩
  · exact ⟨a :: k,[],hk,hvalue,nofun⟩
  · obtain ⟨l,hl⟩ := (hchildren b).has hb
    exact ⟨a :: k,b :: l,hk,hl,by simp [Ne.symm hba]⟩

theorem Normal.value_eq_none (hn : (branch children value).Normal) {n : ℕ}
    (hlength : ∀ key, (branch children value).Has key → key.length = n) : value = none := by
  by_contra hvalue
  obtain ⟨hchildren,a,ha,-⟩ := hn
  obtain ⟨key,hkey⟩ := (hchildren a).has ha
  have hend := hlength [] hvalue
  have hlong := hlength (a :: key) hkey
  simp at hend hlong
  omega

theorem IsBranch.parts (hb : t.IsBranch) (hn : t.Normal) : t.Parts := by
  cases t with
  | branch children value => exact hn.parts
  | empty => cases hb
  | leaf => cases hb
  | ext => cases hb

theorem not_parts_leaf : ¬ (leaf path v : Patricia α β).Parts := by
  rintro ⟨k,l,hk,hl,hne⟩
  rw [has_leaf.mp hk, has_leaf.mp hl] at hne
  exact hne rfl

theorem not_parts_ext (hpath : path ≠ []) : ¬ (ext path t).Parts := by
  rintro ⟨k,l,hk,hl,hne⟩
  obtain ⟨r,rfl,-⟩ := has_ext.mp hk
  obtain ⟨s,rfl,-⟩ := has_ext.mp hl
  cases path with
  | nil => exact hpath rfl
  | cons a path => exact hne rfl

/-- A prefix of all the keys of an extension lies within its path, if its child parts. -/
theorem prefix_of_parts {p q : List α} (hparts : t.Parts)
    (h : ∀ key, (ext p t).Has key → q <+: key) : q <+: p := by
  obtain ⟨k,l,hk,hl,hne⟩ := hparts
  have hpk := h _ (has_ext.mpr ⟨k,rfl,hk⟩)
  have hpl := h _ (has_ext.mpr ⟨l,rfl,hl⟩)
  rcases List.prefix_or_prefix_of_prefix hpk (List.prefix_append p k) with hqp | ⟨s,rfl⟩
  · exact hqp
  · cases s with
    | nil => simp
    | cons a s =>
      rw [List.prefix_append_right_inj] at hpk hpl
      obtain ⟨r,rfl⟩ := hpk
      obtain ⟨r',rfl⟩ := hpl
      exact absurd rfl hne

theorem ext_path_eq {p q : List α} (ht : t.Parts) (hu : u.Parts)
    (h : ∀ key, (ext p t).get key = (ext q u).get key) : p = q := by
  have hhas := has_congr h
  have hqp : q <+: p := by
    refine prefix_of_parts ht ?_
    intro key hkey
    obtain ⟨r,rfl,-⟩ := has_ext.mp ((hhas key).mp hkey)
    exact List.prefix_append q r
  have hpq : p <+: q := by
    refine prefix_of_parts hu ?_
    intro key hkey
    obtain ⟨r,rfl,-⟩ := has_ext.mp ((hhas key).mpr hkey)
    exact List.prefix_append p r
  exact List.IsPrefix.eq_of_length_le hpq hqp.length_le

theorem Normal.ext (ht : t.Normal) (hu : u.Normal) (h : ∀ key, t.get key = u.get key) : t = u := by
  induction t generalizing u with
  | empty =>
    by_contra hne
    obtain ⟨key,hkey⟩ := hu.has (Ne.symm hne)
    exact (has_congr h key).mpr hkey rfl
  | leaf path v =>
    have hhas := has_congr h
    have hpath : u.get path = some v := by rw [← h, get_leaf, if_pos rfl]
    cases u with
    | empty => cases hpath
    | leaf q w =>
      have hq : q = path := has_leaf.mp ((hhas q).mpr (has_leaf.mpr rfl))
      subst hq
      simpa using hpath.symm
    | ext q child =>
      -- an extension has two words, a leaf one
      obtain ⟨k,l,hk,hl,hne⟩ := hu.2.1.parts hu.2.2
      have hk' := has_leaf.mp ((hhas _).mpr (has_ext.mpr ⟨k,rfl,hk⟩))
      have hl' := has_leaf.mp ((hhas _).mpr (has_ext.mpr ⟨l,rfl,hl⟩))
      rw [List.append_cancel_left (hk'.trans hl'.symm)] at hne
      exact absurd rfl hne
    | branch children value => exact absurd ((parts_congr h).mpr hu.parts) not_parts_leaf
  | ext path child ih =>
    obtain ⟨hpath,hbranch,hchild⟩ := ht
    have hchildparts := hbranch.parts hchild
    have hhas := has_congr h
    cases u with
    | empty =>
      obtain ⟨k,-,hk,-⟩ := hchildparts
      exact absurd rfl ((hhas _).mp (has_ext.mpr ⟨k,rfl,hk⟩))
    | leaf q w =>
      obtain ⟨k,l,hk,hl,hne⟩ := hchildparts
      have hk' := has_leaf.mp ((hhas _).mp (has_ext.mpr ⟨k,rfl,hk⟩))
      have hl' := has_leaf.mp ((hhas _).mp (has_ext.mpr ⟨l,rfl,hl⟩))
      rw [List.append_cancel_left (hk'.trans hl'.symm)] at hne
      exact absurd rfl hne
    | ext q child' =>
      have hq : path = q := ext_path_eq hchildparts (hu.2.1.parts hu.2.2) h
      subst hq
      have hget : ∀ key, child.get key = child'.get key := fun key => by simpa using h (path ++ key)
      rw [ih hchild hu.2.2 hget]
    | branch children value => exact absurd ((parts_congr h).mpr hu.parts) (not_parts_ext hpath)
  | branch children value ih =>
    have hmine : u.Parts := (parts_congr h).mp ht.parts
    cases u with
    | empty =>
      obtain ⟨k,-,hk,-⟩ := hmine
      exact absurd rfl hk
    | leaf q w => exact absurd hmine not_parts_leaf
    | ext q child => exact absurd hmine (not_parts_ext hu.1)
    | branch children' value' =>
      have hvalue : value = value' := h []
      have hchildren : children = children' := by
        funext a
        exact ih a (ht.1 a) (hu.1 a) (fun key => h (a :: key))
      rw [hvalue, hchildren]

end Canonical

section Subtrees

inductive Subtree : Patricia α β → Patricia α β → Prop where
  | refl (t : Patricia α β) : Subtree t t
  | ext {t child : Patricia α β} (path : List α) : Subtree t child → Subtree t (ext path child)
  | branch {t : Patricia α β} {children : α → Patricia α β} (value : Option β) (a : α) :
      Subtree t (children a) → Subtree t (branch children value)

omit [DecidableEq α] in
theorem Subtree.trans {s : Patricia α β} (h : Subtree s t) (h' : Subtree t u) : Subtree s u := by
  induction h' with
  | refl => exact h
  | ext path _ ih => exact .ext path ih
  | branch value a _ ih => exact .branch value a ih

/-- A value held in a subtree is held in the tree, under a longer key. -/
theorem Subtree.get (h : Subtree t u) (hv : t.get key = some v) : ∃ key, u.get key = some v := by
  induction h with
  | refl => exact ⟨key,hv⟩
  | ext path _ ih =>
    obtain ⟨rest,hrest⟩ := ih
    exact ⟨path ++ rest,by simp [hrest]⟩
  | branch value a _ ih =>
    obtain ⟨rest,hrest⟩ := ih
    exact ⟨a :: rest,hrest⟩

omit [DecidableEq α] in
theorem Subtree.normal (h : Subtree t u) (hu : u.Normal) : t.Normal := by
  induction h with
  | refl => exact hu
  | ext path _ ih => exact ih hu.2.2
  | branch value a _ ih => exact ih (hu.1 a)

end Subtrees

end Patricia

end ZbxChain
