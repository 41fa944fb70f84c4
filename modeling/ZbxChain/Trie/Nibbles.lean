import ZbxChain.Foundation.Patricia
import Mathlib.Data.Fin.Basic

/-! # Nibble paths and their compact encoding -/
namespace ZbxChain

/-- A path; `slice` of the source shares the bytes and moves an offset, which nothing can
tell from a copy. -/
abbrev Nibbles := List (Fin 16)

namespace Nibbles

/-- `b >> 4`. -/
def high (b : UInt8) : Fin 16 := ⟨b.toNat / 16,by have := b.toNat_lt; omega⟩

/-- `b & 0x0f`. -/
def low (b : UInt8) : Fin 16 := ⟨b.toNat % 16,Nat.mod_lt _ (by decide)⟩

/-- `(a << 4) | b`. -/
def pack (a b : Fin 16) : UInt8 := UInt8.ofNat (16 * a.val + b.val)

def fromBytes (bytes : List UInt8) : Nibbles := bytes.flatMap (fun b => [high b, low b])

/-- `at`, only ever called within the path. -/
def nibbleAt (n : Nibbles) (i : ℕ) : Fin 16 := n.getD i 0

def slice (n : Nibbles) (i : ℕ) : Nibbles := n.drop i

def commonPrefixLen : Nibbles → Nibbles → ℕ
  | a :: xs, b :: ys => if a = b then commonPrefixLen xs ys + 1 else 0
  | _, _ => 0

def single (nibble : Fin 16) : Nibbles := [nibble]

def sub (n : Nibbles) (start len : ℕ) : Nibbles := (n.drop start).take len

def concat (n m : Nibbles) : Nibbles := n ++ m

/-- The bytes of an even number of nibbles. -/
def packPairs : Nibbles → List UInt8
  | a :: b :: rest => pack a b :: packPairs rest
  | _ => []

def encodeCompact (n : Nibbles) (leaf : Bool) : List UInt8 :=
  let odd := n.length % 2 = 1
  let flag : UInt8 := (if leaf then 0x20 else 0x00) ||| (if odd then 0x10 else 0x00)
  if odd then (flag ||| UInt8.ofNat (n.nibbleAt 0).val) :: packPairs (n.drop 1)
  else flag :: packPairs n

/-- `decode_compact`; `none` where the source panics on empty bytes. -/
def decodeCompact (encoded : List UInt8) : Option (Nibbles × Bool) :=
  match encoded with
  | [] => none
  | flag :: rest =>
    let leaf := flag &&& 0x20 != 0
    let odd := flag &&& 0x10 != 0
    some ((if odd then [low flag] else []) ++ fromBytes rest,leaf)

theorem high_pack (a b : Fin 16) : high (pack a b) = a := by
  have hlt : 16 * a.val + b.val < 256 := by omega
  refine Fin.ext ?_
  simp only [high, pack, UInt8.toNat_ofNat', Nat.mod_eq_of_lt hlt]
  omega

theorem low_pack (a b : Fin 16) : low (pack a b) = b := by
  have hlt : 16 * a.val + b.val < 256 := by omega
  refine Fin.ext ?_
  simp only [low, pack, UInt8.toNat_ofNat', Nat.mod_eq_of_lt hlt]
  omega

theorem fromBytes_cons (b : UInt8) (bytes : List UInt8) :
    fromBytes (b :: bytes) = high b :: low b :: fromBytes bytes := rfl

theorem length_fromBytes (bytes : List UInt8) : (fromBytes bytes).length = 2 * bytes.length := by
  induction bytes with
  | nil => rfl
  | cons b bytes ih =>
    rw [fromBytes_cons]
    simp
    omega

theorem fromBytes_packPairs (n : Nibbles) (heven : n.length % 2 = 0) :
    fromBytes (packPairs n) = n := by
  induction n using packPairs.induct with
  | case1 a b rest ih =>
    have hrest : rest.length % 2 = 0 := by
      simp only [List.length_cons] at heven
      omega
    rw [packPairs, fromBytes_cons, high_pack, low_pack, ih hrest]
  | case2 n hshort =>
    cases n with
    | nil => rfl
    | cons a rest =>
      cases rest with
      | nil => simp at heven
      | cons b rest => exact absurd rfl (hshort a b rest)

theorem odd_flag (leaf : Bool) (a : Fin 16) :
    let flag : UInt8 := ((if leaf then 0x20 else 0x00) ||| 0x10) ||| UInt8.ofNat a.val
    (flag &&& 0x20 != 0) = leaf ∧ (flag &&& 0x10 != 0) = true ∧ low flag = a := by
  revert leaf a
  decide

theorem even_flag (leaf : Bool) :
    let flag : UInt8 := (if leaf then 0x20 else 0x00) ||| 0x00
    (flag &&& 0x20 != 0) = leaf ∧ (flag &&& 0x10 != 0) = false := by
  revert leaf
  decide

/-- The compact encoding reads back. -/
theorem decodeCompact_encodeCompact (n : Nibbles) (leaf : Bool) :
    decodeCompact (encodeCompact n leaf) = some (n,leaf) := by
  unfold encodeCompact
  by_cases hodd : n.length % 2 = 1
  · cases n with
    | nil => simp at hodd
    | cons a rest =>
      have hrest : rest.length % 2 = 0 := by
        simp only [List.length_cons] at hodd
        omega
      obtain ⟨hleaf,hflag,hlow⟩ := odd_flag leaf a
      have hnibble : nibbleAt (a :: rest) 0 = a := rfl
      simp only [hodd, if_true, decodeCompact, hnibble, hleaf, hflag, hlow, List.drop_one,
        List.tail_cons, fromBytes_packPairs rest hrest]
      rfl
  · obtain ⟨hleaf,hflag⟩ := even_flag leaf
    simp only [hodd, if_false, decodeCompact, hleaf, hflag, Bool.false_eq_true, List.nil_append,
      fromBytes_packPairs n (by omega)]

theorem fromBytes_inj {bytes bytes' : List UInt8} (h : fromBytes bytes = fromBytes bytes') :
    bytes = bytes' := by
  induction bytes generalizing bytes' with
  | nil =>
    cases bytes' with
    | nil => rfl
    | cons b bytes' => cases h
  | cons b bytes ih =>
    cases bytes' with
    | nil => cases h
    | cons b' bytes' =>
      rw [fromBytes_cons, fromBytes_cons] at h
      obtain ⟨hhigh,htail⟩ := List.cons.inj h
      obtain ⟨hlow,hrest⟩ := List.cons.inj htail
      have hb : b = b' := by
        have h1 : b.toNat / 16 = b'.toNat / 16 := congrArg Fin.val hhigh
        have h2 : b.toNat % 16 = b'.toNat % 16 := congrArg Fin.val hlow
        refine UInt8.toNat_inj.mp ?_
        omega
      rw [hb, ih hrest]

theorem drop_eq_cons {key : Nibbles} {i : ℕ} (h : i < key.length) :
    key.drop i = key.nibbleAt i :: key.drop (i + 1) := by
  rw [List.drop_eq_getElem_cons h, nibbleAt, List.getD_eq_getElem?_getD,
    List.getElem?_eq_getElem h, Option.getD_some]

theorem sub_eq_drop (key : Nibbles) (i : ℕ) :
    key.sub (i + 1) (key.length - i - 1) = key.drop (i + 1) := by
  refine List.take_of_length_le ?_
  rw [List.length_drop]
  omega

theorem split_eq (xs ys : Nibbles) :
    Patricia.split xs ys =
      (xs.take (commonPrefixLen xs ys),xs.drop (commonPrefixLen xs ys),
        ys.drop (commonPrefixLen xs ys)) := by
  induction xs generalizing ys with
  | nil => simp [Patricia.split, commonPrefixLen]
  | cons a xs ih =>
    cases ys with
    | nil => simp [Patricia.split, commonPrefixLen]
    | cons b ys =>
      by_cases h : a = b
      · simp [Patricia.split, commonPrefixLen, h, ih]
      · simp [Patricia.split, commonPrefixLen, h]

theorem commonPrefixLen_le (xs ys : Nibbles) :
    commonPrefixLen xs ys ≤ xs.length ∧ commonPrefixLen xs ys ≤ ys.length := by
  induction xs generalizing ys with
  | nil => simp [commonPrefixLen]
  | cons a xs ih =>
    cases ys with
    | nil => simp [commonPrefixLen]
    | cons b ys =>
      have := ih ys
      unfold commonPrefixLen
      split
      · simp only [List.length_cons]
        omega
      · simp

theorem dropPrefix?_eq (key path : Nibbles) :
    key.dropPrefix? path =
      if commonPrefixLen key path = path.length then some (key.drop path.length) else none := by
  obtain ⟨hkey,hpath,hhead⟩ := Patricia.split_spec key path
  rw [split_eq] at hkey hpath hhead
  dsimp only at hkey hpath hhead
  split
  · rename_i hall
    rw [hall] at hkey hpath
    rw [List.drop_length, List.append_nil] at hpath
    rw [Patricia.dropPrefix?_eq_some]
    calc key = key.take path.length ++ key.drop path.length := hkey
      _ = path ++ key.drop path.length := by rw [← hpath]
  · rename_i hsome
    rw [← Option.not_isSome_iff_eq_none, Option.isSome_iff_exists]
    rintro ⟨rest,hrest⟩
    rw [Patricia.dropPrefix?_eq_some] at hrest
    refine hsome ?_
    have hsplit := Patricia.split_append path rest [] (fun _ _ => nofun)
    rw [List.append_nil, ← hrest, split_eq] at hsplit
    have hnil := congrArg (fun x => x.2.2.length) hsplit
    have hle := commonPrefixLen_le key path
    simp only [List.length_drop, List.length_nil] at hnil
    omega

theorem eq_path_iff (key path : Nibbles) :
    commonPrefixLen key path = path.length ∧ path.length = key.length ↔ key = path := by
  have hdrop := dropPrefix?_eq key path
  constructor
  · rintro ⟨hall,hlen⟩
    rw [if_pos hall, hlen, List.drop_length, Patricia.dropPrefix?_eq_some, List.append_nil] at hdrop
    exact hdrop
  · rintro rfl
    refine ⟨?_,rfl⟩
    by_contra hne
    have hself := Patricia.dropPrefix?_append key []
    rw [List.append_nil, hdrop, if_neg hne] at hself
    cases hself

end Nibbles

end ZbxChain
