import ZbxChain.Rlp.RoundTrip

/-! # Which byte strings decode to one value

What the decoder reads of an item is its payload. What it does not read again is the form
of the header the payload stood behind, and the bytes after the item. With these two put
back next to the tree, the byte string can be written out again, so two byte strings with
one tree are the same exactly when their header forms and their trailing bytes are.
-/
namespace ZbxChain

/-- The header forms of an item, for strings and for lists. -/
inductive HeaderForm where
  | single
  | short
  | long
  deriving DecidableEq, Repr

/-- The header forms all over a tree. -/
inductive RlpForms where
  | bytes (form : HeaderForm)
  | list (form : HeaderForm) (items : List RlpForms)

namespace Rlp
open RlpItem RlpStream Bytes

def headerForm (rlp : Rlp) : HeaderForm :=
  match rlp.data with
  | [] => .single
  | b :: _ =>
    if b.toNat < 128 then .single
    else if b.toNat < 184 then .short
    else if b.toNat < 192 then .long
    else if b.toNat < 248 then .short
    else .long

/-- The header forms met by `readItem` on its way. -/
def readForms : ℕ → Rlp → Option RlpForms
  | 0, _ => none
  | fuel + 1, rlp =>
    if rlp.isList then do
      let count ← rlp.itemCount.toOption
      let forms ← (List.range count).mapM (fun i => do
        let item ← (rlp.itemAt i).toOption
        readForms fuel item)
      some (.list rlp.headerForm forms)
    else rlp.asBytes.toOption.map (fun _ => .bytes rlp.headerForm)

/-- The header of one form in front of `len` bytes. -/
def headerBytes (isList : Bool) (form : HeaderForm) (len : ℕ) : List UInt8 :=
  match form with
  | .single => []
  | .short => [UInt8.ofNat ((if isList then 192 else 128) + len)]
  | .long =>
    let lenBytes := minimalBytes (UInt64.ofNat len)
    UInt8.ofNat ((if isList then 247 else 183) + lenBytes.length) :: lenBytes

mutual
/-- The item written with the given header forms. -/
def encodeWith : RlpForms → RlpItem → List UInt8
  | .bytes form, .bytes data => headerBytes false form data.length ++ data
  | .list form forms, .list items =>
    headerBytes true form (encodeAllWith forms items).length ++ encodeAllWith forms items
  | .bytes _, .list _ => []
  | .list _ _, .bytes _ => []

def encodeAllWith : List RlpForms → List RlpItem → List UInt8
  | form :: forms, item :: items => encodeWith form item ++ encodeAllWith forms items
  | [], _ => []
  | _ :: _, [] => []
end

section LengthBytes

theorem minimalBytes_of_decodeLength {bytes : List UInt8} {n : ℕ} (hlen : bytes.length ≤ 8)
    (h : decodeLength bytes = .ok n) : bytes = minimalBytes (UInt64.ofNat n) := by
  cases bytes with
  | nil => cases h
  | cons b tail =>
    rw [decodeLength] at h
    by_cases hb : b = 0
    · rw [if_pos hb] at h
      cases h
    · have hpow : (0 + 1) * 256 ^ (b :: tail).length ≤ 2 ^ 64 := by
        have : 256 ^ (b :: tail).length ≤ 256 ^ 8 := Nat.pow_le_pow_right (by decide) hlen
        omega
      rw [if_neg hb, foldl_pushLength _ hpow, Nat.zero_mul, Nat.zero_add] at h
      have hvalue : ofBytesBE (b :: tail) = n := Except.ok.inj h
      have hlt : n < 2 ^ 64 := by
        have := ofBytesBE_lt (b :: tail)
        omega
      have hpad := bytesBE_replicate (8 - (b :: tail).length) (b :: tail)
      have hnat : (UInt64.ofNat n).toNat = n := by
        rw [UInt64.toNat_ofNat']
        exact Nat.mod_eq_of_lt hlt
      rw [Nat.sub_add_cancel hlen, hvalue] at hpad
      rw [minimalBytes, beBytes64, hnat, hpad,
        List.dropWhile_append_of_pos (by simp [List.mem_replicate]), List.dropWhile_cons,
        if_neg (by simpa using hb)]

theorem toNat_foldl_shift (bytes : List UInt8) (val : UInt64) :
    (bytes.foldl (fun (val : UInt64) (b : UInt8) => (val <<< 8) ||| b.toUInt64) val).toNat =
      bytes.foldl pushLength val.toNat := by
  induction bytes generalizing val with
  | nil => rfl
  | cons b bytes ih =>
    have hstep : ((val <<< 8) ||| b.toUInt64).toNat = pushLength val.toNat b := by
      rw [UInt64.toNat_or, UInt64.toNat_shiftLeft, UInt8.toNat_toUInt64]
      rfl
    rw [List.foldl_cons, List.foldl_cons, ih, hstep]

end LengthBytes

section Payloads
variable {data payload rest : List UInt8} {b : UInt8}

theorem headerForm_cons (b : UInt8) (tail : List UInt8) :
    headerForm ⟨b :: tail⟩ =
      if b.toNat < 128 then .single
      else if b.toNat < 184 then .short
      else if b.toNat < 192 then .long
      else if b.toNat < 248 then .short
      else .long := rfl

theorem checkedAdd_ok {x y z : ℕ} (h : checkedAdd x y = .ok z) : x + y = z := by
  unfold checkedAdd at h
  split at h
  · exact Except.ok.inj h
  · cases h

theorem shortPayload_split {len : ℕ} (h : shortPayload (b :: data) len = .ok (payload,rest)) :
    data = payload ++ rest ∧ payload.length = len := by
  unfold shortPayload at h
  split at h
  · cases h
  · rename_i hfit
    cases h
    rw [List.length_cons] at hfit
    have hslice : slice (b :: data) 1 (1 + len) = data.take len := by
      rw [slice, List.drop_one, List.tail_cons, Nat.add_sub_cancel_left]
    have hdrop : (b :: data).drop (1 + len) = data.drop len := by
      rw [Nat.add_comm, List.drop_succ_cons]
    rw [hslice, hdrop, List.take_append_drop, List.length_take]
    exact ⟨rfl,by omega⟩

theorem longPayload_split {lenBytes : ℕ}
    (h : longPayload (b :: data) lenBytes = .ok (payload,rest)) :
    ∃ bytes, bytes.length = lenBytes ∧ data = bytes ++ payload ++ rest ∧
      decodeLength bytes = .ok payload.length := by
  unfold longPayload at h
  split at h
  · cases h
  rename_i hheader
  rw [List.length_cons] at hheader
  have hbytes : slice (b :: data) 1 (1 + lenBytes) = data.take lenBytes := by
    rw [slice, List.drop_one, List.tail_cons, Nat.add_sub_cancel_left]
  rw [hbytes] at h
  cases hdecode : decodeLength (data.take lenBytes) with
  | error e =>
    rw [hdecode] at h
    cases h
  | ok len =>
    simp only [hdecode, bind, Except.bind] at h
    cases hone : checkedAdd 1 lenBytes with
    | error e =>
      rw [hone] at h
      cases h
    | ok header =>
    obtain rfl := checkedAdd_ok hone
    simp only [hone] at h
    cases htwo : checkedAdd (1 + lenBytes) len with
    | error e =>
      rw [htwo] at h
      cases h
    | ok stop =>
    obtain rfl := checkedAdd_ok htwo
    simp only [htwo] at h
    split at h
    · cases h
    rename_i hstop
    have hfit : lenBytes + len ≤ data.length := by
      rw [List.length_cons] at hstop
      omega
    have hslice : slice (b :: data) (1 + lenBytes) (1 + lenBytes + len) =
        (data.drop lenBytes).take len := by
      rw [slice, Nat.add_sub_cancel_left, Nat.add_comm, List.drop_succ_cons]
    have hdrop : (b :: data).drop (1 + lenBytes + len) = (data.drop lenBytes).drop len := by
      rw [List.drop_drop, Nat.add_assoc, Nat.add_comm, List.drop_succ_cons]
    simp only [pure, Except.pure, hslice, hdrop] at h
    cases h
    refine ⟨data.take lenBytes,by rw [List.length_take]; omega,?_,?_⟩
    · rw [List.append_assoc, List.take_append_drop, List.take_append_drop]
    · rw [hdecode, List.length_take, List.length_drop]
      exact congrArg Except.ok (by omega)

theorem splitPayload_split (h : splitPayload ⟨data⟩ = .ok (payload,rest)) :
    data = headerBytes false (headerForm ⟨data⟩) payload.length ++ payload ++ rest := by
  cases data with
  | nil => cases h
  | cons b data =>
    rw [splitPayload_eq] at h
    rw [headerForm_cons]
    split_ifs at h ⊢ with h1 h2 h3
    · cases h
      rfl
    · obtain ⟨hdata,hlen⟩ := shortPayload_split h
      have hb : UInt8.ofNat (128 + payload.length) = b := by
        rw [hlen, Nat.add_sub_cancel' (by omega), UInt8.ofNat_toNat]
      rw [headerBytes, if_neg Bool.false_ne_true, hb, hdata]
      rfl
    · obtain ⟨bytes,hbytes,hdata,hdecode⟩ := longPayload_split h
      have hmin := minimalBytes_of_decodeLength (by omega) hdecode
      have hb : UInt8.ofNat (183 + bytes.length) = b := by
        rw [hbytes, Nat.add_sub_cancel' (by omega), UInt8.ofNat_toNat]
      simp only [headerBytes, if_neg Bool.false_ne_true]
      rw [← hmin, hb, hdata]
      rfl

theorem listPayload_split (hlist : isList ⟨data⟩ = true)
    (h : listPayload ⟨data⟩ = .ok (payload,rest)) :
    data = headerBytes true (headerForm ⟨data⟩) payload.length ++ payload ++ rest := by
  cases data with
  | nil => cases hlist
  | cons b data =>
    rw [isList_cons, decide_eq_true_iff] at hlist
    rw [listPayload_eq, if_neg (by omega)] at h
    rw [headerForm_cons, if_neg (by omega), if_neg (by omega), if_neg (by omega)]
    split_ifs at h ⊢ with h1
    · obtain ⟨hdata,hlen⟩ := shortPayload_split h
      have hb : UInt8.ofNat (192 + payload.length) = b := by
        rw [hlen, Nat.add_sub_cancel' (by omega), UInt8.ofNat_toNat]
      rw [headerBytes, if_pos rfl, hb, hdata]
      rfl
    · obtain ⟨bytes,hbytes,hdata,hdecode⟩ := longPayload_split h
      have hmin := minimalBytes_of_decodeLength (by
        have := b.toNat_lt
        omega) hdecode
      have hb : UInt8.ofNat (247 + bytes.length) = b := by
        rw [hbytes, Nat.add_sub_cancel' (by omega), UInt8.ofNat_toNat]
      simp only [headerBytes, if_true]
      rw [← hmin, hb, hdata]
      rfl

end Payloads

section Items
variable {bytes : List UInt8}

theorem length_slice {data : List UInt8} {pos len : ℕ} (h : pos + len ≤ data.length) :
    (slice data pos (pos + len)).length = len := by
  rw [slice, List.length_take, List.length_drop]
  omega

/-- A long header that fits is read again at the start of the slice it measured. -/
theorem longPayload_slice {pos lenBytes itemLen : ℕ}
    (h : longLength bytes pos lenBytes = .ok itemLen) (hfit : pos + itemLen ≤ bytes.length) :
    0 < itemLen ∧ ∃ payload,
      longPayload (slice bytes pos (pos + itemLen)) lenBytes = .ok (payload,[]) := by
  unfold longLength at h
  split at h
  · cases h
  simp only [bind, Except.bind] at h
  cases hdecode : decodeLength (slice bytes (pos + 1) (pos + 1 + lenBytes)) with
  | error e =>
    rw [hdecode] at h
    cases h
  | ok len =>
  simp only [hdecode] at h
  cases hone : checkedAdd 1 lenBytes with
  | error e =>
    rw [hone] at h
    cases h
  | ok header =>
  simp only [hone] at h
  obtain rfl := checkedAdd_ok hone
  obtain rfl := checkedAdd_ok h
  have hlen := length_slice hfit
  have hbytes : slice (slice bytes pos (pos + (1 + lenBytes + len))) 1 (1 + lenBytes) =
      slice bytes (pos + 1) (pos + 1 + lenBytes) := by
    simp only [slice, Nat.add_sub_cancel_left, List.drop_take, List.take_take, List.drop_drop]
    rw [Nat.min_eq_left (by omega)]
  have hdrop : (slice bytes pos (pos + (1 + lenBytes + len))).drop (1 + lenBytes + len) = [] :=
    List.drop_eq_nil_of_le (by omega)
  refine ⟨by omega,slice (slice bytes pos (pos + (1 + lenBytes + len))) (1 + lenBytes)
    (1 + lenBytes + len),?_⟩
  rw [longPayload, if_neg (by omega), hbytes, hdecode]
  simp only [bind, Except.bind, hone, h]
  rw [if_neg (by omega), hdrop]
  rfl

theorem shortPayload_slice {pos n : ℕ} (hfit : pos + (1 + n) ≤ bytes.length) :
    ∃ payload, shortPayload (slice bytes pos (pos + (1 + n))) n = .ok (payload,[]) := by
  have hlen := length_slice hfit
  have hdrop : (slice bytes pos (pos + (1 + n))).drop (1 + n) = [] :=
    List.drop_eq_nil_of_le (by omega)
  refine ⟨slice (slice bytes pos (pos + (1 + n))) 1 (1 + n),?_⟩
  rw [shortPayload, if_neg (by omega), hdrop]
  rfl

theorem slice_cons {pos len : ℕ} {b : UInt8} (hget : bytes[pos]? = some b) (hpos : 0 < len) :
    ∃ tail, slice bytes pos (pos + len) = b :: tail := by
  obtain ⟨n,rfl⟩ := Nat.exists_eq_add_one_of_ne_zero (Nat.ne_of_gt hpos)
  obtain ⟨hlt,hb⟩ := List.getElem?_eq_some_iff.mp hget
  refine ⟨(bytes.drop (pos + 1)).take n,?_⟩
  rw [slice, Nat.add_sub_cancel_left, List.drop_eq_getElem_cons hlt, hb, List.take_succ_cons]

theorem itemLength_ok {pos itemLen : ℕ} (h : itemLength bytes pos = .ok itemLen) :
    ∃ b, bytes[pos]? = some b ∧ headLength bytes pos b = .ok itemLen ∧
      pos + itemLen ≤ bytes.length := by
  unfold itemLength at h
  cases hget : bytes[pos]? with
  | none =>
    rw [hget] at h
    cases h
  | some b =>
  simp only [hget, bind, Except.bind] at h
  cases hhead : headLength bytes pos b with
  | error e =>
    rw [hhead] at h
    cases h
  | ok len =>
  simp only [hhead] at h
  cases hadd : checkedAdd pos len with
  | error e =>
    rw [hadd] at h
    cases h
  | ok stop =>
  obtain rfl := checkedAdd_ok hadd
  simp only [hadd] at h
  split at h
  · cases h
  · rename_i hstop
    cases h
    exact ⟨b,rfl,hhead,Nat.le_of_not_lt hstop⟩

/-- An item that is measured leaves nothing over when it is cut out. -/
theorem remaining_slice {pos itemLen : ℕ} (h : itemLength bytes pos = .ok itemLen) :
    0 < itemLen ∧ remaining ⟨slice bytes pos (pos + itemLen)⟩ = .ok [] := by
  obtain ⟨b,hget,hhead,hfit⟩ := itemLength_ok h
  rw [headLength_eq] at hhead
  split_ifs at hhead with h1 h2 h3 h4
  · cases hhead
    have hlen := length_slice hfit
    obtain ⟨tail,htail⟩ := slice_cons hget Nat.one_pos
    rw [htail, List.length_cons] at hlen
    have hnil : tail = [] := List.length_eq_zero_iff.mp (by omega)
    refine ⟨Nat.one_pos,?_⟩
    rw [htail, hnil, remaining, isList_cons, if_neg (by simp; omega), splitPayload_eq, if_pos h1]
    rfl
  · obtain rfl := Except.ok.inj hhead
    have hpos : 0 < 1 + (b.toNat - 128) := Nat.lt_of_lt_of_le Nat.one_pos (Nat.le_add_right _ _)
    obtain ⟨tail,htail⟩ := slice_cons hget hpos
    obtain ⟨payload,hpayload⟩ := shortPayload_slice hfit
    refine ⟨hpos,?_⟩
    rw [htail] at hpayload ⊢
    rw [remaining, isList_cons, if_neg (by simp; omega), splitPayload_eq, if_neg h1, if_pos h2,
      hpayload]
    rfl
  · obtain ⟨hpos,payload,hpayload⟩ := longPayload_slice hhead hfit
    obtain ⟨tail,htail⟩ := slice_cons hget hpos
    refine ⟨hpos,?_⟩
    rw [htail] at hpayload ⊢
    rw [remaining, isList_cons, if_neg (by simp; omega), splitPayload_eq, if_neg h1, if_neg h2,
      if_pos h3, hpayload]
    rfl
  · obtain rfl := Except.ok.inj hhead
    have hpos : 0 < 1 + (b.toNat - 192) := Nat.lt_of_lt_of_le Nat.one_pos (Nat.le_add_right _ _)
    obtain ⟨tail,htail⟩ := slice_cons hget hpos
    obtain ⟨payload,hpayload⟩ := shortPayload_slice hfit
    refine ⟨hpos,?_⟩
    rw [htail] at hpayload ⊢
    rw [remaining, isList_cons, if_pos (by simp; omega), listPayload_eq, if_neg h3, if_pos h4,
      hpayload]
    rfl
  · obtain ⟨hpos,payload,hpayload⟩ := longPayload_slice hhead hfit
    obtain ⟨tail,htail⟩ := slice_cons hget hpos
    refine ⟨hpos,?_⟩
    rw [htail] at hpayload ⊢
    rw [remaining, isList_cons, if_pos (by simp; omega), listPayload_eq, if_neg h3, if_neg h4,
      hpayload]
    rfl

/-- The items that the loops of `item_count` and `at` find from `pos` on. -/
structure Walk (bytes : List UInt8) (pos : ℕ) (slices : List (List UInt8)) : Prop where
  cover : bytes.drop pos = slices.flatten
  whole : ∀ item ∈ slices, remaining ⟨item⟩ = .ok []
  found : ∀ (n idx fuel : ℕ) (item : List UInt8), bytes.length - pos < fuel → idx ≤ n →
    slices[n - idx]? = some item → atLoop bytes n fuel pos idx = .ok ⟨item⟩

theorem walk_of_countLoop {fuel pos count total : ℕ} (hfuel : bytes.length - pos < fuel)
    (h : countLoop bytes fuel pos count = .ok total) :
    ∃ slices, Walk bytes pos slices ∧ total = count + slices.length := by
  induction fuel generalizing pos count with
  | zero => omega
  | succ fuel ih =>
    rw [countLoop] at h
    by_cases hpos : pos < bytes.length
    · rw [if_pos hpos] at h
      cases hitem : itemLength bytes pos with
      | error e =>
        rw [hitem] at h
        cases h
      | ok itemLen =>
        rw [hitem] at h
        simp only [bind, Except.bind] at h
        obtain ⟨hlen,hwhole⟩ := remaining_slice hitem
        obtain ⟨slices,hwalk,htotal⟩ := ih (by omega) h
        refine ⟨slice bytes pos (pos + itemLen) :: slices,⟨?_,?_,?_⟩,?_⟩
        · rw [List.flatten_cons, ← hwalk.cover, slice, Nat.add_sub_cancel_left, ← List.drop_drop,
            List.take_append_drop]
        · intro item hmem
          rcases List.mem_cons.mp hmem with rfl | hmem
          · exact hwhole
          · exact hwalk.whole item hmem
        · intro n idx fuel' item hfuel' hidx hget
          obtain ⟨fuel',rfl⟩ := Nat.exists_eq_add_one_of_ne_zero (Nat.ne_of_gt (Nat.zero_lt_of_lt hfuel'))
          rw [atLoop, if_pos hpos, hitem]
          simp only [bind, Except.bind]
          by_cases hn : idx = n
          · rw [hn, Nat.sub_self, List.getElem?_cons_zero] at hget
            rw [if_pos hn, Option.some.inj hget]
            rfl
          · have hnext : n - idx = (n - (idx + 1)) + 1 := by omega
            rw [hnext, List.getElem?_cons_succ] at hget
            rw [if_neg hn]
            exact hwalk.found n (idx + 1) fuel' item (by omega) (by omega) hget
        · rw [htotal, List.length_cons]
          omega
    · rw [if_neg hpos] at h
      cases h
      refine ⟨[],⟨?_,?_,?_⟩,rfl⟩
      · exact List.drop_eq_nil_of_le (Nat.le_of_not_lt hpos)
      · intro item hmem
        cases hmem
      · intro n idx fuel' item _ _ hget
        cases hget

theorem itemCount_split {data : List UInt8} {count : ℕ} (hlist : isList ⟨data⟩ = true)
    (h : itemCount ⟨data⟩ = .ok count) :
    ∃ (payload rest : List UInt8) (slices : List (List UInt8)),
      listPayload ⟨data⟩ = .ok (payload,rest) ∧ payload = slices.flatten ∧ count = slices.length ∧
      (∀ item ∈ slices, remaining ⟨item⟩ = .ok []) ∧
      ∀ n item, slices[n]? = some item → itemAt ⟨data⟩ n = .ok ⟨item⟩ := by
  cases data with
  | nil => cases hlist
  | cons b tail =>
    have hb : ¬ b < 0xc0 := by
      have hge : 0xc0 ≤ b := by simpa [isList] using hlist
      exact UInt8.not_lt.mpr hge
    rw [itemCount] at h
    simp only [if_neg hb] at h
    cases hpayload : listPayload ⟨b :: tail⟩ with
    | error e =>
      rw [hpayload] at h
      cases h
    | ok split =>
      obtain ⟨payload,rest⟩ := split
      rw [hpayload] at h
      obtain ⟨slices,hwalk,htotal⟩ := walk_of_countLoop (Nat.lt_succ_of_le (Nat.sub_le _ _)) h
      refine ⟨payload,rest,slices,rfl,hwalk.cover,by omega,hwalk.whole,?_⟩
      intro n item hget
      rw [itemAt, hpayload]
      exact hwalk.found n 0 _ item (Nat.lt_succ_of_le (Nat.sub_le _ _)) (Nat.zero_le n) hget

end Items

section Trees

theorem mapM_cons_some {α β : Type} {f : α → Option β} {x : α} {xs : List α} {ys : List β}
    (h : (x :: xs).mapM f = some ys) :
    ∃ y tail, f x = some y ∧ xs.mapM f = some tail ∧ ys = y :: tail := by
  rw [List.mapM_cons] at h
  cases hx : f x with
  | none =>
    rw [hx] at h
    cases h
  | some y =>
    cases hxs : xs.mapM f with
    | none =>
      rw [hx, hxs] at h
      cases h
    | some tail =>
      rw [hx, hxs] at h
      exact ⟨y,tail,rfl,rfl,(Option.some.inj h).symm⟩

theorem mapM_unique {α β : Type} {f g : α → Option β} {xs : List α} {ys zs : List β}
    (heq : ∀ x y z, f x = some y → g x = some z → y = z) (hf : xs.mapM f = some ys)
    (hg : xs.mapM g = some zs) : ys = zs := by
  induction xs generalizing ys zs with
  | nil =>
    cases hf
    cases hg
    rfl
  | cons x xs ih =>
    obtain ⟨y,ys,hy,hys,rfl⟩ := mapM_cons_some hf
    obtain ⟨z,zs,hz,hzs,rfl⟩ := mapM_cons_some hg
    rw [heq x y z hy hz, ih hys hzs]

theorem mapM_itemAt {α : Type} {data : List UInt8} {slices : List (List UInt8)}
    (f : Rlp → Option α)
    (hat : ∀ n item, slices[n]? = some item → itemAt ⟨data⟩ n = .ok ⟨item⟩) :
    (List.range slices.length).mapM (fun i => (itemAt ⟨data⟩ i).toOption.bind f) =
      slices.mapM (fun item => f ⟨item⟩) := by
  rw [List.range_eq_range']
  apply mapM_range_eq
  intro i item hi
  rw [Nat.zero_add, hat i item hi]
  rfl

theorem readForms_unique {fuel fuel' : ℕ} {rlp : Rlp} {forms forms' : RlpForms}
    (h : readForms fuel rlp = some forms) (h' : readForms fuel' rlp = some forms') :
    forms = forms' := by
  induction fuel generalizing fuel' rlp forms forms' with
  | zero => cases h
  | succ fuel ih =>
    cases fuel' with
    | zero => cases h'
    | succ fuel' =>
      rw [readForms] at h h'
      by_cases hlist : rlp.isList
      · rw [if_pos hlist] at h h'
        cases hcount : rlp.itemCount with
        | error e =>
          rw [hcount] at h
          cases h
        | ok count =>
          rw [hcount] at h h'
          obtain ⟨_,hc,h⟩ := Option.bind_eq_some_iff.mp h
          obtain ⟨_,hc',h'⟩ := Option.bind_eq_some_iff.mp h'
          cases hc
          cases hc'
          obtain ⟨items,hitems,hforms⟩ := Option.bind_eq_some_iff.mp h
          obtain ⟨items',hitems',hforms'⟩ := Option.bind_eq_some_iff.mp h'
          have hsame : items = items' := by
            refine mapM_unique ?_ hitems hitems'
            intro i y z hy hz
            obtain ⟨item,hitem,hy⟩ := Option.bind_eq_some_iff.mp hy
            obtain ⟨item',hitem',hz⟩ := Option.bind_eq_some_iff.mp hz
            obtain rfl := Option.some.inj (hitem.symm.trans hitem')
            exact ih hy hz
          rw [← Option.some.inj hforms, ← Option.some.inj hforms', hsame]
      · rw [if_neg hlist] at h h'
        cases hbytes : rlp.asBytes with
        | error e =>
          rw [hbytes] at h
          cases h
        | ok bytes =>
          rw [hbytes] at h h'
          exact Option.some.inj (h.symm.trans h')

theorem encodeAllWith_slices {fuel : ℕ}
    (hitem : ∀ data item, readItem fuel ⟨data⟩ = some item → ∃ forms rest,
      readForms fuel ⟨data⟩ = some forms ∧ remaining ⟨data⟩ = .ok rest ∧
        data = encodeWith forms item ++ rest)
    {slices : List (List UInt8)} {items : List RlpItem}
    (hwhole : ∀ data ∈ slices, remaining ⟨data⟩ = .ok [])
    (h : slices.mapM (fun data => readItem fuel ⟨data⟩) = some items) :
    ∃ forms, slices.mapM (fun data => readForms fuel ⟨data⟩) = some forms ∧
      slices.flatten = encodeAllWith forms items := by
  induction slices generalizing items with
  | nil =>
    cases h
    exact ⟨[],rfl,rfl⟩
  | cons data slices ih =>
    obtain ⟨item,tail,hhead,htail,rfl⟩ := mapM_cons_some h
    obtain ⟨form,rest,hform,hrest,hdata⟩ := hitem data item hhead
    obtain ⟨forms,hforms,hflatten⟩ := ih (fun data hmem => hwhole data (List.mem_cons_of_mem _ hmem))
      htail
    have hnil : rest = [] := by
      rw [hwhole data List.mem_cons_self] at hrest
      exact (Except.ok.inj hrest).symm
    refine ⟨form :: forms,?_,?_⟩
    · rw [List.mapM_cons, hform, hforms]
      rfl
    · rw [hnil, List.append_nil] at hdata
      rw [List.flatten_cons, hflatten, encodeAllWith, ← hdata]

/-- What the decoder reads, the forms it met and what it left over make up the input. -/
theorem readItem_split (fuel : ℕ) (data : List UInt8) (item : RlpItem)
    (h : readItem fuel ⟨data⟩ = some item) :
    ∃ forms rest, readForms fuel ⟨data⟩ = some forms ∧ remaining ⟨data⟩ = .ok rest ∧
      data = encodeWith forms item ++ rest := by
  induction fuel generalizing data item with
  | zero => cases h
  | succ fuel ih =>
    rw [readItem] at h
    rw [readForms, remaining]
    by_cases hlist : isList ⟨data⟩ = true
    · rw [if_pos hlist] at h
      rw [if_pos hlist, if_pos hlist]
      cases hcount : itemCount ⟨data⟩ with
      | error e =>
        rw [hcount] at h
        cases h
      | ok count =>
        obtain ⟨payload,rest,slices,hpayload,hcover,rfl,hwhole,hat⟩ := itemCount_split hlist hcount
        rw [hcount] at h
        obtain ⟨_,hc,h⟩ := Option.bind_eq_some_iff.mp h
        cases hc
        obtain ⟨items,hitems,htree⟩ := Option.bind_eq_some_iff.mp h
        obtain rfl := Option.some.inj htree
        have hread := mapM_itemAt (readItem fuel) hat
        obtain ⟨forms,hforms,hflatten⟩ := encodeAllWith_slices ih hwhole (hread.symm.trans hitems)
        have hreadForms := mapM_itemAt (readForms fuel) hat
        refine ⟨.list (headerForm ⟨data⟩) forms,rest,?_,?_,?_⟩
        · exact congrArg (fun read => Option.bind read (fun forms =>
            some (RlpForms.list (headerForm ⟨data⟩) forms))) (hreadForms.trans hforms)
        · rw [hpayload]
          rfl
        · have hsplit := listPayload_split hlist hpayload
          rw [encodeWith, ← hflatten, ← hcover]
          exact hsplit
    · rw [if_neg hlist] at h
      rw [if_neg hlist, if_neg hlist]
      cases hpayload : splitPayload ⟨data⟩ with
      | error e =>
        rw [asBytes, hpayload] at h
        cases h
      | ok split =>
        obtain ⟨payload,rest⟩ := split
        rw [asBytes, hpayload] at h ⊢
        obtain rfl := Option.some.inj h
        exact ⟨.bytes (headerForm ⟨data⟩),rest,rfl,rfl,splitPayload_split hpayload⟩

end Trees

section Uniqueness
variable {data data' : List UInt8}

theorem decodeU64_split {x : UInt64} (h : decodeU64 ⟨data⟩ = .ok x) :
    ∃ payload rest, asBytes ⟨data⟩ = .ok payload ∧ remaining ⟨data⟩ = .ok rest ∧
      x.toNat = ofBytesBE payload ∧
      data = headerBytes false (headerForm ⟨data⟩) payload.length ++ payload ++ rest := by
  cases hpayload : splitPayload ⟨data⟩ with
  | error e =>
    rw [decodeU64, asBytes, hpayload] at h
    cases h
  | ok split =>
    obtain ⟨payload,rest⟩ := split
    have hbytes : asBytes ⟨data⟩ = .ok payload := by
      rw [asBytes, hpayload]
      rfl
    have hlist : ¬ isList ⟨data⟩ = true := by
      intro hlist
      cases data with
      | nil => cases hlist
      | cons b tail =>
        rw [isList_cons, decide_eq_true_iff] at hlist
        rw [splitPayload_eq, if_neg (by omega), if_neg (by omega), if_neg (by omega)] at hpayload
        cases hpayload
    rw [decodeU64, hbytes] at h
    simp only [bind, Except.bind] at h
    split at h
    · cases h
    rename_i hlen
    have hx := Except.ok.inj h
    have hpow : (0 + 1) * 256 ^ payload.length ≤ 2 ^ 64 := by
      have : 256 ^ payload.length ≤ 256 ^ 8 := Nat.pow_le_pow_right (by decide) (by omega)
      omega
    refine ⟨payload,rest,hbytes,?_,?_,splitPayload_split hpayload⟩
    · rw [remaining, if_neg hlist, hpayload]
      rfl
    · rw [← hx, toNat_foldl_shift]
      have hfold := foldl_pushLength payload hpow
      rwa [Nat.zero_mul, Nat.zero_add] at hfold

/-- Two byte strings that decode to one tree are equal exactly when every header in them
has the same form and the same bytes follow the item; two that decode to one integer,
exactly when header form, number of integer bytes and following bytes agree. -/
theorem decode_unique_iff (data data' : List UInt8) :
    (∀ fuel fuel' item, readItem fuel ⟨data⟩ = some item → readItem fuel' ⟨data'⟩ = some item →
      (data = data' ↔ readForms fuel ⟨data⟩ = readForms fuel' ⟨data'⟩ ∧
        remaining ⟨data⟩ = remaining ⟨data'⟩)) ∧
    ∀ x, decodeU64 ⟨data⟩ = .ok x → decodeU64 ⟨data'⟩ = .ok x →
      (data = data' ↔ headerForm ⟨data⟩ = headerForm ⟨data'⟩ ∧
        (asBytes ⟨data⟩).map List.length = (asBytes ⟨data'⟩).map List.length ∧
        remaining ⟨data⟩ = remaining ⟨data'⟩) := by
  refine ⟨fun fuel fuel' item h h' => ?_,fun x h h' => ?_⟩
  · obtain ⟨forms,rest,hforms,hrest,hdata⟩ := readItem_split fuel data item h
    obtain ⟨forms',rest',hforms',hrest',hdata'⟩ := readItem_split fuel' data' item h'
    constructor
    · rintro rfl
      exact ⟨hforms.trans ((congrArg some (readForms_unique hforms hforms')).trans hforms'.symm),rfl⟩
    · rintro ⟨hsame,hafter⟩
      rw [hforms, hforms'] at hsame
      rw [hrest, hrest'] at hafter
      rw [hdata, hdata', Option.some.inj hsame, Except.ok.inj hafter]
  · obtain ⟨payload,rest,hbytes,hrest,hx,hdata⟩ := decodeU64_split h
    obtain ⟨payload',rest',hbytes',hrest',hx',hdata'⟩ := decodeU64_split h'
    constructor
    · rintro rfl
      exact ⟨rfl,rfl,rfl⟩
    · rintro ⟨hform,hlen,hafter⟩
      rw [hbytes, hbytes'] at hlen
      rw [hrest, hrest'] at hafter
      have hpayload := ofBytesBE_inj (Except.ok.inj hlen) (hx.symm.trans hx')
      rw [hdata, hdata', hform, hpayload, Except.ok.inj hafter]

/-- Of the encodings of 5, the header form tells two apart as an item, and as an integer. -/
theorem decode_unique_two_fives :
    (([0x05] : List UInt8) = [0x81, 0x05] ↔
        readForms 1 ⟨[0x05]⟩ = readForms 1 ⟨[0x81, 0x05]⟩ ∧ remaining ⟨[0x05]⟩ = remaining ⟨[0x81, 0x05]⟩) ∧
      (([0x05] : List UInt8) = [0x82, 0, 0x05] ↔
        headerForm ⟨[0x05]⟩ = headerForm ⟨[0x82, 0, 0x05]⟩ ∧
          (asBytes ⟨[0x05]⟩).map List.length = (asBytes ⟨[0x82, 0, 0x05]⟩).map List.length ∧
          remaining ⟨[0x05]⟩ = remaining ⟨[0x82, 0, 0x05]⟩) :=
  ⟨(decode_unique_iff [0x05] [0x81, 0x05]).1 1 1 (.bytes [0x05]) rfl rfl,
    (decode_unique_iff [0x05] [0x82, 0, 0x05]).2 5 rfl rfl⟩

/-- The byte 5 is read from itself, from a string header of one byte and from a long
header; the integer 5 also from two bytes. None of them leaves anything over. -/
theorem five_has_four_encodings :
    readItem 1 ⟨[0x05]⟩ = some (.bytes [0x05]) ∧ remaining ⟨[0x05]⟩ = .ok [] ∧
      readItem 1 ⟨[0x81, 0x05]⟩ = some (.bytes [0x05]) ∧ remaining ⟨[0x81, 0x05]⟩ = .ok [] ∧
      readItem 1 ⟨[0xb8, 0x01, 0x05]⟩ = some (.bytes [0x05]) ∧
      remaining ⟨[0xb8, 0x01, 0x05]⟩ = .ok [] ∧
      decodeU64 ⟨[0x05]⟩ = .ok 5 ∧ decodeU64 ⟨[0x82, 0x00, 0x05]⟩ = .ok 5 ∧
      remaining ⟨[0x82, 0x00, 0x05]⟩ = .ok [] ∧
      ¬ (∀ data data' fuel item, readItem fuel ⟨data⟩ = some item →
        readItem fuel ⟨data'⟩ = some item → data = data') ∧
      ¬ (∀ data data' x, decodeU64 ⟨data⟩ = .ok x → decodeU64 ⟨data'⟩ = .ok x → data = data') := by
  refine ⟨rfl,rfl,rfl,rfl,rfl,rfl,rfl,rfl,rfl,?_,?_⟩
  · intro h
    have heq := h [0x05] [0x81, 0x05] 1 (.bytes [0x05]) rfl rfl
    cases heq
  · intro h
    have heq := h [0x05] [0x82, 0x00, 0x05] 5 rfl rfl
    cases heq

end Uniqueness

end Rlp

end ZbxChain
