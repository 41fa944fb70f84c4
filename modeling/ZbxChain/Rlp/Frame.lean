import ZbxChain.Rlp.Encode

/-! # What the decoder sees of an encoded item

An encoded item is framed when the decoder, standing at its first byte with anything
before and after it, measures exactly its length. Strings and lists are framed at every
length boundary, so a list payload that concatenates framed items is taken apart at the
places where it was put together.
-/
namespace ZbxChain.Rlp
open RlpStream Bytes

section Lengths

theorem length_minimalBytes_le (n : UInt64) : (minimalBytes n).length ≤ 8 := by
  have hsub := (List.dropWhile_sublist (l := beBytes64 n) (· == 0)).length_le
  rwa [length_beBytes64] at hsub

theorem minimalBytes_spec {n : ℕ} (hpos : 0 < n) (hlt : n < 2 ^ 64) :
    ∃ b tail, minimalBytes (UInt64.ofNat n) = b :: tail ∧ b ≠ 0 ∧ tail.length ≤ 7 ∧
      ofBytesBE (b :: tail) = n := by
  have hvalue : ofBytesBE (minimalBytes (UInt64.ofNat n)) = n := by
    rw [minimalBytes, ofBytesBE_dropWhile, beBytes64, ofBytesBE_bytesBE, UInt64.toNat_ofNat',
      Nat.mod_eq_of_lt hlt]
    exact Nat.mod_eq_of_lt hlt
  have hlen := length_minimalBytes_le (UInt64.ofNat n)
  have hhead : ∀ b tail, minimalBytes (UInt64.ofNat n) = b :: tail → b ≠ 0 := by
    intro b tail hb hzero
    have hfirst := List.head?_dropWhile_not (· == (0 : UInt8)) (beBytes64 (UInt64.ofNat n))
    rw [← minimalBytes, hb] at hfirst
    simp [hzero] at hfirst
  cases hbytes : minimalBytes (UInt64.ofNat n) with
  | nil =>
    rw [hbytes] at hvalue
    simp only [ofBytesBE, List.foldl_nil] at hvalue
    omega
  | cons b tail =>
    rw [hbytes] at hvalue hlen
    rw [List.length_cons] at hlen
    exact ⟨b,tail,rfl,hhead b tail hbytes,Nat.le_of_succ_le_succ hlen,hvalue⟩

theorem pushLength_eq {val : ℕ} {b : UInt8} (h : val * 256 + b.toNat < 2 ^ 64) :
    pushLength val b = val * 256 + b.toNat := by
  have hb : b.toNat < 2 ^ 8 := b.toNat_lt
  have hshift : val <<< 8 = val * 256 := Nat.shiftLeft_eq val 8
  have hmod : (val <<< 8) % 2 ^ 64 = val <<< 8 := Nat.mod_eq_of_lt (by omega)
  rw [pushLength, hmod, ← Nat.shiftLeft_add_eq_or_of_lt hb, hshift]

theorem foldl_pushLength (bytes : List UInt8) {val : ℕ}
    (h : (val + 1) * 256 ^ bytes.length ≤ 2 ^ 64) :
    bytes.foldl pushLength val = val * 256 ^ bytes.length + ofBytesBE bytes := by
  induction bytes generalizing val with
  | nil => simp [ofBytesBE]
  | cons b bytes ih =>
    have hb : b.toNat < 256 := b.toNat_lt
    have hpow : 0 < 256 ^ bytes.length := Nat.pow_pos (by decide)
    have hstep : (val * 256 + b.toNat + 1) * 256 ^ bytes.length ≤ 2 ^ 64 := by
      refine le_trans (Nat.mul_le_mul_right _ (?_ : _ ≤ (val + 1) * 256)) ?_
      · omega
      · rw [Nat.mul_assoc, ← Nat.pow_succ']
        exact h
    have hlt : val * 256 + b.toNat < 2 ^ 64 := by
      have := Nat.le_mul_of_pos_right (val * 256 + b.toNat + 1) hpow
      omega
    rw [List.foldl_cons, pushLength_eq hlt, ih hstep, ofBytesBE_cons, List.length_cons]
    ring

/-- A length in its shortest form reads back. -/
theorem decodeLength_minimalBytes {n : ℕ} (hpos : 0 < n) (hlt : n < 2 ^ 64) :
    decodeLength (minimalBytes (UInt64.ofNat n)) = .ok n := by
  obtain ⟨b,tail,hbytes,hb,hlen,hvalue⟩ := minimalBytes_spec hpos hlt
  have hpow : (0 + 1) * 256 ^ (b :: tail).length ≤ 2 ^ 64 := by
    have : 256 ^ (b :: tail).length ≤ 256 ^ 8 :=
      Nat.pow_le_pow_right (by decide) (Nat.succ_le_succ hlen)
    omega
  rw [hbytes, decodeLength, if_neg hb, foldl_pushLength _ hpow, hvalue, Nat.zero_mul, Nat.zero_add]

theorem length_minimalBytes {n : ℕ} (hpos : 0 < n) (hlt : n < 2 ^ 64) :
    1 ≤ (minimalBytes (UInt64.ofNat n)).length ∧ (minimalBytes (UInt64.ofNat n)).length ≤ 8 := by
  obtain ⟨b,tail,hbytes,-,hlen,-⟩ := minimalBytes_spec hpos hlt
  rw [hbytes, List.length_cons]
  omega

end Lengths

section Slices

theorem slice_append (front mid back : List UInt8) :
    slice (front ++ mid ++ back) front.length (front.length + mid.length) = mid := by
  rw [slice, List.append_assoc, List.drop_left, Nat.add_sub_cancel_left, List.take_left]

theorem length_slice_le (data : List UInt8) (start stop : ℕ) :
    (slice data start stop).length ≤ data.length - start := by
  rw [slice, List.length_take, List.length_drop]
  exact min_le_right _ _

theorem checkedAdd_eq {x y : ℕ} (h : x + y < 2 ^ 64) : checkedAdd x y = .ok (x + y) := if_pos h

end Slices

section Heads
variable {b : UInt8}

theorem sub_toNat {c : UInt8} (h : ¬ b.toNat < c.toNat) : (b - c).toNat = b.toNat - c.toNat :=
  UInt8.toNat_sub_of_le _ _ (UInt8.le_iff_toNat_le.mpr (Nat.le_of_not_lt h))

theorem headLength_eq (data : List UInt8) (pos : ℕ) (b : UInt8) :
    headLength data pos b =
      if b.toNat < 128 then .ok 1
      else if b.toNat < 184 then .ok (1 + (b.toNat - 128))
      else if b.toNat < 192 then longLength data pos (b.toNat - 183)
      else if b.toNat < 248 then .ok (1 + (b.toNat - 192))
      else longLength data pos (b.toNat - 247) := by
  unfold headLength
  simp only [UInt8.lt_iff_toNat_lt]
  have h80 : (0x80 : UInt8).toNat = 128 := rfl
  have hb7 : (0xb7 : UInt8).toNat = 183 := rfl
  have hb8 : (0xb8 : UInt8).toNat = 184 := rfl
  have hc0 : (0xc0 : UInt8).toNat = 192 := rfl
  have hf7 : (0xf7 : UInt8).toNat = 247 := rfl
  have hf8 : (0xf8 : UInt8).toNat = 248 := rfl
  rw [h80, hb8, hc0, hf8]
  split_ifs with h1 h2 h3 h4
  · rfl
  · rw [sub_toNat (by rwa [h80]), h80]
  · rw [sub_toNat (by rw [hb7]; omega), hb7]
  · rw [sub_toNat (by rwa [hc0]), hc0]
  · rw [sub_toNat (by rw [hf7]; omega), hf7]

theorem splitPayload_eq (rest : List UInt8) (b : UInt8) :
    splitPayload ⟨b :: rest⟩ =
      if b.toNat < 128 then .ok ([b],rest)
      else if b.toNat < 184 then shortPayload (b :: rest) (b.toNat - 128)
      else if b.toNat < 192 then longPayload (b :: rest) (b.toNat - 183)
      else .error .expectedString := by
  simp only [splitPayload, UInt8.lt_iff_toNat_lt]
  have h80 : (0x80 : UInt8).toNat = 128 := rfl
  have hb7 : (0xb7 : UInt8).toNat = 183 := rfl
  have hb8 : (0xb8 : UInt8).toNat = 184 := rfl
  have hc0 : (0xc0 : UInt8).toNat = 192 := rfl
  rw [h80, hb8, hc0]
  split_ifs with h1 h2 h3
  · rfl
  · rw [sub_toNat (by rwa [h80]), h80]
  · rw [sub_toNat (by rw [hb7]; omega), hb7]
  · rfl

theorem listPayload_eq (rest : List UInt8) (b : UInt8) :
    listPayload ⟨b :: rest⟩ =
      if b.toNat < 192 then .error .expectedList
      else if b.toNat < 248 then shortPayload (b :: rest) (b.toNat - 192)
      else longPayload (b :: rest) (b.toNat - 247) := by
  simp only [listPayload, UInt8.lt_iff_toNat_lt]
  have hc0 : (0xc0 : UInt8).toNat = 192 := rfl
  have hf7 : (0xf7 : UInt8).toNat = 247 := rfl
  have hf8 : (0xf8 : UInt8).toNat = 248 := rfl
  rw [hc0, hf8]
  split_ifs with h1 h2
  · rfl
  · rw [sub_toNat (by rwa [hc0]), hc0]
  · rw [sub_toNat (by rw [hf7]; omega), hf7]

theorem isList_cons (rest : List UInt8) (b : UInt8) :
    isList ⟨b :: rest⟩ = decide (192 ≤ b.toNat) := by
  simp only [isList, List.head?_cons, Option.map_some, Option.getD_some, ge_iff_le,
    UInt8.le_iff_toNat_le]
  rfl

end Heads

section Payloads

theorem longLength_eq {front back : List UInt8} {b : UInt8} {n : ℕ} (hpos : 0 < n)
    (hlt : n < 2 ^ 63) :
    longLength (front ++ (b :: minimalBytes (UInt64.ofNat n)) ++ back) front.length
      (minimalBytes (UInt64.ofNat n)).length =
        .ok (1 + (minimalBytes (UInt64.ofNat n)).length + n) := by
  have hlen := length_minimalBytes hpos (by omega : n < 2 ^ 64)
  have hdecode := decodeLength_minimalBytes hpos (by omega : n < 2 ^ 64)
  have hslice := slice_append (front ++ [b]) (minimalBytes (UInt64.ofNat n)) back
  have hdata : front ++ (b :: minimalBytes (UInt64.ofNat n)) ++ back =
      front ++ [b] ++ minimalBytes (UInt64.ofNat n) ++ back := by simp
  have hfit : ¬ front.length + 1 + (minimalBytes (UInt64.ofNat n)).length >
      (front ++ [b] ++ minimalBytes (UInt64.ofNat n) ++ back).length := by
    simp only [List.length_append, List.length_singleton]
    omega
  rw [List.length_append, List.length_singleton] at hslice
  rw [hdata, longLength, if_neg hfit, hslice, hdecode]
  simp only [bind, Except.bind]
  rw [checkedAdd_eq (by omega)]
  exact checkedAdd_eq (by omega)

theorem longPayload_eq {payload : List UInt8} (back : List UInt8) (b : UInt8)
    (hpos : 0 < payload.length) (hlt : payload.length < 2 ^ 63) :
    longPayload ((b :: minimalBytes (UInt64.ofNat payload.length)) ++ payload ++ back)
      (minimalBytes (UInt64.ofNat payload.length)).length = .ok (payload,back) := by
  have hlen := length_minimalBytes hpos (by omega : payload.length < 2 ^ 64)
  have hdecode := decodeLength_minimalBytes hpos (by omega : payload.length < 2 ^ 64)
  generalize hbytes : minimalBytes (UInt64.ofNat payload.length) = lenBytes at hlen hdecode ⊢
  have hheader := slice_append [b] lenBytes (payload ++ back)
  have hslice := slice_append (b :: lenBytes) payload back
  have hcons : (b :: lenBytes).length = 1 + lenBytes.length := Nat.add_comm _ _
  have hdata : [b] ++ lenBytes ++ (payload ++ back) = (b :: lenBytes) ++ payload ++ back := by simp
  have hdrop : ((b :: lenBytes) ++ payload ++ back).drop (1 + lenBytes.length + payload.length) =
      back := by
    rw [← hcons, ← List.length_append, List.drop_left]
  have hfit : ¬ 1 + lenBytes.length > ((b :: lenBytes) ++ payload ++ back).length := by
    simp only [List.length_append, List.length_cons]
    omega
  have hstop : ¬ 1 + lenBytes.length + payload.length >
      ((b :: lenBytes) ++ payload ++ back).length := by
    simp only [List.length_append, List.length_cons]
    omega
  rw [List.length_singleton, hdata] at hheader
  rw [hcons] at hslice
  rw [longPayload, if_neg hfit, hheader, hdecode]
  simp only [bind, Except.bind, pure, Except.pure]
  rw [checkedAdd_eq (by omega)]
  simp only
  rw [checkedAdd_eq (by omega)]
  simp only [if_neg hstop, hslice, hdrop]

theorem shortPayload_eq (payload back : List UInt8) (b : UInt8) :
    shortPayload (b :: payload ++ back) payload.length = .ok (payload,back) := by
  have hslice := slice_append [b] payload back
  have hdrop : (b :: payload ++ back).drop (1 + payload.length) = back := by
    rw [Nat.add_comm, ← List.length_cons (a := b), List.drop_left]
  have hfit : ¬ 1 + payload.length > (b :: payload ++ back).length := by
    simp only [List.length_append, List.length_cons]
    omega
  rw [shortPayload, if_neg hfit, hdrop]
  exact congrArg (fun s => Except.ok (s,back)) hslice

end Payloads

section Headers

theorem toNat_add_ofNat {c : UInt8} {n : ℕ} (h : c.toNat + n < 256) :
    (c + UInt8.ofNat n).toNat = c.toNat + n := by
  have hn : (UInt8.ofNat n).toNat = n := by
    rw [UInt8.toNat_ofNat']
    exact Nat.mod_eq_of_lt (by omega)
  rw [UInt8.toNat_add, hn]
  exact Nat.mod_eq_of_lt h

theorem stringBytes_cases {data : List UInt8} (hlt : data.length < 2 ^ 63) :
    (∃ b, data = [b] ∧ b.toNat < 128 ∧ stringBytes data = [b]) ∨
    (∃ b, data.length ≤ 55 ∧ b.toNat = 128 + data.length ∧ stringBytes data = b :: data) ∨
    (∃ b, 55 < data.length ∧
      b.toNat = 183 + (minimalBytes (UInt64.ofNat data.length)).length ∧
      stringBytes data = (b :: minimalBytes (UInt64.ofNat data.length)) ++ data) := by
  have h80 : (0x80 : UInt8).toNat = 128 := rfl
  have hb7 : (0xb7 : UInt8).toNat = 183 := rfl
  unfold stringBytes stringHeader
  split_ifs with hnil hone hshort
  · exact Or.inr (Or.inl ⟨0x80,by omega,by rw [hnil]; rfl,rfl⟩)
  · obtain ⟨b,rfl⟩ := List.length_eq_one_iff.mp hone.1
    exact Or.inl ⟨b,rfl,UInt8.lt_iff_toNat_lt.mp hone.2,rfl⟩
  · exact Or.inr (Or.inl ⟨_,hshort,by rw [toNat_add_ofNat (by rw [h80]; omega), h80],rfl⟩)
  · have hlen := length_minimalBytes (by omega) (by omega : data.length < 2 ^ 64)
    refine Or.inr (Or.inr ⟨_,by omega,?_,rfl⟩)
    rw [toNat_add_ofNat (by rw [hb7]; omega), hb7]

theorem listBytes_cases {payload : List UInt8} (hlt : payload.length < 2 ^ 63) :
    (∃ b, payload.length ≤ 55 ∧ b.toNat = 192 + payload.length ∧
      listBytes payload = b :: payload) ∨
    (∃ b, 55 < payload.length ∧
      b.toNat = 247 + (minimalBytes (UInt64.ofNat payload.length)).length ∧
      listBytes payload = (b :: minimalBytes (UInt64.ofNat payload.length)) ++ payload) := by
  have hc0 : (0xc0 : UInt8).toNat = 192 := rfl
  have hf7 : (0xf7 : UInt8).toNat = 247 := rfl
  unfold listBytes listHeader
  split_ifs with hshort
  · exact Or.inl ⟨_,hshort,by rw [toNat_add_ofNat (by rw [hc0]; omega), hc0],rfl⟩
  · have hlen := length_minimalBytes (by omega) (by omega : payload.length < 2 ^ 64)
    refine Or.inr ⟨_,by omega,?_,rfl⟩
    rw [toNat_add_ofNat (by rw [hf7]; omega), hf7]

theorem length_le_stringBytes (data : List UInt8) : data.length ≤ (stringBytes data).length := by
  simp [stringBytes]

theorem length_lt_listBytes (payload : List UInt8) : payload.length < (listBytes payload).length := by
  have hheader : 0 < (listHeader payload.length).length := by
    unfold listHeader
    split <;> simp
  rw [listBytes, List.length_append]
  omega

end Headers

/-- The decoder measures `item` exactly, wherever it stands. -/
def Framed (item : List UInt8) : Prop :=
  ∀ front back, (front ++ item ++ back).length < 2 ^ 63 →
    itemLength (front ++ item ++ back) front.length = .ok item.length

theorem itemLength_of_head {front item back rest : List UInt8} {b : UInt8} (hitem : item = b :: rest)
    (hlt : (front ++ item ++ back).length < 2 ^ 63)
    (hhead : headLength (front ++ item ++ back) front.length b = .ok item.length) :
    itemLength (front ++ item ++ back) front.length = .ok item.length := by
  have hget : (front ++ item ++ back)[front.length]? = some b := by
    rw [hitem]
    simp
  have hfit : ¬ front.length + item.length > (front ++ item ++ back).length := by
    simp only [List.length_append]
    omega
  have hadd : front.length + item.length < 2 ^ 64 := by omega
  simp only [itemLength, hget, hhead, bind, Except.bind]
  rw [checkedAdd_eq hadd]
  simp only [if_neg hfit]
  rfl

/-- The header of a string says where it ends. -/
theorem framed_string (data : List UInt8) : Framed (stringBytes data) := by
  intro front back hlt
  have hdata : data.length < 2 ^ 63 := by
    have := length_le_stringBytes data
    simp only [List.length_append] at hlt
    omega
  rcases stringBytes_cases hdata with ⟨b,-,hb,heq⟩ | ⟨b,hshort,hb,heq⟩ | ⟨b,hlong,hb,heq⟩
  · refine itemLength_of_head heq hlt ?_
    rw [headLength_eq, if_pos hb, heq]
    rfl
  · refine itemLength_of_head heq hlt ?_
    rw [headLength_eq, if_neg (by omega), if_pos (by omega), heq, List.length_cons]
    exact congrArg Except.ok (by omega)
  · have hlen := length_minimalBytes (by omega) (by omega : data.length < 2 ^ 64)
    refine itemLength_of_head heq hlt ?_
    rw [headLength_eq, if_neg (by omega), if_neg (by omega), if_pos (by omega)]
    have hk : b.toNat - 183 = (minimalBytes (UInt64.ofNat data.length)).length := by omega
    have hassoc : front ++ stringBytes data ++ back =
        front ++ (b :: minimalBytes (UInt64.ofNat data.length)) ++ (data ++ back) := by
      rw [heq]
      simp
    rw [hk, hassoc, longLength_eq (by omega) hdata, heq]
    simp only [List.length_append, List.length_cons]
    exact congrArg Except.ok (by omega)

/-- The header of a list says where it ends. -/
theorem framed_list (payload : List UInt8) : Framed (listBytes payload) := by
  intro front back hlt
  have hpayload : payload.length < 2 ^ 63 := by
    have := length_lt_listBytes payload
    simp only [List.length_append] at hlt
    omega
  rcases listBytes_cases hpayload with ⟨b,hshort,hb,heq⟩ | ⟨b,hlong,hb,heq⟩
  · refine itemLength_of_head heq hlt ?_
    rw [headLength_eq, if_neg (by omega), if_neg (by omega), if_neg (by omega), if_pos (by omega),
      heq, List.length_cons]
    exact congrArg Except.ok (by omega)
  · have hlen := length_minimalBytes (by omega) (by omega : payload.length < 2 ^ 64)
    refine itemLength_of_head heq hlt ?_
    rw [headLength_eq, if_neg (by omega), if_neg (by omega), if_neg (by omega), if_neg (by omega)]
    have hk : b.toNat - 247 = (minimalBytes (UInt64.ofNat payload.length)).length := by omega
    have hassoc : front ++ listBytes payload ++ back =
        front ++ (b :: minimalBytes (UInt64.ofNat payload.length)) ++ (payload ++ back) := by
      rw [heq]
      simp
    rw [hk, hassoc, longLength_eq (by omega) hpayload, heq]
    simp only [List.length_append, List.length_cons]
    exact congrArg Except.ok (by omega)

section Payload
variable {data payload : List UInt8}

theorem splitPayload_string (hlt : data.length < 2 ^ 63) (back : List UInt8) :
    splitPayload ⟨stringBytes data ++ back⟩ = .ok (data,back) := by
  rcases stringBytes_cases hlt with ⟨b,hdata,hb,heq⟩ | ⟨b,hshort,hb,heq⟩ | ⟨b,hlong,hb,heq⟩
  · rw [heq, List.singleton_append, splitPayload_eq, if_pos hb, hdata]
  · rw [heq, List.cons_append, splitPayload_eq, if_neg (by omega), if_pos (by omega), hb,
      Nat.add_sub_cancel_left]
    exact shortPayload_eq data back b
  · have hlen := length_minimalBytes (by omega) (by omega : data.length < 2 ^ 64)
    rw [heq, List.append_assoc, List.cons_append, splitPayload_eq, if_neg (by omega),
      if_neg (by omega), if_pos (by omega), hb, Nat.add_sub_cancel_left]
    have := longPayload_eq back b (by omega : 0 < data.length) hlt
    rwa [List.append_assoc, List.cons_append] at this

theorem listPayload_list (hlt : payload.length < 2 ^ 63) (back : List UInt8) :
    listPayload ⟨listBytes payload ++ back⟩ = .ok (payload,back) := by
  rcases listBytes_cases hlt with ⟨b,hshort,hb,heq⟩ | ⟨b,hlong,hb,heq⟩
  · rw [heq, List.cons_append, listPayload_eq, if_neg (by omega), if_pos (by omega), hb,
      Nat.add_sub_cancel_left]
    exact shortPayload_eq payload back b
  · have hlen := length_minimalBytes (by omega) (by omega : payload.length < 2 ^ 64)
    rw [heq, List.append_assoc, List.cons_append, listPayload_eq, if_neg (by omega),
      if_neg (by omega), hb, Nat.add_sub_cancel_left]
    have := longPayload_eq back b (by omega : 0 < payload.length) hlt
    rwa [List.append_assoc, List.cons_append] at this

theorem isList_string (hlt : data.length < 2 ^ 63) : isList ⟨stringBytes data⟩ = false := by
  rcases stringBytes_cases hlt with ⟨b,hdata,hb,heq⟩ | ⟨b,hshort,hb,heq⟩ | ⟨b,hlong,hb,heq⟩
  · rw [heq, isList_cons]
    exact decide_eq_false (by omega)
  · rw [heq, isList_cons]
    exact decide_eq_false (by omega)
  · have hlen := length_minimalBytes (by omega) (by omega : data.length < 2 ^ 64)
    rw [heq, List.cons_append, isList_cons]
    exact decide_eq_false (by omega)

theorem isList_list (hlt : payload.length < 2 ^ 63) : isList ⟨listBytes payload⟩ = true := by
  rcases listBytes_cases hlt with ⟨b,hshort,hb,heq⟩ | ⟨b,hlong,hb,heq⟩
  · rw [heq, isList_cons]
    exact decide_eq_true (by omega)
  · rw [heq, List.cons_append, isList_cons]
    exact decide_eq_true (by omega)

theorem asBytes_string (hlt : data.length < 2 ^ 63) : asBytes ⟨stringBytes data⟩ = .ok data := by
  have hsplit := splitPayload_string hlt []
  rw [List.append_nil] at hsplit
  rw [asBytes, hsplit]
  rfl

end Payload

section Bounds
variable {rlp child : Rlp} {payload rest : List UInt8}

theorem length_shortPayload {data : List UInt8} {len : ℕ} (hne : data ≠ [])
    (h : shortPayload data len = .ok (payload,rest)) : payload.length < data.length := by
  have hpos := List.length_pos_iff.mpr hne
  unfold shortPayload at h
  split at h
  · cases h
  · cases h
    have hle := length_slice_le data 1 (1 + len)
    omega

theorem length_longPayload {data : List UInt8} {lenBytes : ℕ} (hne : data ≠ [])
    (h : longPayload data lenBytes = .ok (payload,rest)) : payload.length < data.length := by
  have hpos := List.length_pos_iff.mpr hne
  unfold longPayload at h
  split at h
  · cases h
  · simp only [bind, Except.bind] at h
    split at h
    · cases h
    split at h
    · cases h
    split at h
    · cases h
    split at h
    · cases h
    cases h
    refine lt_of_le_of_lt (length_slice_le _ _ _) ?_
    omega

theorem length_listPayload (hne : rlp.data ≠ []) (h : rlp.listPayload = .ok (payload,rest)) :
    payload.length < rlp.data.length := by
  obtain ⟨data⟩ := rlp
  cases data with
  | nil => exact absurd rfl hne
  | cons b tail =>
    rw [listPayload_eq] at h
    split at h
    · cases h
    split at h
    · exact length_shortPayload hne h
    · exact length_longPayload hne h

end Bounds

end ZbxChain.Rlp
