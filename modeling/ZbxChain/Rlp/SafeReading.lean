import ZbxChain.Rlp.Malleability

/-! # Reading with every index and every sum guarded

The reader once more, with each indexing, slicing, sum and difference of the source as an
operation that can fail, and with loops whose bound can be met. On data that fit in memory none
of this happens: the guarded reader is the plain one, and what `at` returns tiles the payload.
-/
namespace ZbxChain.Rlp

/-- What stops a reading: an error that it returns, an index or a range outside its slice, a sum
or difference outside the 64 bits, or the bound on the turns of a loop. -/
inductive ReadFault where
  | error (e : RlpError)
  | outOfRange
  | overflow
  | fuel
  deriving DecidableEq

abbrev Reading (α : Type) := Except ReadFault α

namespace Guarded

def fail {α : Type} (e : RlpError) : Reading α := .error (.error e)

/-- A result without a panic. -/
def lift {α : Type} : Except RlpError α → Reading α
  | .ok a => .ok a
  | .error e => fail e

/-- `data[i]`. -/
def byteAt (data : List UInt8) (i : ℕ) : Reading UInt8 :=
  match data[i]? with
  | some b => .ok b
  | none => .error .outOfRange

/-- `data[start..stop]`. -/
def range (data : List UInt8) (start stop : ℕ) : Reading (List UInt8) :=
  if start ≤ stop ∧ stop ≤ data.length then .ok (slice data start stop) else .error .outOfRange

/-- `data[start..]`. -/
def rangeFrom (data : List UInt8) (start : ℕ) : Reading (List UInt8) :=
  if start ≤ data.length then .ok (data.drop start) else .error .outOfRange

def add (x y : ℕ) : Reading ℕ := if x + y < 2 ^ 64 then .ok (x + y) else .error .overflow

/-- `(b - c) as usize`. -/
def sub (b c : UInt8) : Reading ℕ := if c ≤ b then .ok (b - c).toNat else .error .overflow

def decodeLength (bytes : List UInt8) : Reading ℕ :=
  if bytes.isEmpty then fail (.unexpectedEnd 0)
  else do
    let first ← byteAt bytes 0
    if first = 0 then fail .overflow else pure (bytes.foldl pushLength 0)

def longLength (data : List UInt8) (pos lenBytes : ℕ) : Reading ℕ := do
  let start ← add pos 1
  let stop ← add start lenBytes
  if stop > data.length then fail (.unexpectedEnd stop)
  else do
    let bytes ← range data start stop
    let len ← decodeLength bytes
    let header ← lift (checkedAdd 1 lenBytes)
    lift (checkedAdd header len)

def headLength (data : List UInt8) (pos : ℕ) (b : UInt8) : Reading ℕ :=
  if b < 0x80 then pure 1
  else if b < 0xb8 then do
    let len ← sub b 0x80
    add 1 len
  else if b < 0xc0 then do
    let lenBytes ← sub b 0xb7
    longLength data pos lenBytes
  else if b < 0xf8 then do
    let len ← sub b 0xc0
    add 1 len
  else do
    let lenBytes ← sub b 0xf7
    longLength data pos lenBytes

def itemLength (data : List UInt8) (pos : ℕ) : Reading ℕ :=
  if pos ≥ data.length then fail (.unexpectedEnd pos)
  else do
    let b ← byteAt data pos
    let itemLen ← headLength data pos b
    let stop ← lift (checkedAdd pos itemLen)
    if stop > data.length then fail (.unexpectedEnd stop) else pure itemLen

def shortPayload (data : List UInt8) (len : ℕ) : Reading (List UInt8 × List UInt8) := do
  let stop ← add 1 len
  if stop > data.length then fail (.unexpectedEnd stop)
  else do
    let payload ← range data 1 stop
    let rest ← rangeFrom data stop
    pure (payload,rest)

def longPayload (data : List UInt8) (lenBytes : ℕ) : Reading (List UInt8 × List UInt8) := do
  let start ← add 1 lenBytes
  if start > data.length then fail (.unexpectedEnd start)
  else do
    let bytes ← range data 1 start
    let len ← decodeLength bytes
    let header ← lift (checkedAdd 1 lenBytes)
    let stop ← lift (checkedAdd header len)
    if stop > data.length then fail (.unexpectedEnd stop)
    else do
      let payload ← range data start stop
      let rest ← rangeFrom data stop
      pure (payload,rest)

def splitPayload (rlp : Rlp) : Reading (List UInt8 × List UInt8) :=
  if rlp.data.isEmpty then fail (.unexpectedEnd 0)
  else do
    let b ← byteAt rlp.data 0
    if b < 0x80 then do
      let payload ← range rlp.data 0 1
      let rest ← rangeFrom rlp.data 1
      pure (payload,rest)
    else if b < 0xb8 then do
      let len ← sub b 0x80
      shortPayload rlp.data len
    else if b < 0xc0 then do
      let lenBytes ← sub b 0xb7
      longPayload rlp.data lenBytes
    else fail .expectedString

def listPayload (rlp : Rlp) : Reading (List UInt8 × List UInt8) :=
  if rlp.data.isEmpty then pure ([],[])
  else do
    let b ← byteAt rlp.data 0
    if b < 0xc0 then fail .expectedList
    else if b < 0xf8 then do
      let len ← sub b 0xc0
      shortPayload rlp.data len
    else do
      let lenBytes ← sub b 0xf7
      longPayload rlp.data lenBytes

def asBytes (rlp : Rlp) : Reading (List UInt8) := do
  let (payload,_) ← splitPayload rlp
  pure payload

def countLoop (bytes : List UInt8) : ℕ → ℕ → ℕ → Reading ℕ
  | 0, _, _ => .error .fuel
  | fuel + 1, pos, count =>
    if pos < bytes.length then do
      let itemLen ← itemLength bytes pos
      let pos ← add pos itemLen
      let count ← add count 1
      countLoop bytes fuel pos count
    else pure count

def itemCount (rlp : Rlp) : Reading ℕ :=
  if rlp.data.isEmpty then pure 0
  else do
    let b ← byteAt rlp.data 0
    if b < 0xc0 then pure 0
    else do
      let (bytes,_) ← listPayload rlp
      countLoop bytes (bytes.length + 1) 0 0

def atLoop (bytes : List UInt8) (n : ℕ) : ℕ → ℕ → ℕ → Reading Rlp
  | 0, _, _ => .error .fuel
  | fuel + 1, pos, idx =>
    if pos < bytes.length then do
      let itemLen ← itemLength bytes pos
      if idx = n then do
        let stop ← add pos itemLen
        let item ← range bytes pos stop
        pure ⟨item⟩
      else do
        let pos ← add pos itemLen
        let idx ← add idx 1
        atLoop bytes n fuel pos idx
    else fail .itemCountMismatch

def itemAt (rlp : Rlp) (n : ℕ) : Reading Rlp := do
  let (bytes,_) ← listPayload rlp
  atLoop bytes n (bytes.length + 1) 0 0

/-- `u64::decode_from`; a shift by eight bits never overflows. -/
def decodeU64 (rlp : Rlp) : Reading UInt64 := do
  let bytes ← asBytes rlp
  if bytes.length > 8 then fail .overflow
  else pure (bytes.foldl (fun val b => (val <<< 8) ||| b.toUInt64) 0)

section Operations
variable {α β : Type} {data : List UInt8}

@[simp] theorem lift_ok (a : α) : lift (.ok a) = .ok a := rfl
@[simp] theorem lift_error (e : RlpError) : lift (.error e : Except RlpError α) = fail e := rfl

theorem lift_bind (r : Except RlpError α) (f : α → Except RlpError β) :
    lift (r >>= f) = (lift r >>= fun a => lift (f a)) := by
  cases r with
  | error e => rfl
  | ok a => rfl

theorem ok_bind (a : α) (f : α → Reading β) : ((.ok a : Reading α) >>= f) = f a := rfl

theorem byteAt_eq {i : ℕ} {b : UInt8} (h : data[i]? = some b) : byteAt data i = .ok b := by
  rw [byteAt, h]

theorem range_eq {start stop : ℕ} (h : start ≤ stop) (hstop : stop ≤ data.length) :
    range data start stop = .ok (slice data start stop) := if_pos ⟨h,hstop⟩

theorem rangeFrom_eq {start : ℕ} (h : start ≤ data.length) : rangeFrom data start = .ok (data.drop start) :=
  if_pos h

theorem add_eq {x y : ℕ} (h : x + y < 2 ^ 64) : add x y = .ok (x + y) := if_pos h

theorem sub_eq {b c : UInt8} (h : c ≤ b) : sub b c = .ok (b - c).toNat := if_pos h

theorem sub_of_not_lt {b c d : UInt8} (h : ¬ b < d) (hc : c ≤ d) : sub b c = .ok (b - c).toNat :=
  sub_eq (UInt8.le_trans hc (UInt8.not_lt.mp h))

theorem sub_lt (b c : UInt8) : (b - c).toNat < 256 := (b - c).toNat_lt

end Operations

section Lengths
variable {data : List UInt8}

theorem decodeLength_eq (bytes : List UInt8) : decodeLength bytes = lift (Rlp.decodeLength bytes) := by
  cases bytes with
  | nil => rfl
  | cons b tail =>
    unfold decodeLength Rlp.decodeLength
    by_cases hzero : b = 0
    · simp [byteAt, hzero, ok_bind]
    · simp [byteAt, hzero, ok_bind, pure, Except.pure]

theorem longLength_eq {pos lenBytes : ℕ} (hlt : data.length < 2 ^ 63) (hpos : pos < data.length)
    (hlen : lenBytes < 256) : longLength data pos lenBytes = lift (Rlp.longLength data pos lenBytes) := by
  unfold longLength Rlp.longLength
  rw [add_eq (by omega), ok_bind, add_eq (by omega), ok_bind]
  by_cases hfit : pos + 1 + lenBytes > data.length
  · rw [if_pos hfit, if_pos hfit]
    rfl
  · rw [if_neg hfit, if_neg hfit, range_eq (by omega) (by omega), ok_bind, decodeLength_eq]
    simp only [lift_bind]

theorem headLength_eq {pos : ℕ} (hlt : data.length < 2 ^ 63) (hpos : pos < data.length) (b : UInt8) :
    headLength data pos b = lift (Rlp.headLength data pos b) := by
  unfold headLength Rlp.headLength
  split_ifs with h1 h2 h3 h4
  · rfl
  · have hlen := sub_lt b 0x80
    rw [sub_of_not_lt h1 (by decide), ok_bind, add_eq (by omega), lift_ok]
  · rw [sub_of_not_lt h2 (by decide), ok_bind, longLength_eq hlt hpos (sub_lt _ _)]
  · have hlen := sub_lt b 0xc0
    rw [sub_of_not_lt h3 (by decide), ok_bind, add_eq (by omega), lift_ok]
  · rw [sub_of_not_lt h4 (by decide), ok_bind, longLength_eq hlt hpos (sub_lt _ _)]

theorem itemLength_eq (pos : ℕ) (hlt : data.length < 2 ^ 63) :
    itemLength data pos = lift (Rlp.itemLength data pos) := by
  unfold itemLength Rlp.itemLength
  by_cases hpos : pos < data.length
  · have hget := List.getElem?_eq_getElem hpos
    rw [if_neg (by omega), byteAt_eq hget, ok_bind, hget, headLength_eq hlt hpos]
    simp only [lift_bind]
    refine congrArg _ (funext fun itemLen => congrArg _ (funext fun stop => ?_))
    split
    · rfl
    · rfl
  · rw [if_pos (by omega), List.getElem?_eq_none (by omega)]
    rfl

end Lengths

section Payloads
variable {data : List UInt8}

theorem shortPayload_eq {len : ℕ} (hlen : len < 256) :
    shortPayload data len = lift (Rlp.shortPayload data len) := by
  unfold shortPayload Rlp.shortPayload
  rw [add_eq (by omega), ok_bind]
  by_cases hfit : 1 + len > data.length
  · rw [if_pos hfit, if_pos hfit]
    rfl
  · rw [if_neg hfit, if_neg hfit, range_eq (by omega) (by omega), ok_bind, rangeFrom_eq (by omega), ok_bind]
    rfl

theorem longPayload_eq {lenBytes : ℕ} (hlen : lenBytes < 256) :
    longPayload data lenBytes = lift (Rlp.longPayload data lenBytes) := by
  unfold longPayload Rlp.longPayload
  rw [add_eq (by omega), ok_bind]
  by_cases hfit : 1 + lenBytes > data.length
  · rw [if_pos hfit, if_pos hfit]
    rfl
  · rw [if_neg hfit, if_neg hfit, range_eq (by omega) (by omega), ok_bind, decodeLength_eq]
    cases hdecode : Rlp.decodeLength (slice data 1 (1 + lenBytes)) with
    | error e => rfl
    | ok len =>
      cases hheader : checkedAdd 1 lenBytes with
      | error e => rfl
      | ok header =>
        cases hstop : checkedAdd header len with
        | error e => simp [hstop, lift, bind, Except.bind, fail]
        | ok stop =>
          have hheader' := checkedAdd_ok hheader
          have hstop' := checkedAdd_ok hstop
          simp only [lift_ok, pure, Except.pure, bind, Except.bind, hstop]
          by_cases hlong : stop > data.length
          · rw [if_pos hlong, if_pos hlong]
            rfl
          · rw [if_neg hlong, if_neg hlong, range_eq (by omega) (by omega), rangeFrom_eq (by omega)]
            rfl

theorem splitPayload_eq (rlp : Rlp) : splitPayload rlp = lift (Rlp.splitPayload rlp) := by
  obtain ⟨data⟩ := rlp
  cases data with
  | nil => rfl
  | cons b rest =>
    simp only [splitPayload, Rlp.splitPayload, List.isEmpty_cons, Bool.false_eq_true, if_false]
    rw [byteAt_eq rfl, ok_bind]
    split_ifs with h1 h2 h3
    · rw [range_eq (by omega) (by simp), ok_bind, rangeFrom_eq (by simp), ok_bind]
      rfl
    · rw [sub_of_not_lt h1 (by decide), ok_bind, shortPayload_eq (sub_lt _ _)]
    · rw [sub_of_not_lt h2 (by decide), ok_bind, longPayload_eq (sub_lt _ _)]
    · rfl

theorem listPayload_eq (rlp : Rlp) : listPayload rlp = lift (Rlp.listPayload rlp) := by
  obtain ⟨data⟩ := rlp
  cases data with
  | nil => rfl
  | cons b rest =>
    simp only [listPayload, Rlp.listPayload, List.isEmpty_cons, Bool.false_eq_true, if_false]
    rw [byteAt_eq rfl, ok_bind]
    split_ifs with h1 h2
    · rfl
    · rw [sub_of_not_lt h1 (by decide), ok_bind, shortPayload_eq (sub_lt _ _)]
    · rw [sub_of_not_lt h2 (by decide), ok_bind, longPayload_eq (sub_lt _ _)]

theorem asBytes_eq (rlp : Rlp) : asBytes rlp = lift (Rlp.asBytes rlp) := by
  unfold asBytes Rlp.asBytes
  rw [lift_bind, splitPayload_eq]
  rfl

theorem decodeU64_eq (rlp : Rlp) : decodeU64 rlp = lift (Rlp.decodeU64 rlp) := by
  unfold decodeU64 Rlp.decodeU64
  rw [lift_bind, asBytes_eq]
  refine congrArg _ (funext fun bytes => ?_)
  split
  · rfl
  · rfl

end Payloads

section Loops
variable {bytes : List UInt8} {fuel pos : ℕ}

theorem countLoop_eq (hlt : bytes.length < 2 ^ 63) (hpos : pos ≤ bytes.length)
    (hfuel : bytes.length - pos < fuel) {count : ℕ} (hcount : count ≤ pos) :
    countLoop bytes fuel pos count = lift (Rlp.countLoop bytes fuel pos count) := by
  induction fuel generalizing pos count with
  | zero => omega
  | succ fuel ih =>
    rw [countLoop, Rlp.countLoop]
    by_cases hmore : pos < bytes.length
    · rw [if_pos hmore, if_pos hmore, itemLength_eq pos hlt]
      cases hitem : Rlp.itemLength bytes pos with
      | error e => rfl
      | ok itemLen =>
        obtain ⟨-,-,-,hfit⟩ := itemLength_ok hitem
        have hadvance := (remaining_slice hitem).1
        rw [lift_ok, ok_bind, add_eq (by omega), ok_bind, add_eq (by omega), ok_bind,
          ih hfit (by omega) (by omega)]
        rfl
    · rw [if_neg hmore, if_neg hmore]
      rfl

theorem atLoop_eq (hlt : bytes.length < 2 ^ 63) (hpos : pos ≤ bytes.length)
    (hfuel : bytes.length - pos < fuel) (n : ℕ) {idx : ℕ} (hidx : idx ≤ pos) :
    atLoop bytes n fuel pos idx = lift (Rlp.atLoop bytes n fuel pos idx) := by
  induction fuel generalizing pos idx with
  | zero => omega
  | succ fuel ih =>
    rw [atLoop, Rlp.atLoop]
    by_cases hmore : pos < bytes.length
    · rw [if_pos hmore, if_pos hmore, itemLength_eq pos hlt]
      cases hitem : Rlp.itemLength bytes pos with
      | error e => rfl
      | ok itemLen =>
        obtain ⟨-,-,-,hfit⟩ := itemLength_ok hitem
        have hadvance := (remaining_slice hitem).1
        rw [lift_ok, ok_bind]
        simp only [bind, Except.bind]
        by_cases hn : idx = n
        · rw [if_pos hn, if_pos hn, add_eq (by omega)]
          simp only [range_eq (Nat.le_add_right pos itemLen) hfit]
          rfl
        · rw [if_neg hn, if_neg hn, add_eq (by omega)]
          simp only [add_eq (by omega : idx + 1 < 2 ^ 64)]
          exact ih hfit (by omega) (by omega)
    · rw [if_neg hmore, if_neg hmore]
      rfl

theorem atLoop_past {fuel' n idx total : ℕ} (hfuel : bytes.length - pos < fuel)
    (h : Rlp.countLoop bytes fuel pos idx = .ok total) (hn : total ≤ n) :
    Rlp.atLoop bytes n fuel' pos idx = .error .itemCountMismatch := by
  induction fuel generalizing fuel' pos idx with
  | zero => omega
  | succ fuel ih =>
    cases fuel' with
    | zero => rfl
    | succ fuel' =>
      obtain ⟨slices,-,htotal⟩ := walk_of_countLoop hfuel h
      rw [Rlp.countLoop] at h
      rw [Rlp.atLoop]
      by_cases hmore : pos < bytes.length
      · rw [if_pos hmore] at h ⊢
        cases hitem : Rlp.itemLength bytes pos with
        | error e =>
          rw [hitem] at h
          cases h
        | ok itemLen =>
          rw [hitem] at h
          have hadvance := (remaining_slice hitem).1
          have hfuel : bytes.length - (pos + itemLen) < fuel := by omega
          obtain ⟨rest,-,hrest⟩ := walk_of_countLoop hfuel h
          simp only [bind, Except.bind]
          rw [if_neg (by omega)]
          exact ih (by omega) h
      · rw [if_neg hmore]
        rfl

end Loops

section Whole
variable {data : List UInt8}

theorem length_payload_le {rlp : Rlp} {payload rest : List UInt8} (h : Rlp.listPayload rlp = .ok (payload,rest)) :
    payload.length ≤ rlp.data.length := by
  by_cases hne : rlp.data = []
  · rw [Rlp.listPayload, hne] at h
    cases h
    simp
  · exact (length_listPayload hne h).le

theorem itemCount_eq (hlt : data.length < 2 ^ 63) : itemCount ⟨data⟩ = lift (Rlp.itemCount ⟨data⟩) := by
  cases data with
  | nil => rfl
  | cons b rest =>
    simp only [itemCount, Rlp.itemCount, List.isEmpty_cons, Bool.false_eq_true, if_false]
    rw [byteAt_eq rfl, ok_bind]
    split_ifs with hstring
    · rfl
    · rw [listPayload_eq]
      cases hpayload : Rlp.listPayload ⟨b :: rest⟩ with
      | error e => rfl
      | ok split =>
        have hlen := length_payload_le hpayload
        exact countLoop_eq (hlen.trans_lt hlt) (Nat.zero_le _) (by omega) (Nat.le_refl 0)

theorem itemAt_eq (hlt : data.length < 2 ^ 63) (n : ℕ) : itemAt ⟨data⟩ n = lift (Rlp.itemAt ⟨data⟩ n) := by
  unfold itemAt Rlp.itemAt
  rw [listPayload_eq]
  cases hpayload : Rlp.listPayload ⟨data⟩ with
  | error e => rfl
  | ok split =>
    have hlen := length_payload_le hpayload
    exact atLoop_eq (hlen.trans_lt hlt) (Nat.zero_le _) (by omega) n (Nat.le_refl 0)

/-- Only an error that the function returns stops it: no panic, and no endless loop. -/
def Returns {α : Type} (r : Reading α) : Prop := ∀ fault, r = .error fault → ∃ e, fault = .error e

theorem returns_lift {α : Type} (r : Except RlpError α) : Returns (lift r) := by
  intro fault h
  cases r with
  | error e =>
    cases h
    exact ⟨e,rfl⟩
  | ok a => cases h

theorem lift_eq_ok {α : Type} {r : Except RlpError α} {a : α} : lift r = .ok a ↔ r = .ok a := by
  cases r with
  | error e => simp [fail]
  | ok a => simp

theorem mapM_raw {data : List UInt8} {slices : List (List UInt8)} (hlt : data.length < 2 ^ 63)
    (hat : ∀ n item, slices[n]? = some item → Rlp.itemAt ⟨data⟩ n = .ok ⟨item⟩) (start : ℕ)
    (rest : List (List UInt8)) (hrest : slices.drop start = rest) :
    (List.range' start rest.length).mapM (fun i => (itemAt ⟨data⟩ i).map asRaw) = .ok rest := by
  induction rest generalizing start with
  | nil => rfl
  | cons item rest ih =>
    have hget : slices[start]? = some item := by
      rw [← List.head?_drop, hrest]
      rfl
    have hnext : slices.drop (start + 1) = rest := by
      rw [← List.tail_drop, hrest]
      rfl
    have hitem := hat start item hget
    rw [List.length_cons, List.range'_succ, List.mapM_cons, itemAt_eq hlt, hitem, ih (start + 1) hnext]
    rfl

/-- No byte string makes the reader panic or run on, and a list whose items can be counted is
tiled by them: there is an item at every index below the count and at no other, and the raw
items are the payload. -/
theorem reads_safely (hlt : data.length < 2 ^ 63) :
    Returns (itemCount ⟨data⟩) ∧ (∀ n, Returns (itemAt ⟨data⟩ n)) ∧ Returns (asBytes ⟨data⟩) ∧
    Returns (decodeU64 ⟨data⟩) ∧
    ∀ k, isList ⟨data⟩ = true → itemCount ⟨data⟩ = .ok k →
      (∀ i, (∃ item, itemAt ⟨data⟩ i = .ok item) ↔ i < k) ∧
      ∃ payload rest slices, listPayload ⟨data⟩ = .ok (payload,rest) ∧
        (List.range k).mapM (fun i => (itemAt ⟨data⟩ i).map asRaw) = .ok slices ∧
        slices.flatten = payload := by
  rw [itemCount_eq hlt, asBytes_eq, decodeU64_eq]
  refine ⟨returns_lift _,fun n => ?_,returns_lift _,returns_lift _,?_⟩
  · rw [itemAt_eq hlt]
    exact returns_lift _
  · intro k hlist hcount
    rw [lift_eq_ok] at hcount
    obtain ⟨payload,rest,slices,hpayload,hcover,rfl,-,hat⟩ := itemCount_split hlist hcount
    have hpast : ∀ i, slices.length ≤ i → Rlp.itemAt ⟨data⟩ i = .error .itemCountMismatch := by
      intro i hi
      cases data with
      | nil => cases hlist
      | cons b tail =>
        rw [Rlp.itemCount] at hcount
        rw [Rlp.itemAt]
        have hb : ¬ b < 0xc0 := UInt8.not_lt.mpr (by simpa [isList] using hlist)
        simp only [if_neg hb, hpayload, bind, Except.bind] at hcount ⊢
        exact atLoop_past (by omega) hcount hi
    refine ⟨fun i => ?_,payload,rest,slices,?_,?_,hcover.symm⟩
    · rw [itemAt_eq hlt]
      constructor
      · rintro ⟨item,hitem⟩
        by_contra hi
        rw [hpast i (by omega)] at hitem
        cases hitem
      · intro hi
        exact ⟨_,lift_eq_ok.mpr (hat i slices[i] (List.getElem?_eq_getElem hi))⟩
    · rw [listPayload_eq, hpayload, lift_ok]
    · rw [List.range_eq_range']
      exact mapM_raw hlt hat 0 slices List.drop_zero

/-- A list of the byte 1 and the string of the bytes 2 and 3. -/
theorem reads_safely_pair :
    itemCount ⟨[0xc4,0x01,0x82,0x02,0x03]⟩ = .ok 2 ∧
      ∃ payload rest slices, listPayload ⟨[0xc4,0x01,0x82,0x02,0x03]⟩ = .ok (payload,rest) ∧
        (List.range 2).mapM (fun i => (itemAt ⟨[0xc4,0x01,0x82,0x02,0x03]⟩ i).map asRaw) = .ok slices ∧
        slices.flatten = payload := by
  have hlt : ([0xc4,0x01,0x82,0x02,0x03] : List UInt8).length < 2 ^ 63 := by decide
  have hsafe := reads_safely hlt
  exact ⟨by rfl,(hsafe.2.2.2.2 2 (by rfl) (by rfl)).2⟩

end Whole

end Guarded

end ZbxChain.Rlp
