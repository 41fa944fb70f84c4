import ZbxChain.Types.Primitives

/-! # `zbx_rlp`: the stream-based builder and the zero-copy view

An open list is a position in the buffer where nine placeholder bytes stand; closing the list
replaces them by the real header. The stack of open positions has the most recent one at its
head.

Positions and lengths are `usize` values; the two checked additions of the source are
`checkedAdd`. A `while pos < len` loop is a recursion with one unit of fuel for each byte, as
every item has at least one.
-/
namespace ZbxChain

structure RlpStream where
  buf : List UInt8
  listStack : List ℕ
  deriving DecidableEq, Repr

namespace RlpStream

def new : RlpStream := ⟨[],[]⟩

def beginList (s : RlpStream) (_n : ℕ) : RlpStream :=
  ⟨s.buf ++ List.replicate 9 0,s.buf.length :: s.listStack⟩

def newList (n : ℕ) : RlpStream := new.beginList n

def minimalBytes (n : UInt64) : List UInt8 := (beBytes64 n).dropWhile (· == 0)

/-- What `encode_string` pushes before the data. -/
def stringHeader (data : List UInt8) : List UInt8 :=
  if data.length = 0 then [0x80]
  else if data.length = 1 ∧ data.headD 0 < 0x80 then []
  else if data.length ≤ 55 then [0x80 + UInt8.ofNat data.length]
  else
    let lenBytes := minimalBytes (UInt64.ofNat data.length)
    (0xb7 + UInt8.ofNat lenBytes.length) :: lenBytes

def encodeString (s : RlpStream) (data : List UInt8) : RlpStream :=
  {s with buf := s.buf ++ stringHeader data ++ data}

def append (s : RlpStream) (data : List UInt8) : RlpStream := s.encodeString data

/-- A pre-encoded item, without further wrapping. -/
def appendRaw (s : RlpStream) (data : List UInt8) : RlpStream := {s with buf := s.buf ++ data}

/-- The `prefix` of `finalize_unbounded_list`. -/
def listHeader (contentLen : ℕ) : List UInt8 :=
  if contentLen ≤ 55 then [0xc0 + UInt8.ofNat contentLen]
  else
    let lenBytes := minimalBytes (UInt64.ofNat contentLen)
    (0xf7 + UInt8.ofNat lenBytes.length) :: lenBytes

/-- The buffer of `finalize_unbounded_list`: a header of the placeholder's own length is
copied over it, any other moves the content. -/
def patch (buf : List UInt8) (start : ℕ) : List UInt8 :=
  let contentStart := start + 9
  let header := listHeader (buf.length - contentStart)
  if header.length = 9 then buf.take start ++ header ++ buf.drop (start + header.length)
  else buf.take start ++ header ++ buf.drop contentStart

/-- `finalize_unbounded_list`; `none` where the source panics with "no open list". -/
def finalizeUnboundedList (s : RlpStream) : Option RlpStream :=
  match s.listStack with
  | [] => none
  | start :: rest => some ⟨patch s.buf start,rest⟩

/-- `out`: the lists still open are closed, innermost first. -/
def out (s : RlpStream) : List UInt8 := s.listStack.foldl patch s.buf

def stringBytes (data : List UInt8) : List UInt8 := stringHeader data ++ data

/-- The pure image of a list whose items add `payload`. -/
def listBytes (payload : List UInt8) : List UInt8 := listHeader payload.length ++ payload

theorem append_eq (s : RlpStream) (data : List UInt8) :
    s.append data = {s with buf := s.buf ++ stringBytes data} := by
  simp only [append, encodeString, stringBytes, List.append_assoc]

theorem patch_eq (front payload : List UInt8) :
    patch (front ++ List.replicate 9 0 ++ payload) front.length = front ++ listBytes payload := by
  have hlen : (front ++ List.replicate 9 0 ++ payload).length - (front.length + 9) = payload.length := by
    simp only [List.length_append, List.length_replicate]
    omega
  have htake : (front ++ List.replicate 9 0 ++ payload).take front.length = front := by
    rw [List.append_assoc, List.take_left]
  have hdrop : (front ++ List.replicate 9 0 ++ payload).drop (front.length + 9) = payload := by
    have hstart : front.length + 9 = (front ++ List.replicate 9 (0 : UInt8)).length := by simp
    rw [hstart, List.drop_left]
  simp only [patch, hlen, htake, listBytes]
  split
  · rename_i hnine
    rw [hnine, hdrop, List.append_assoc]
  · rw [hdrop, List.append_assoc]

/-- Closing a list puts its header in front of its payload. -/
theorem finalize_eq (front payload : List UInt8) (stack : List ℕ) :
    finalizeUnboundedList ⟨front ++ List.replicate 9 0 ++ payload,front.length :: stack⟩ =
      some ⟨front ++ listBytes payload,stack⟩ := by
  simp only [finalizeUnboundedList, patch_eq]

theorem out_newList (n : ℕ) (payload : List UInt8) :
    out {newList n with buf := (newList n).buf ++ payload} = listBytes payload := by
  have hpatch := patch_eq [] payload
  simpa [out, newList, beginList, new] using hpatch

end RlpStream

inductive RlpError where
  | unexpectedEnd (pos : ℕ)
  | itemCountMismatch
  | overflow
  | expectedString
  | expectedList
  deriving DecidableEq, Repr

def RlpError.display : RlpError → String
  | .unexpectedEnd pos => "unexpected end of input at byte " ++ toString pos
  | .itemCountMismatch => "list item count mismatch"
  | .overflow => "integer overflow in length field"
  | .expectedString => "expected string, got list"
  | .expectedList => "expected list, got string"

/-- `usize::checked_add`, with the error the decoder makes of `None`. -/
def checkedAdd (x y : ℕ) : Except RlpError ℕ :=
  if x + y < 2 ^ 64 then .ok (x + y) else .error .overflow

structure Rlp where
  data : List UInt8
  deriving DecidableEq, Repr

namespace Rlp

def asRaw (rlp : Rlp) : List UInt8 := rlp.data

def isList (rlp : Rlp) : Bool := (rlp.data.head?.map (fun b => decide (b ≥ 0xc0))).getD false

/-- One turn of `decode_length`: shift the value by a byte and put `b` in the gap. -/
def pushLength (val : ℕ) (b : UInt8) : ℕ := (val <<< 8) % 2 ^ 64 ||| b.toNat

def decodeLength (bytes : List UInt8) : Except RlpError ℕ :=
  match bytes with
  | [] => .error (.unexpectedEnd 0)
  | b :: _ => if b = 0 then .error .overflow else .ok (bytes.foldl pushLength 0)

/-- The bytes `data[from..to]` of a slice. -/
def slice (data : List UInt8) (start stop : ℕ) : List UInt8 := (data.drop start).take (stop - start)

/-- The length of a long form whose header announces `lenBytes` length bytes. -/
def longLength (data : List UInt8) (pos lenBytes : ℕ) : Except RlpError ℕ := do
  if pos + 1 + lenBytes > data.length then throw (.unexpectedEnd (pos + 1 + lenBytes))
  let len ← decodeLength (slice data (pos + 1) (pos + 1 + lenBytes))
  let header ← checkedAdd 1 lenBytes
  checkedAdd header len

/-- The length that the first byte `b` of the item at `pos` announces. -/
def headLength (data : List UInt8) (pos : ℕ) (b : UInt8) : Except RlpError ℕ :=
  if b < 0x80 then .ok 1
  else if b < 0xb8 then .ok (1 + (b - 0x80).toNat)
  else if b < 0xc0 then longLength data pos (b - 0xb7).toNat
  else if b < 0xf8 then .ok (1 + (b - 0xc0).toNat)
  else longLength data pos (b - 0xf7).toNat

def itemLength (data : List UInt8) (pos : ℕ) : Except RlpError ℕ :=
  match data[pos]? with
  | none => .error (.unexpectedEnd pos)
  | some b => do
    let itemLen ← headLength data pos b
    let stop ← checkedAdd pos itemLen
    if stop > data.length then throw (.unexpectedEnd stop)
    pure itemLen

def longPayload (data : List UInt8) (lenBytes : ℕ) : Except RlpError (List UInt8 × List UInt8) := do
  if 1 + lenBytes > data.length then throw (.unexpectedEnd (1 + lenBytes))
  let len ← decodeLength (slice data 1 (1 + lenBytes))
  let header ← checkedAdd 1 lenBytes
  let stop ← checkedAdd header len
  if stop > data.length then throw (.unexpectedEnd stop)
  pure (slice data (1 + lenBytes) stop,data.drop stop)

def shortPayload (data : List UInt8) (len : ℕ) : Except RlpError (List UInt8 × List UInt8) := do
  if 1 + len > data.length then throw (.unexpectedEnd (1 + len))
  pure (slice data 1 (1 + len),data.drop (1 + len))

def splitPayload (rlp : Rlp) : Except RlpError (List UInt8 × List UInt8) :=
  match rlp.data with
  | [] => .error (.unexpectedEnd 0)
  | b :: rest =>
    if b < 0x80 then .ok ([b],rest)
    else if b < 0xb8 then shortPayload rlp.data (b - 0x80).toNat
    else if b < 0xc0 then longPayload rlp.data (b - 0xb7).toNat
    else .error .expectedString

def listPayload (rlp : Rlp) : Except RlpError (List UInt8 × List UInt8) :=
  match rlp.data with
  | [] => .ok ([],[])
  | b :: _ =>
    if b < 0xc0 then .error .expectedList
    else if b < 0xf8 then shortPayload rlp.data (b - 0xc0).toNat
    else longPayload rlp.data (b - 0xf7).toNat

def asBytes (rlp : Rlp) : Except RlpError (List UInt8) := do
  let (payload,_) ← rlp.splitPayload
  pure payload

def countLoop (bytes : List UInt8) : ℕ → ℕ → ℕ → Except RlpError ℕ
  | 0, _, count => .ok count
  | fuel + 1, pos, count => do
    if pos < bytes.length then
      let itemLen ← itemLength bytes pos
      countLoop bytes fuel (pos + itemLen) (count + 1)
    else pure count

/-- `item_count`: anything that is not a list counts no items. -/
def itemCount (rlp : Rlp) : Except RlpError ℕ :=
  match rlp.data with
  | [] => .ok 0
  | b :: _ =>
    if b < 0xc0 then .ok 0
    else do
      let (bytes,_) ← rlp.listPayload
      countLoop bytes (bytes.length + 1) 0 0

def atLoop (bytes : List UInt8) (n : ℕ) : ℕ → ℕ → ℕ → Except RlpError Rlp
  | 0, _, _ => .error .itemCountMismatch
  | fuel + 1, pos, idx => do
    if pos < bytes.length then
      let itemLen ← itemLength bytes pos
      if idx = n then pure ⟨slice bytes pos (pos + itemLen)⟩
      else atLoop bytes n fuel (pos + itemLen) (idx + 1)
    else throw .itemCountMismatch

/-- `at`. -/
def itemAt (rlp : Rlp) (n : ℕ) : Except RlpError Rlp := do
  let (bytes,_) ← rlp.listPayload
  atLoop bytes n (bytes.length + 1) 0 0

/-- `val_at::<Vec<u8>>`. -/
def bytesAt (rlp : Rlp) (n : ℕ) : Except RlpError (List UInt8) := do
  let item ← rlp.itemAt n
  item.asBytes

/-- `u64::decode_from`. -/
def decodeU64 (rlp : Rlp) : Except RlpError UInt64 := do
  let bytes ← rlp.asBytes
  if bytes.length > 8 then throw .overflow
  pure (bytes.foldl (fun val b => (val <<< 8) ||| b.toUInt64) 0)

end Rlp

end ZbxChain
