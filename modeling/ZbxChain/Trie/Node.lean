import ZbxChain.Rlp.RoundTrip
import ZbxChain.Trie.Nibbles
import Mathlib.Data.List.FinRange

/-! # Trie nodes and their encoding -/
namespace ZbxChain
open RlpStream

inductive TrieError where
  | missingNode (hash : String)
  | keyNotFound
  | rlpDecode (reason : String)
  | database (reason : String)
  deriving DecidableEq

/-- What stops a call: an error it returns, a panic, or the bound that the model puts on
its recursion. -/
inductive Fault where
  | error (e : TrieError)
  | panic
  | fuel
  deriving DecidableEq

/-- The text of a `TrieError`. A panic has none, nor has the bound on the recursion. -/
def Fault.display : Fault → String
  | .error (.missingNode hash) => "node not found in database: " ++ hash
  | .error .keyNotFound => "key not found"
  | .error (.rlpDecode reason) => "RLP decode error: " ++ reason
  | .error (.database reason) => "database error: " ++ reason
  | .panic | .fuel => ""

mutual
inductive TrieNode where
  | empty
  | leaf (path : Nibbles) (value : List UInt8)
  | extension (path : Nibbles) (child : NodeRef)
  | branch (children : Fin 16 → NodeRef) (value : Option (List UInt8))

inductive NodeRef where
  | hash (h : H256)
  | inline (node : TrieNode)
  | empty
end

mutual
def TrieNode.encode : TrieNode → List UInt8
  | .empty => [0x80]
  | .leaf path value =>
    (((newList 2).append (path.encodeCompact true)).append value).out
  | .extension path child =>
    (child.appendTo ((newList 2).append (path.encodeCompact false))).out
  | .branch children value =>
    let s := (List.finRange 16).foldl (fun s i => (children i).appendTo s) (newList 17)
    match value with
    | some v => (s.append v).out
    | none => (s.append []).out

/-- How a child stands in its parent: the bytes of a hash, a raw inline node, or nothing. -/
def NodeRef.appendTo : NodeRef → RlpStream → RlpStream
  | .hash h, s => s.append h.asBytes
  | .inline node, s => s.appendRaw node.encode
  | .empty, s => s.append []
end

def ofRlp {α : Type} : Except RlpError α → Except Fault α
  | .ok a => .ok a
  | .error e => .error (.error (.rlpDecode e.display))

/-- A child slot: a list is an inline node, a string a hash or nothing. -/
def decodeRef (decode : List UInt8 → Except Fault TrieNode) (slot : String) (child : Rlp) :
    Except Fault NodeRef :=
  if child.isList then do
    let node ← decode child.asRaw
    pure (.inline node)
  else do
    let raw ← ofRlp child.asBytes
    if raw.isEmpty then pure .empty
    else if raw.length = 32 then pure (.hash (H256.fromSlice raw))
    else throw (.error (.rlpDecode (slot ++ " has unexpected string length " ++ toString raw.length)))

def decodeChildren (decode : List UInt8 → Except Fault TrieNode) (rlp : Rlp) :
    Except Fault (Fin 16 → NodeRef) :=
  (List.finRange 16).foldlM (fun children (i : Fin 16) => do
    let childRlp ← ofRlp (rlp.itemAt i.val)
    let child ← decodeRef decode ("branch slot " ++ toString i.val) childRlp
    pure (Function.update children i child)) (fun _ => NodeRef.empty)

/-- `decode` on bytes of any length below the fuel: an inline child is shorter than the
node it stands in. -/
def TrieNode.decodeFuel : ℕ → List UInt8 → Except Fault TrieNode
  | 0, _ => .error .fuel
  | fuel + 1, bytes => do
    let rlp : Rlp := ⟨bytes⟩
    let count ← ofRlp rlp.itemCount
    match count with
    | 0 => pure .empty
    | 2 => do
      let pathBytes ← ofRlp (rlp.bytesAt 0)
      match Nibbles.decodeCompact pathBytes with
      | none => throw .panic
      | some (path,isLeaf) =>
        if isLeaf then do
          let value ← ofRlp (rlp.bytesAt 1)
          pure (.leaf path value)
        else do
          let childRlp ← ofRlp (rlp.itemAt 1)
          let child ← decodeRef (decodeFuel fuel) "extension child" childRlp
          pure (.extension path child)
    | 17 => do
      let children ← decodeChildren (decodeFuel fuel) rlp
      let valBytes ← ofRlp (rlp.bytesAt 16)
      pure (.branch children (if valBytes.isEmpty then none else some valBytes))
    | count => throw (.error (.rlpDecode ("unexpected item count: " ++ toString count)))

def TrieNode.decode (bytes : List UInt8) : Except Fault TrieNode :=
  decodeFuel (bytes.length + 1) bytes

namespace NodeRef

def bytes : NodeRef → List UInt8
  | .hash h => stringBytes h.asBytes
  | .inline node => node.encode
  | .empty => stringBytes []

theorem appendTo_eq (r : NodeRef) (s : RlpStream) : r.appendTo s = s.appendRaw r.bytes := by
  cases r with
  | hash h => rw [appendTo, append_eq, bytes, appendRaw]
  | inline node => rw [appendTo, bytes]
  | empty => rw [appendTo, append_eq, bytes, appendRaw]

end NodeRef

namespace TrieNode

def items : TrieNode → List (List UInt8)
  | .empty => []
  | .leaf path value => [stringBytes (path.encodeCompact true), stringBytes value]
  | .extension path child => [stringBytes (path.encodeCompact false), child.bytes]
  | .branch children value =>
    (List.finRange 16).map (fun i => (children i).bytes) ++ [stringBytes (value.getD [])]

theorem append_out (n : ℕ) (payload data : List UInt8) :
    (append { newList n with buf := (newList n).buf ++ payload } data).out =
      listBytes (payload ++ stringBytes data) := by
  rw [append_eq, ← out_newList n (payload ++ stringBytes data), ← List.append_assoc]

theorem foldl_appendTo (refs : List NodeRef) (s : RlpStream) :
    refs.foldl (fun s r => r.appendTo s) s = s.appendRaw (refs.map NodeRef.bytes).flatten := by
  induction refs generalizing s with
  | nil => simp [appendRaw]
  | cons r refs ih =>
    rw [List.foldl_cons, ih, NodeRef.appendTo_eq, List.map_cons, List.flatten_cons]
    simp only [appendRaw, List.append_assoc]

theorem encode_eq {node : TrieNode} (h : node ≠ .empty) : node.encode = listBytes node.items.flatten := by
  cases node with
  | empty => exact absurd rfl h
  | leaf path value =>
    rw [encode, append_eq (newList 2), append_out, items]
    simp
  | extension path child =>
    rw [encode, NodeRef.appendTo_eq, append_eq, items]
    have hout := out_newList 2 (stringBytes (path.encodeCompact false) ++ child.bytes)
    rw [← List.append_assoc] at hout
    simpa [appendRaw] using hout
  | branch children value =>
    have hfold := foldl_appendTo ((List.finRange 16).map children) (newList 17)
    rw [List.foldl_map, List.map_map] at hfold
    have hvalue : ∀ v : List UInt8,
        (((List.finRange 16).foldl (fun s i => (children i).appendTo s) (newList 17)).append v).out =
          listBytes ((List.finRange 16).map (fun i => (children i).bytes) ++
            [stringBytes v]).flatten := by
      intro v
      rw [hfold, appendRaw, append_out, List.flatten_append, List.flatten_singleton]
      rfl
    cases value with
    | none => rw [encode, items, ← hvalue]; rfl
    | some v => rw [encode, items, ← hvalue]; rfl

theorem framed_encode (node : TrieNode) : Rlp.Framed node.encode := by
  by_cases h : node = .empty
  · rw [h, encode]
    exact Rlp.framed_string []
  · rw [encode_eq h]
    exact Rlp.framed_list _

theorem framed_items (node : TrieNode) : ∀ item ∈ node.items, Rlp.Framed item := by
  have hbytes : ∀ r : NodeRef, Rlp.Framed r.bytes := by
    intro r
    cases r with
    | hash h => exact Rlp.framed_string _
    | inline node => exact node.framed_encode
    | empty => exact Rlp.framed_string _
  intro item hitem
  cases node with
  | empty => cases hitem
  | leaf path value =>
    rcases List.mem_pair.mp hitem with rfl | rfl
    · exact Rlp.framed_string _
    · exact Rlp.framed_string _
  | extension path child =>
    rcases List.mem_pair.mp hitem with rfl | rfl
    · exact Rlp.framed_string _
    · exact hbytes child
  | branch children value =>
    rcases List.mem_append.mp hitem with hitem | hitem
    · obtain ⟨i,-,rfl⟩ := List.mem_map.mp hitem
      exact hbytes (children i)
    · rw [List.mem_singleton.mp hitem]
      exact Rlp.framed_string _

end TrieNode

mutual
/-- The nodes that the decoder gives back as they were: an empty branch value is absent
and an empty child is not inline. -/
def TrieNode.Proper : TrieNode → Prop
  | .empty => True
  | .leaf _ _ => True
  | .extension _ child => child.Proper
  | .branch children value => (∀ i, (children i).Proper) ∧ value ≠ some []

def NodeRef.Proper : NodeRef → Prop
  | .hash _ => True
  | .inline node => node ≠ .empty ∧ node.Proper
  | .empty => True
end

namespace TrieNode
variable {node : TrieNode}

theorem item_lt (hne : node ≠ .empty) {item : List UInt8} (h : item ∈ node.items) :
    item.length < node.encode.length := by
  have hle := (List.sublist_flatten_of_mem h).length_le
  have hlt := Rlp.length_lt_listBytes node.items.flatten
  rw [encode_eq hne]
  omega

theorem isList_encode (hne : node ≠ .empty) (hlt : node.encode.length < 2 ^ 63) :
    Rlp.isList ⟨node.encode⟩ = true := by
  have hpayload := Rlp.length_lt_listBytes node.items.flatten
  rw [encode_eq hne] at hlt ⊢
  exact Rlp.isList_list (hpayload.trans hlt)

theorem encode_ne (hne : node ≠ .empty) : node.encode ≠ [0x80] := by
  intro h
  have hlist := isList_encode hne (by rw [h]; decide)
  rw [h] at hlist
  cases hlist

theorem itemCount_encode (hne : node ≠ .empty) (hlt : node.encode.length < 2 ^ 63) :
    Rlp.itemCount ⟨node.encode⟩ = .ok node.items.length := by
  have hpayload := Rlp.length_lt_listBytes node.items.flatten
  rw [encode_eq hne] at hlt ⊢
  exact Rlp.itemCount_list node.framed_items (hpayload.trans hlt)

theorem itemAt_encode (hne : node ≠ .empty) (hlt : node.encode.length < 2 ^ 63) {n : ℕ}
    {item : List UInt8} (h : node.items[n]? = some item) :
    Rlp.itemAt ⟨node.encode⟩ n = .ok ⟨item⟩ := by
  have hpayload := Rlp.length_lt_listBytes node.items.flatten
  rw [encode_eq hne] at hlt ⊢
  rw [Rlp.itemAt_list node.framed_items (hpayload.trans hlt), h]
  rfl

theorem bytesAt_encode (hne : node ≠ .empty) (hlt : node.encode.length < 2 ^ 63) {n : ℕ}
    {data : List UInt8} (h : node.items[n]? = some (stringBytes data)) :
    Rlp.bytesAt ⟨node.encode⟩ n = .ok data := by
  have hdata : data.length < 2 ^ 63 := by
    have hitem := item_lt hne (List.mem_of_getElem? h)
    have hle := Rlp.length_le_stringBytes data
    omega
  rw [Rlp.bytesAt, itemAt_encode hne hlt h]
  exact Rlp.asBytes_string hdata

theorem decodeRef_bytes {decode : List UInt8 → Except Fault TrieNode} {r : NodeRef} (slot : String)
    (hproper : r.Proper) (hlt : r.bytes.length < 2 ^ 63)
    (hinline : ∀ node, r = .inline node → decode node.encode = .ok node) :
    decodeRef decode slot ⟨r.bytes⟩ = .ok r := by
  cases r with
  | hash h =>
    have hdata : h.asBytes.length < 2 ^ 63 := by
      rw [H256.length_asBytes]
      omega
    have hne : h.asBytes.isEmpty = false := by
      rw [List.isEmpty_eq_false_iff, ← List.length_pos_iff, H256.length_asBytes]
      omega
    rw [decodeRef, NodeRef.bytes, Rlp.isList_string hdata, Rlp.asBytes_string hdata]
    simp only [ofRlp, bind, Except.bind, hne, Bool.false_eq_true, if_false, H256.length_asBytes,
      if_true, H256.fromSlice_asBytes]
    rfl
  | inline node =>
    have hlist := isList_encode hproper.1 hlt
    rw [decodeRef, NodeRef.bytes, hlist, Rlp.asRaw, hinline node rfl]
    rfl
  | empty => rfl

theorem foldlM_update {γ : Type} {step : (Fin 16 → γ) → Fin 16 → Except Fault (Fin 16 → γ)}
    {g : Fin 16 → γ} (h : ∀ children i, step children i = .ok (Function.update children i (g i)))
    (l : List (Fin 16)) (init : Fin 16 → γ) :
    l.foldlM step init = .ok (fun i => if i ∈ l then g i else init i) := by
  induction l generalizing init with
  | nil => simp [pure, Except.pure]
  | cons i l ih =>
    rw [List.foldlM_cons, h]
    simp only [bind, Except.bind]
    rw [ih]
    refine congrArg Except.ok ?_
    funext j
    by_cases hj : j = i
    · subst hj
      simp
    · simp [hj]

theorem decodeChildren_eq {decode : List UInt8 → Except Fault TrieNode} {rlp : Rlp}
    {children : Fin 16 → NodeRef}
    (hat : ∀ i : Fin 16, rlp.itemAt i.val = .ok ⟨(children i).bytes⟩)
    (hslot : ∀ (slot : String) (i : Fin 16),
      decodeRef decode slot ⟨(children i).bytes⟩ = .ok (children i)) :
    decodeChildren decode rlp = .ok children := by
  rw [decodeChildren, foldlM_update (g := children)]
  · simp
  · intro children' i
    simp only [hat, ofRlp, bind, Except.bind, hslot]
    rfl

theorem decodeFuel_encode {fuel : ℕ} (hproper : node.Proper) (hlt : node.encode.length < 2 ^ 63)
    (hfuel : node.encode.length < fuel) : decodeFuel fuel node.encode = .ok node := by
  induction fuel generalizing node with
  | zero => omega
  | succ fuel ih =>
    by_cases hne : node = .empty
    · rw [hne]
      rfl
    have hcount := itemCount_encode hne hlt
    have hslot : ∀ (slot : String) (r : NodeRef), r.Proper → r.bytes ∈ node.items →
        decodeRef (decodeFuel fuel) slot ⟨r.bytes⟩ = .ok r := by
      intro slot r hr hmem
      have hitem := item_lt hne hmem
      refine decodeRef_bytes slot hr (by omega) ?_
      rintro inner rfl
      have hinner : inner.encode.length < node.encode.length := hitem
      exact ih hr.2 (by omega) (by omega)
    cases node with
    | empty => exact absurd rfl hne
    | leaf path value =>
      have hpath := bytesAt_encode hne hlt (n := 0) rfl
      have hvalue := bytesAt_encode hne hlt (n := 1) rfl
      rw [decodeFuel]
      simp only [hcount, ofRlp, items, List.length_cons, List.length_nil, bind, Except.bind, hpath,
        Nibbles.decodeCompact_encodeCompact, if_true, hvalue]
      rfl
    | extension path child =>
      have hpath := bytesAt_encode hne hlt (n := 0) rfl
      have hat := itemAt_encode hne hlt (n := 1) rfl
      have hchild := hslot "extension child" child hproper (by simp [items])
      rw [decodeFuel]
      simp only [hcount, ofRlp, items, List.length_cons, List.length_nil, bind, Except.bind, hpath,
        Nibbles.decodeCompact_encodeCompact, Bool.false_eq_true, if_false, hat, hchild]
      rfl
    | branch children value =>
      have hget : ∀ i : Fin 16, (branch children value).items[i.val]? = some (children i).bytes := by
        intro i
        have hi : i.val < ((List.finRange 16).map (fun i => (children i).bytes)).length := by
          rw [List.length_map, List.length_finRange]
          exact i.isLt
        rw [items, List.getElem?_append_left hi, List.getElem?_eq_getElem hi, List.getElem_map,
          List.getElem_finRange]
        rfl
      have hlast : (branch children value).items[16]? = some (stringBytes (value.getD [])) := by
        rw [items, List.getElem?_append_right (by simp), List.length_map, List.length_finRange]
        rfl
      have hlen : (branch children value).items.length = 17 := by
        rw [items, List.length_append, List.length_map, List.length_finRange]
        rfl
      have hchildren := decodeChildren_eq (fun i => itemAt_encode hne hlt (hget i))
        (fun slot i => hslot slot (children i) (hproper.1 i) (List.mem_of_getElem? (hget i)))
      have hvalue := bytesAt_encode hne hlt hlast
      have habsent : (if (value.getD []).isEmpty = true then none else some (value.getD [])) = value := by
        cases value with
        | none => rfl
        | some v =>
          have hv : v ≠ [] := fun h => hproper.2 (by rw [h])
          simp [hv]
      rw [decodeFuel]
      simp only [hcount, hlen, ofRlp, bind, Except.bind, hchildren, hvalue, habsent]
      rfl

/-- A proper node of less than 2^63 bytes reads back. -/
theorem decode_encode_node (hproper : node.Proper) (hlt : node.encode.length < 2 ^ 63) :
    decode node.encode = .ok node := decodeFuel_encode hproper hlt (Nat.lt_succ_self _)

theorem encode_empty : encode .empty = [0x80] := rfl

end TrieNode

-- from here on an encoding is known by its items only
attribute [irreducible] TrieNode.encode NodeRef.appendTo TrieNode.decodeFuel

end ZbxChain
