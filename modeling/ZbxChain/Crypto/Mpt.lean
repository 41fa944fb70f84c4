import ZbxChain.Crypto.Platform
import ZbxChain.Trie.Nibbles

/-! # `zbx_crypto::mpt`: the trie over boxed nodes

A second Patricia trie, for the roots in block headers. Its nodes own their children; the
hashes come in only when the whole tree is encoded.
-/
namespace ZbxChain.Mpt

inductive Node where
  | empty
  | leaf (path : Nibbles) (value : List UInt8)
  | extension (path : Nibbles) (child : Node)
  | branch (children : Fin 16 → Node) (value : Option (List UInt8))

def commonLen (a b : Nibbles) : ℕ := ((a.zip b).takeWhile (fun p => p.1 == p.2)).length

def wrapWithExtension (cl : ℕ) (ep : Nibbles) (inner : Node) : Node :=
  if 0 < cl then .extension (ep.take cl) inner else inner

def noChildren : Fin 16 → Node := fun _ => .empty

def insert : Node → Nibbles → List UInt8 → Node
  | .empty, path, value => .leaf path value
  | .leaf ep ev, path, value =>
    let cl := commonLen path ep
    if cl = ep.length ∧ cl = path.length then .leaf ep value
    else
      let children := if cl = ep.length then noChildren
        else Function.update noChildren (ep.nibbleAt cl) (.leaf (ep.drop (cl + 1)) ev)
      let bval := if cl = ep.length then some ev else none
      let (children,bval) := if cl = path.length then (children,some value)
        else (Function.update children (path.nibbleAt cl) (.leaf (path.drop (cl + 1)) value),bval)
      wrapWithExtension (commonLen path ep) ep (.branch children bval)
  | .extension ep child, path, value =>
    let cl := commonLen path ep
    if cl = ep.length then .extension ep (insert child (path.drop cl) value)
    else
      let remainder := ep.drop (cl + 1)
      let children := Function.update noChildren (ep.nibbleAt cl)
        (if remainder.isEmpty then child else .extension remainder child)
      let newPath : Nibbles := path.drop cl
      let (children,bval) := if newPath.isEmpty then (children,some value)
        else (Function.update children (newPath.nibbleAt 0) (.leaf (newPath.drop 1) value),none)
      wrapWithExtension cl ep (.branch children bval)
  | .branch children bval, path, value =>
    if path.isEmpty then .branch children (some value)
    else
      let idx := path.nibbleAt 0
      .branch (Function.update children idx (insert (children idx) (path.drop 1) value)) bval

section Encoding

/-- The bytes of a `u64` from its first non-zero one on, or the last one. -/
def stripLeading (n : UInt64) : List UInt8 :=
  let b := beBytes64 n
  let first := (b.findIdx? (fun x => x != 0)).getD (b.length - 1)
  b.drop first

/-- `be_minimal`; `n as u64` keeps the low 64 bits. -/
def beMinimal (n : ℕ) : List UInt8 := stripLeading (UInt64.ofNat n)

def rlpBytes (data : List UInt8) : List UInt8 :=
  let n := data.length
  if n = 0 then [0x80]
  else if n = 1 ∧ data.headD 0 < 0x80 then [data.headD 0]
  else if n ≤ 55 then (0x80 + UInt8.ofNat n) :: data
  else
    let lenEnc := beMinimal n
    (0xb7 + UInt8.ofNat lenEnc.length) :: (lenEnc ++ data)

def rlpList (items : List (List UInt8)) : List UInt8 :=
  let payload := items.flatMap id
  let n := payload.length
  if n ≤ 55 then (0xc0 + UInt8.ofNat n) :: payload
  else
    let lenEnc := beMinimal n
    (0xf7 + UInt8.ofNat lenEnc.length) :: (lenEnc ++ payload)

/-- `pack_nibbles`, only ever called on pairs. -/
def packNibbles : Nibbles → List UInt8
  | a :: b :: rest => (UInt8.ofNat a.val <<< 4 ||| UInt8.ofNat b.val) :: packNibbles rest
  | _ => []

def hpEncode (nibbles : Nibbles) (isLeaf : Bool) : List UInt8 :=
  let pre : UInt8 := if isLeaf then 2 else 0
  let odd := nibbles.length % 2 = 1
  let hp := if odd then
      ((pre + 1) <<< 4 ||| UInt8.ofNat (nibbles.nibbleAt 0).val) :: packNibbles (nibbles.drop 1)
    else pre <<< 4 :: packNibbles nibbles
  rlpBytes hp

variable (P : Platform)

/-- `encode_node`, from the node's own RLP. -/
def embed (rlp : List UInt8) : List UInt8 :=
  if rlp.length < 32 then rlp else rlpBytes (P.keccak256 rlp).asBytes

def nodeRlp : Node → List UInt8
  | .empty => [0x80]
  | .leaf path value => rlpList [hpEncode path true,rlpBytes value]
  | .extension path child => rlpList [hpEncode path false,embed P (nodeRlp child)]
  | .branch children value =>
    rlpList ((List.finRange 16).map (fun i => embed P (nodeRlp (children i))) ++
      [(value.map rlpBytes).getD [0x80]])

def rootHash (root : Node) : H256 := P.keccak256 (nodeRlp P root)

end Encoding

def rlpUint64 (n : UInt64) : List UInt8 := if n = 0 then [0x80] else rlpBytes (stripLeading n)

def toNibbles (data : List UInt8) : Nibbles := data.flatMap (fun b => [Nibbles.high b,Nibbles.low b])

variable (P : Platform)

def trieRootFromPairs (items : List (List UInt8 × List UInt8)) : H256 :=
  if items.isEmpty then P.keccak256 [0x80]
  else rootHash P (items.foldl (fun root e => insert root (toNibbles e.1) e.2) .empty)

/-- The key and the value under which a transaction is put: the index is cast to `u64`. -/
def txEntry (i : ℕ) (hash : H256) : List UInt8 × List UInt8 :=
  (rlpUint64 (UInt64.ofNat i),rlpBytes hash.asBytes)

def transactionsRootMpt (txHashes : List H256) : H256 :=
  if txHashes.isEmpty then P.keccak256 [0x80]
  else rootHash P (txHashes.zipIdx.foldl (fun root e =>
    insert root (toNibbles (txEntry e.2 e.1).1) (txEntry e.2 e.1).2) .empty)

end ZbxChain.Mpt
