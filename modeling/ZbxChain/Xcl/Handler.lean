import ZbxChain.Foundation.Stateful
import ZbxChain.Light.Ibc
import ZbxChain.Staking.Ledger
import ZbxChain.Trie.Proof

/-! # `zbx_xcl`: packets between chains

A sender stores the hash of a packet in its state. A receiver asks for a proof of that entry
against a root that its client of the other chain holds. What a handler has written before an
error stays written. Packets carry transfers and messages. Machine integers wrap, as in a
release build; amounts are numbers below `2 ^ 128`.
-/
namespace ZbxChain.Xcl
open Staking (wrap128)

abbrev ChannelId := BitVec 256
abbrev ClientId := BitVec 256

inductive XclError where
  | channelNotFound (id : String)
  | channelNotOpen (id state : String)
  | clientNotFound (id : String)
  | headerNotFound (height : UInt64)
  | invalidQc (reason : String)
  | staleHeader (got stored : UInt64)
  | noValidatorSet
  | proofInvalid (reason : String)
  | packetAlreadyReceived (channel : String) (sequence : UInt64)
  | alreadyAcknowledged (channel : String) (sequence : UInt64)
  | packetTimeout (packetHeight timeout : UInt64)
  | packetNotTimedOut
  | sequenceOutOfOrder (expected got : UInt64)
  | noCommitment (channel : String) (sequence : UInt64)
  | insufficientEscrow (need have_ : ℕ)
  | decodeFailed (reason : String)
  | invalidPacketData (reason : String)
  | unsupportedApp (appId : UInt8)
  | chainIdMismatch (expected got : UInt64)
  deriving DecidableEq

/-- A handler returns an error, or decoding a node of a proof panics. -/
inductive XclStop where
  | error (e : XclError)
  | panic
  deriving DecidableEq

structure XclPacket where
  sequence : UInt64
  srcChainId : UInt64
  dstChainId : UInt64
  srcChannel : ChannelId
  dstChannel : ChannelId
  data : List UInt8
  timeoutHeight : UInt64
  timeoutTimestamp : UInt64
  deriving DecidableEq

def textBytes (text : String) : List UInt8 := text.toUTF8.data.toList

/-- `u32::to_be_bytes` of a length; the cast keeps the low bits. -/
def lengthBytes (bytes : List UInt8) : List UInt8 := Bytes.bytesBE 4 bytes.length

namespace XclPacket
variable (packet : XclPacket)

def canonicalBytes : List UInt8 :=
  beBytes64 packet.sequence ++ beBytes64 packet.srcChainId ++ beBytes64 packet.dstChainId ++
    H256.asBytes packet.srcChannel ++ H256.asBytes packet.dstChannel ++ beBytes64 packet.timeoutHeight ++
    beBytes64 packet.timeoutTimestamp ++ lengthBytes packet.data ++ packet.data

def commitment (P : Platform) : H256 := P.keccak256 packet.canonicalBytes

def isTimedOutHeight (currentHeight : UInt64) : Bool :=
  decide (0 < packet.timeoutHeight ∧ packet.timeoutHeight ≤ currentHeight)

def isTimedOutTimestamp (currentTs : UInt64) : Bool :=
  decide (0 < packet.timeoutTimestamp ∧ packet.timeoutTimestamp ≤ currentTs)

end XclPacket

structure PacketAck where
  result : UInt8
  error : String

namespace PacketAck

def success : PacketAck := ⟨1,""⟩

def isSuccess (ack : PacketAck) : Bool := decide (ack.result = 1)

def encode (ack : PacketAck) : List UInt8 :=
  ack.result :: lengthBytes (textBytes ack.error) ++ textBytes ack.error

end PacketAck

/-- The keys of the state trie: the kind of entry, the channel in hex and the sequence. -/
def entryKey (kind : String) (channel : ChannelId) (sequence : UInt64) : List UInt8 :=
  textBytes ("xcl/" ++ kind ++ "/" ++ hexEncode (H256.asBytes channel) ++ "/") ++ beBytes64 sequence

def commitmentKey : ChannelId → UInt64 → List UInt8 := entryKey "commitment"
def receiptKey : ChannelId → UInt64 → List UInt8 := entryKey "receipt"
def ackKey : ChannelId → UInt64 → List UInt8 := entryKey "ack"

/-- The namespace of a denom that has come over a channel. -/
def namespacePrefix (srcChainId : UInt64) (channel : ChannelId) : String :=
  "xcl/" ++ toString srcChainId ++ "/" ++ hexEncode (H256.asBytes channel) ++ "/"

/-- `str::strip_prefix`. -/
def stripPrefix (p s : String) : Option String :=
  if p.toList.isPrefixOf s.toList then some (String.ofList (s.toList.drop p.length)) else none

structure FtPacketData where
  denom : String
  amount : ℕ
  sender : Address
  receiver : Address
  memo : String
  deriving DecidableEq

structure MsgPacketData where
  sender : Address
  receiver : Address
  payload : List UInt8
  deriving DecidableEq

/-- `read_bytes!`: the next bytes, and those behind them. -/
def readBytes (n : ℕ) (bytes : List UInt8) : Except XclError (List UInt8 × List UInt8) :=
  if bytes.length < n then .error (.decodeFailed ("unexpected EOF: need " ++ toString n ++ " bytes"))
  else .ok (bytes.take n,bytes.drop n)

def readU32 (bytes : List UInt8) : Except XclError (ℕ × List UInt8) :=
  if bytes.length < 4 then .error (.decodeFailed "unexpected EOF reading u32")
  else .ok (Bytes.ofBytesBE (bytes.take 4),bytes.drop 4)

def readText (field : String) (bytes : List UInt8) : Except XclError String :=
  match String.fromUTF8? ⟨bytes.toArray⟩ with
  | none => .error (.decodeFailed ("invalid UTF-8 in " ++ field))
  | some s => .ok s

namespace FtPacketData

def encode (ft : FtPacketData) : List UInt8 :=
  1 :: lengthBytes (textBytes ft.denom) ++ textBytes ft.denom ++ Bytes.bytesBE 16 ft.amount ++
    ft.sender.asBytes ++ ft.receiver.asBytes ++ lengthBytes (textBytes ft.memo) ++ textBytes ft.memo

/-- A first byte other than 1 belongs to the legacy format. -/
def decode (bytes : List UInt8) : Except XclError FtPacketData := do
  if bytes.isEmpty then throw (.decodeFailed "empty packet data")
  let (denomLen,bytes) ← readU32 (if bytes.head? = some 1 then bytes.tail else bytes)
  let (denom,bytes) ← readBytes denomLen bytes
  let denom ← readText "denom" denom
  let (amount,bytes) ← readBytes 16 bytes
  let (sender,bytes) ← readBytes 20 bytes
  let (receiver,bytes) ← readBytes 20 bytes
  let (memoLen,bytes) ← readU32 bytes
  let (memo,_) ← readBytes memoLen bytes
  let memo ← readText "memo" memo
  pure ⟨denom,Bytes.ofBytesBE amount,BitVec.ofNat 160 (Bytes.ofBytesBE sender),
    BitVec.ofNat 160 (Bytes.ofBytesBE receiver),memo⟩

end FtPacketData

namespace MsgPacketData

/-- The length of the payload is cut to 16 bits. -/
def encode (msg : MsgPacketData) : List UInt8 :=
  2 :: msg.sender.asBytes ++ msg.receiver.asBytes ++ Bytes.bytesBE 2 msg.payload.length ++ msg.payload

def decode (bytes : List UInt8) : Except XclError MsgPacketData :=
  if bytes.length < 43 then
    .error (.invalidPacketData "MSG-1: data too short (need at least 43 bytes)")
  else if bytes.head? ≠ some 2 then
    .error (.invalidPacketData ("MSG-1: wrong app_id byte 0x" ++ hexEncode (bytes.take 1) ++ " (expected 0x02)"))
  else
    let payloadLen := Bytes.ofBytesBE ((bytes.drop 41).take 2)
    if bytes.length < 43 + payloadLen then
      .error (.invalidPacketData ("MSG-1: declared payload length " ++ toString payloadLen ++ " but only " ++
        toString (bytes.length - 43) ++ " bytes remain"))
    else .ok ⟨BitVec.ofNat 160 (Bytes.ofBytesBE ((bytes.drop 1).take 20)),
      BitVec.ofNat 160 (Bytes.ofBytesBE ((bytes.drop 21).take 20)),(bytes.drop 43).take payloadLen⟩

end MsgPacketData

section Formats
variable {bytes rest : List UInt8}

theorem readU32_append {n : ℕ} : readU32 (Bytes.bytesBE 4 n ++ rest) = .ok (n % 256 ^ 4,rest) := by
  have hlength := Bytes.length_bytesBE 4 n
  rw [readU32, if_neg (by simp), List.take_left' hlength, List.drop_left' hlength, Bytes.ofBytesBE_bytesBE]

theorem readBytes_append {n : ℕ} (h : bytes.length = n) : readBytes n (bytes ++ rest) = .ok (bytes,rest) := by
  rw [readBytes, if_neg (by simp [h]), List.take_left' h, List.drop_left' h]

theorem readText_textBytes (field text : String) : readText field (textBytes text) = .ok text := by
  have hbytes : (⟨(textBytes text).toArray⟩ : ByteArray) = text.toByteArray := by
    rw [textBytes, Array.toArray_toList]
    rfl
  rw [readText, hbytes, String.fromUTF8?, dif_pos text.isValidUTF8]
  rfl

theorem ofBytesBE_address (a : Address) : BitVec.ofNat 160 (Bytes.ofBytesBE a.asBytes) = a := by
  rw [Address.asBytes, Bytes.ofBytesBE_bytesBE, Nat.mod_eq_of_lt (show a.toNat < 256 ^ 20 from a.isLt),
    BitVec.ofNat_toNat, BitVec.setWidth_eq]

/-- A message reads back, its payload with all that follows. -/
theorem decode_encode_msg (msg : MsgPacketData) (rest : List UInt8) :
    MsgPacketData.decode (msg.encode ++ rest) =
      .ok { msg with payload := msg.payload.take (msg.payload.length % 256 ^ 2) } := by
  obtain ⟨sender,receiver,payload⟩ := msg
  have hs := Address.length_asBytes sender
  have hr := Address.length_asBytes receiver
  have hl := Bytes.length_bytesBE 2 payload.length
  generalize hbytes : MsgPacketData.encode ⟨sender,receiver,payload⟩ ++ rest = bytes
  have hsender : (bytes.drop 1).take 20 = sender.asBytes := by
    simp [← hbytes, MsgPacketData.encode, List.take_left' hs]
  have hreceiver : (bytes.drop 21).take 20 = receiver.asBytes := by
    simp [← hbytes, MsgPacketData.encode, List.drop_left' hs, List.take_left' hr]
  have hrest : bytes.drop 41 = Bytes.bytesBE 2 payload.length ++ (payload ++ rest) := by
    rw [← hbytes, MsgPacketData.encode, List.append_assoc, List.append_assoc]
    exact List.drop_left' (by simp)
  have hlength : bytes.length = 43 + (payload.length + rest.length) := by
    rw [← hbytes, MsgPacketData.encode]
    simp
    omega
  have hpayload : bytes.drop 43 = payload ++ rest := by
    rw [show 43 = 41 + 2 from rfl, ← List.drop_drop, hrest, List.drop_left' hl]
  have hle : payload.length % 256 ^ 2 ≤ payload.length := Nat.mod_le _ _
  rw [MsgPacketData.decode, if_neg (by omega), if_neg (by simp [← hbytes, MsgPacketData.encode]), hrest,
    List.take_left' hl, Bytes.ofBytesBE_bytesBE, hsender, hreceiver, hpayload, ofBytesBE_address, ofBytesBE_address]
  dsimp only
  rw [if_neg (by omega), List.take_append_of_le_length hle]

/-- The amount is a `u128`, and the lengths of the texts fit 32 bits. -/
structure FtPacketData.Fits (ft : FtPacketData) : Prop where
  amount : ft.amount < 2 ^ 128
  denom : (textBytes ft.denom).length < 2 ^ 32
  memo : (textBytes ft.memo).length < 2 ^ 32

/-- A transfer reads back. -/
theorem decode_encode_ft {ft : FtPacketData} (h : ft.Fits) (rest : List UInt8) :
    FtPacketData.decode (ft.encode ++ rest) = .ok ft := by
  have hdenom' : (textBytes ft.denom).length % 256 ^ 4 = (textBytes ft.denom).length := Nat.mod_eq_of_lt h.denom
  have hmemo' : (textBytes ft.memo).length % 256 ^ 4 = (textBytes ft.memo).length := Nat.mod_eq_of_lt h.memo
  simp only [FtPacketData.decode, FtPacketData.encode, List.cons_append, List.append_assoc, List.isEmpty_cons,
    List.head?_cons, List.tail_cons, if_true, lengthBytes, readU32_append, bind, Except.bind, pure, Except.pure,
    hdenom', hmemo', readBytes_append, readText_textBytes, Bytes.length_bytesBE, Address.length_asBytes]
  rw [if_neg Bool.false_ne_true, Bytes.ofBytesBE_bytesBE,
    Nat.mod_eq_of_lt (show ft.amount < 256 ^ 16 from h.amount),
    ofBytesBE_address, ofBytesBE_address]

end Formats

inductive PacketApp where
  | fungibleTransfer
  | message
  | unknown (id : UInt8)

def detectApp : List UInt8 → PacketApp
  | [] => .unknown 0
  | b :: _ => if b = 1 then .fungibleTransfer else if b = 2 then .message else .unknown b

inductive ChannelState where
  | init
  | tryOpen
  | open
  | closed
  deriving DecidableEq

def ChannelState.display : ChannelState → String
  | .init => "Init"
  | .tryOpen => "TryOpen"
  | .open => "Open"
  | .closed => "Closed"

structure Channel where
  id : ChannelId
  state : ChannelState
  ordered : Bool
  clientId : ClientId
  counterpartyChannel : ChannelId
  counterpartyChainId : UInt64
  nextSeqSend : UInt64
  nextSeqRecv : UInt64
  nextSeqAck : UInt64

namespace Channel
variable (channel : Channel)

def notOpen : XclError := .channelNotOpen (hexEncode (H256.asBytes channel.id)) channel.state.display

def tryOpen (counterparty : ChannelId) : Except XclError Channel :=
  if channel.state ≠ .init then .error channel.notOpen
  else .ok { channel with counterpartyChannel := counterparty, state := .tryOpen }

/-- `open`. -/
def complete : Except XclError Channel :=
  match channel.state with
  | .tryOpen | .init => .ok { channel with state := .open }
  | .open => .ok channel
  | .closed => .error channel.notOpen

def close : Channel := { channel with state := .closed }

def assertOpen : Except XclError Unit := if channel.state ≠ .open then .error channel.notOpen else .ok ()

def checkRecvSeq (seq : UInt64) : Except XclError Channel :=
  if channel.ordered ∧ seq ≠ channel.nextSeqRecv then .error (.sequenceOutOfOrder channel.nextSeqRecv seq)
  else .ok (if channel.ordered then { channel with nextSeqRecv := channel.nextSeqRecv + 1 } else channel)

def advanceAckSeq : Channel :=
  if channel.ordered then { channel with nextSeqAck := channel.nextSeqAck + 1 } else channel

end Channel

structure ForeignHeader where
  number : UInt64
  hash : H256
  parentHash : H256
  stateRoot : H256
  quorumCert : List UInt8
  signerBitmap : List UInt8

/-- What the validators sign: the chain and the hash of the header. -/
def ForeignHeader.signingMsg (P : Platform) (header : ForeignHeader) (chainId : UInt64) : H256 :=
  P.keccak256 (beBytes64 chainId ++ header.hash.asBytes)

structure ForeignClient where
  chainId : UInt64
  headers : Table UInt64 ForeignHeader
  validators : List BlsPubKey
  latestHeight : UInt64
  maxHeaders : ℕ

namespace ForeignClient

def new (chainId : UInt64) : ForeignClient := ⟨chainId,∅,[],0,2048⟩

section Updates
variable (P : Platform) (client : ForeignClient) (header : ForeignHeader)

/-- The keys that the bitmap names; all of them for an empty one. -/
def activeKeys : List BlsPubKey :=
  if header.signerBitmap.isEmpty then client.validators
  else (client.validators.zipIdx.filter (fun entry => Ibc.namesSigner header.signerBitmap entry.2)).map Prod.fst

def verifyQc : Except XclError Unit :=
  let total := client.validators.length
  let signers := (client.activeKeys header).length
  let quorum := 2 * total / 3 + 1
  if client.validators.isEmpty then .error .noValidatorSet
  else if header.quorumCert.length ≠ 96 then
    .error (.invalidQc ("QC must be 96 bytes, got " ++ toString header.quorumCert.length))
  else if signers < quorum then
    .error (.invalidQc ("insufficient signers: " ++ toString signers ++ "/" ++ toString total ++
      " (need " ++ toString quorum ++ ")"))
  else match Ibc.signatureFromBytes P header.quorumCert with
  | none => .error (.invalidQc "bad sig bytes: Signature(\"invalid G2 point encoding\")")
  | some sig =>
    if P.verifyAggregate sig (client.activeKeys header) (header.signingMsg P client.chainId) then .ok ()
    else .error (.invalidQc "BLS pairing check failed")

/-- The lowest header of the ordered map is dropped. -/
def dropOldest (headers : Table UInt64 ForeignHeader) : Table UInt64 ForeignHeader :=
  match headers.keys.min? with
  | none => headers
  | some oldest => headers.erase oldest

def checkParent : Except XclError Unit :=
  match client.headers.lookup (saturatingSub64 header.number 1) with
  | none => .ok ()
  | some prev =>
    if prev.hash ≠ header.parentHash then
      .error (.proofInvalid ("parent hash mismatch at height " ++ toString header.number ++ ": expected " ++
        hexEncode prev.hash.asBytes ++ ", got " ++ hexEncode header.parentHash.asBytes))
    else .ok ()

def updateHeader : Except XclError ForeignClient :=
  if header.number ≤ client.latestHeight ∧ 0 < client.latestHeight then
    .error (.staleHeader header.number client.latestHeight)
  else do
    client.checkParent header
    client.verifyQc P header
    let headers := client.headers.insert header.number header
    pure { client with
      latestHeight := header.number
      headers := dropOldest^[headers.len - client.maxHeaders] headers }

/-- An empty value stands for the absence of the key. -/
def verifyStateProof (height : UInt64) (key expectedValue : List UInt8) (proofNodes : List (List UInt8)) :
    Except XclStop Unit :=
  match client.headers.lookup height with
  | none => .error (.error (.headerNotFound height))
  | some header =>
    match verifyProof P header.stateRoot key (if expectedValue.isEmpty then none else some expectedValue) proofNodes with
    | none => .error .panic
    | some false => .error (.error (.proofInvalid "MPT proof does not match expected value"))
    | some true => .ok ()

end Updates

end ForeignClient

structure PendingSend where
  packet : XclPacket
  escrowedAmount : ℕ

structure CommitmentStore where
  commitments : Table (ChannelId × UInt64) H256
  receipts : Table (ChannelId × UInt64) Bool
  acks : Table (ChannelId × UInt64) H256
  escrow : Table ChannelId ℕ
  pending : Table (ChannelId × UInt64) PendingSend

namespace CommitmentStore
variable (P : Platform) (store : CommitmentStore)

def new : CommitmentStore := ⟨∅,∅,∅,∅,∅⟩

def escrowBalance (channel : ChannelId) : ℕ := (store.escrow.lookup channel).getD 0

def setCommitment (packet : XclPacket) (escrowed : ℕ) : CommitmentStore :=
  { store with
    commitments := store.commitments.insert (packet.srcChannel,packet.sequence) (packet.commitment P)
    pending := store.pending.insert (packet.srcChannel,packet.sequence) ⟨packet,escrowed⟩
    escrow := store.escrow.insert packet.srcChannel
      (wrap128 (store.escrowBalance packet.srcChannel + escrowed)) }

def deleteCommitment (channel : ChannelId) (seq : UInt64) : CommitmentStore × Option PendingSend :=
  let pending := store.pending.lookup (channel,seq)
  ({ store with
      commitments := store.commitments.erase (channel,seq)
      pending := store.pending.erase (channel,seq)
      escrow := match pending with
        | none => store.escrow
        | some p => store.escrow.insert channel (store.escrowBalance channel - p.escrowedAmount) },pending)

def hasCommitment (channel : ChannelId) (seq : UInt64) : Bool := (store.commitments.lookup (channel,seq)).isSome

def hasReceipt (channel : ChannelId) (seq : UInt64) : Bool := (store.receipts.lookup (channel,seq)).getD false

/-- What goes into the state trie at the end of a block. -/
def stateEntries : List (List UInt8 × List UInt8) :=
  store.commitments.entries.map (fun e => (commitmentKey e.1.1 e.1.2,e.2.asBytes)) ++
    store.receipts.entries.map (fun e => (receiptKey e.1.1 e.1.2,[1])) ++
    store.acks.entries.map (fun e => (ackKey e.1.1 e.1.2,e.2.asBytes)) ++
    store.escrow.entries.map (fun e => (textBytes "xcl/escrow/" ++ H256.asBytes e.1,Bytes.bytesBE 16 e.2))

end CommitmentStore

inductive StateChange where
  | escrowDeposit (sender : Address) (channel : ChannelId) (amount : ℕ)
  | escrowRelease (receiver : Address) (channel : ChannelId) (amount : ℕ)
  | refund (receiver : Address) (amount : ℕ)
  | creditIou (receiver : Address) (denom : String) (amount : ℕ)
  | deliverMessage (srcChainId : UInt64) (sender receiver : Address) (channel : ChannelId) (sequence : UInt64)
    (payload : List UInt8)
  deriving DecidableEq

inductive XclEvent where
  | packetSent (channel : ChannelId) (sequence dstChain : UInt64)
  | packetReceived (channel : ChannelId) (sequence srcChain : UInt64)
  | packetAcked (channel : ChannelId) (sequence : UInt64) (success : Bool)
  | packetTimeout (channel : ChannelId) (sequence : UInt64)
  deriving DecidableEq

structure HandlerResult where
  stateChanges : List StateChange
  events : List XclEvent

structure XclState where
  channels : Table ChannelId Channel
  clients : Table ClientId ForeignClient
  commitment : CommitmentStore

/-- The chain and the block that a handler runs in. -/
structure XclEnv where
  localChain : UInt64
  blockHeight : UInt64
  blockTimestamp : UInt64

abbrev XclM (α : Type) := Stateful XclStop XclState α

namespace XclM

def fail {α : Type} (e : XclError) : XclM α := throw (.error e)

/-- The operator `?`. -/
def orFail {α : Type} : Except XclError α → XclM α
  | .ok a => pure a
  | .error e => fail e

def orStop {α : Type} : Except XclStop α → XclM α
  | .ok a => pure a
  | .error e => throw e

def requireChannel (id : ChannelId) : XclM Channel := do
  match (← get).channels.lookup id with
  | none => fail (.channelNotFound (hexEncode (H256.asBytes id)))
  | some channel => pure channel

def requireClient (id : ClientId) : XclM ForeignClient := do
  match (← get).clients.lookup id with
  | none => fail (.clientNotFound (hexEncode (H256.asBytes id)))
  | some client => pure client

def putChannel (id : ChannelId) (channel : Channel) : XclM Unit :=
  modify (fun s => { s with channels := s.channels.insert id channel })

/-- `debit_escrow`; the entry is there afterwards, whether the balance was enough or not. -/
def debitEscrow (channel : ChannelId) (amount : ℕ) : XclM Unit := do
  let have_ := (← get).commitment.escrowBalance channel
  if have_ < amount then
    modify (fun s => { s with commitment.escrow := s.commitment.escrow.insert channel have_ })
    fail (.insufficientEscrow amount have_)
  else modify (fun s => { s with commitment.escrow := s.commitment.escrow.insert channel (have_ - amount) })

def setReceipt (channel : ChannelId) (seq : UInt64) : XclM Unit := do
  if (← get).commitment.hasReceipt channel seq then
    fail (.packetAlreadyReceived (hexEncode (H256.asBytes channel)) seq)
  else modify (fun s => { s with commitment.receipts := s.commitment.receipts.insert (channel,seq) true })

def setAck (P : Platform) (channel : ChannelId) (seq : UInt64) (ack : PacketAck) : XclM Unit := do
  if ((← get).commitment.acks.lookup (channel,seq)).isSome then
    fail (.alreadyAcknowledged (hexEncode (H256.asBytes channel)) seq)
  else modify (fun s => { s with
    commitment.acks := s.commitment.acks.insert (channel,seq) (P.keccak256 ack.encode) })

end XclM

section Handlers
variable (P : Platform) (env : XclEnv)
open XclM

/-- What `send_packet` and `send_message` share. -/
def sendData (channelId : ChannelId) (data : List UInt8) (amount : ℕ) (stateChanges : List StateChange)
    (timeoutHeight timeoutTimestamp : UInt64) : XclM (XclPacket × HandlerResult) := do
  let channel ← requireChannel channelId
  orFail channel.assertOpen
  let packet : XclPacket := {
    sequence := channel.nextSeqSend
    srcChainId := env.localChain
    dstChainId := channel.counterpartyChainId
    srcChannel := channelId
    dstChannel := channel.counterpartyChannel
    data := data
    timeoutHeight := timeoutHeight
    timeoutTimestamp := timeoutTimestamp }
  putChannel channelId { channel with nextSeqSend := channel.nextSeqSend + 1 }
  modify (fun s => { s with commitment := s.commitment.setCommitment P packet amount })
  pure (packet,⟨stateChanges,[.packetSent channelId packet.sequence packet.dstChainId]⟩)

def sendPacket (channelId : ChannelId) (ft : FtPacketData) (timeoutHeight timeoutTimestamp : UInt64) :
    XclM (XclPacket × HandlerResult) :=
  sendData P env channelId ft.encode ft.amount [.escrowDeposit ft.sender channelId ft.amount]
    timeoutHeight timeoutTimestamp

def sendMessage (channelId : ChannelId) (msg : MsgPacketData) (timeoutHeight timeoutTimestamp : UInt64) :
    XclM (XclPacket × HandlerResult) :=
  sendData P env channelId msg.encode 0 [] timeoutHeight timeoutTimestamp

/-- The application layer of `recv_packet`. -/
def dispatch (packet : XclPacket) : XclM (List StateChange) :=
  match detectApp packet.data with
  | .fungibleTransfer => do
    let ft ← orFail (FtPacketData.decode packet.data)
    let home := namespacePrefix packet.srcChainId packet.dstChannel
    match stripPrefix home ft.denom with
    | some _ => do
      debitEscrow packet.dstChannel ft.amount
      pure [.escrowRelease ft.receiver packet.dstChannel ft.amount]
    | none => pure [.creditIou ft.receiver (home ++ ft.denom) ft.amount]
  | .message => do
    let msg ← orFail (MsgPacketData.decode packet.data)
    pure [.deliverMessage packet.srcChainId msg.sender msg.receiver packet.dstChannel packet.sequence msg.payload]
  | .unknown id => fail (.unsupportedApp id)

def recvPacket (packet : XclPacket) (proofHeight : UInt64) (proofNodes : List (List UInt8)) :
    XclM HandlerResult := do
  let channel ← requireChannel packet.dstChannel
  orFail channel.assertOpen
  if channel.counterpartyChainId ≠ packet.srcChainId then
    fail (.chainIdMismatch channel.counterpartyChainId packet.srcChainId)
  else if packet.isTimedOutHeight env.blockHeight then
    fail (.packetTimeout env.blockHeight packet.timeoutHeight)
  else if packet.isTimedOutTimestamp env.blockTimestamp then
    fail (.packetTimeout env.blockTimestamp packet.timeoutTimestamp)
  else do
    let channel ← orFail (channel.checkRecvSeq packet.sequence)
    putChannel packet.dstChannel channel
    if (← get).commitment.hasReceipt packet.dstChannel packet.sequence then
      fail (.packetAlreadyReceived (hexEncode (H256.asBytes packet.dstChannel)) packet.sequence)
    else do
      let client ← requireClient channel.clientId
      orStop (client.verifyStateProof P proofHeight (commitmentKey packet.srcChannel packet.sequence)
        (packet.commitment P).asBytes proofNodes)
      let stateChanges ← dispatch packet
      setReceipt packet.dstChannel packet.sequence
      setAck P packet.dstChannel packet.sequence .success
      pure ⟨stateChanges,[.packetReceived packet.dstChannel packet.sequence packet.srcChainId]⟩

/-- The packet is deleted, or there is none. -/
def takeCommitment (packet : XclPacket) : XclM PendingSend := do
  let (store,pending) := (← get).commitment.deleteCommitment packet.srcChannel packet.sequence
  modify (fun s => { s with commitment := store })
  match pending with
  | none => fail (.noCommitment (hexEncode (H256.asBytes packet.srcChannel)) packet.sequence)
  | some p => pure p

/-- The refund goes to the sender that the packet at hand names. -/
def refundOf (packet : XclPacket) (pending : PendingSend) : XclM (List StateChange) := do
  let ft ← orFail (FtPacketData.decode packet.data)
  pure [.refund ft.sender pending.escrowedAmount]

def ackPacket (packet : XclPacket) (ack : PacketAck) (proofHeight : UInt64) (proofNodes : List (List UInt8)) :
    XclM HandlerResult := do
  let channel ← requireChannel packet.srcChannel
  orFail channel.assertOpen
  if !(← get).commitment.hasCommitment packet.srcChannel packet.sequence then
    fail (.noCommitment (hexEncode (H256.asBytes packet.srcChannel)) packet.sequence)
  else do
    let client ← requireClient channel.clientId
    orStop (client.verifyStateProof P proofHeight (ackKey packet.dstChannel packet.sequence)
      (P.keccak256 ack.encode).asBytes proofNodes)
    putChannel packet.srcChannel channel.advanceAckSeq
    let pending ← takeCommitment packet
    let stateChanges ← (if ack.isSuccess then pure [] else refundOf packet pending)
    pure ⟨stateChanges,[.packetAcked packet.srcChannel packet.sequence ack.isSuccess]⟩

def timeoutPacket (packet : XclPacket) (proofHeight : UInt64) (proofNodes : List (List UInt8)) :
    XclM HandlerResult := do
  let channel ← requireChannel packet.srcChannel
  orFail channel.assertOpen
  if !(packet.isTimedOutHeight env.blockHeight || packet.isTimedOutHeight proofHeight ||
      packet.isTimedOutTimestamp env.blockTimestamp) then fail .packetNotTimedOut
  else do
    let client ← requireClient channel.clientId
    -- without nodes the absence of a receipt is not checked
    (if proofNodes.isEmpty then pure ()
      else orStop (client.verifyStateProof P proofHeight (receiptKey packet.dstChannel packet.sequence) [] proofNodes))
    let pending ← takeCommitment packet
    let stateChanges ← refundOf packet pending
    pure ⟨stateChanges,[.packetTimeout packet.srcChannel packet.sequence]⟩

/-- `update_header` on the client with an id. -/
def updateClient (id : ClientId) (header : ForeignHeader) : XclM Unit := do
  let client ← requireClient id
  let client ← orFail (client.updateHeader P header)
  modify (fun s => { s with clients := s.clients.insert id client })

def changeChannel (id : ChannelId) (f : Channel → Except XclError Channel) : XclM Unit := do
  let channel ← requireChannel id
  putChannel id (← orFail (f channel))

end Handlers

inductive XclCall where
  | sendPacket (channelId : ChannelId) (ft : FtPacketData) (timeoutHeight timeoutTimestamp : UInt64)
  | sendMessage (channelId : ChannelId) (msg : MsgPacketData) (timeoutHeight timeoutTimestamp : UInt64)
  | recvPacket (packet : XclPacket) (proofHeight : UInt64) (proofNodes : List (List UInt8))
  | ackPacket (packet : XclPacket) (ack : PacketAck) (proofHeight : UInt64) (proofNodes : List (List UInt8))
  | timeoutPacket (packet : XclPacket) (proofHeight : UInt64) (proofNodes : List (List UInt8))
  | updateClient (id : ClientId) (header : ForeignHeader)
  | tryOpen (id counterparty : ChannelId)
  | complete (id : ChannelId)
  | close (id : ChannelId)

/-- The packet that is sent, if any, and the result of the handler. -/
abbrev XclReply := Option XclPacket × HandlerResult

def serve (P : Platform) (env : XclEnv) : XclCall → XclM XclReply
  | .sendPacket id ft height timestamp => do
    let (packet,result) ← sendPacket P env id ft height timestamp
    pure (some packet,result)
  | .sendMessage id msg height timestamp => do
    let (packet,result) ← sendMessage P env id msg height timestamp
    pure (some packet,result)
  | .recvPacket packet height nodes => do pure (none,← recvPacket P env packet height nodes)
  | .ackPacket packet ack height nodes => do pure (none,← ackPacket P packet ack height nodes)
  | .timeoutPacket packet height nodes => do pure (none,← timeoutPacket P env packet height nodes)
  | .updateClient id header => do
    updateClient P id header
    pure (none,⟨[],[]⟩)
  | .tryOpen id counterparty => do
    changeChannel id (fun channel => channel.tryOpen counterparty)
    pure (none,⟨[],[]⟩)
  | .complete id => do
    changeChannel id Channel.complete
    pure (none,⟨[],[]⟩)
  | .close id => do
    changeChannel id (fun channel => .ok channel.close)
    pure (none,⟨[],[]⟩)

/-- One call on one chain, in a block of its own. -/
def step (P : Platform) (s : XclState) (call : XclEnv × XclCall) : XclState × Except XclStop XclReply :=
  (((serve P call.1 call.2).exec s).2,((serve P call.1 call.2).exec s).1)

end ZbxChain.Xcl
