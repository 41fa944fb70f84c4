import ZbxChain.Crypto.Platform
import ZbxChain.Foundation.Table

/-! # `zbx_light::ibc`: clients that follow the chain by signed headers

An update counts the bits of a bitmap, aggregates the keys that the bits name, and checks one
signature over a message made from the header. Evidence of two headers at one height freezes a
client.

The message that the validators sign leaves out the next validators, the revision and the part
of the time below a second, so it never determines what an update stores. The number of signers
is that of the bits, whether or not a validator and a key belong to them.
-/
namespace ZbxChain.Ibc

structure IbcHeight where
  revisionNumber : UInt64
  revisionHeight : UInt64
deriving DecidableEq

instance : LE IbcHeight where
  le a b := a.revisionNumber < b.revisionNumber ∨
    a.revisionNumber = b.revisionNumber ∧ a.revisionHeight ≤ b.revisionHeight

instance (a b : IbcHeight) : Decidable (a ≤ b) :=
  inferInstanceAs (Decidable (a.revisionNumber < b.revisionNumber ∨
    a.revisionNumber = b.revisionNumber ∧ a.revisionHeight ≤ b.revisionHeight))

structure Fraction where
  numerator : UInt64
  denominator : UInt64

/-- The products wrap, as they do in a release build. -/
def Fraction.isSatisfiedBy (f : Fraction) (signed total : ℕ) : Bool :=
  if total = 0 then false
  else decide (f.numerator * UInt64.ofNat total ≤ UInt64.ofNat signed * f.denominator)

inductive IbcClientError where
  | clientFrozen (height : UInt64)
  | trustingPeriodExpired (seconds : UInt64)
  | headerNotNewer (got trusted : UInt64)
  | insufficientSigners (signed required : ℕ)
  | blsVerificationFailed
  | misbehaviourDetected (height : UInt64)
  | clientNotFound (clientId : String)

structure ZbxClientState where
  chainId : String
  trustLevel : Fraction
  trustingPeriodSecs : UInt64
  unbondingPeriodSecs : UInt64
  maxClockDriftSecs : UInt64
  latestHeight : IbcHeight
  frozenHeight : Option IbcHeight
  upgradePath : List String

structure ZbxConsensusState where
  timestampNs : UInt64
  root : H256
  nextValidatorsHash : H256

structure ZbxHeader where
  height : IbcHeight
  timestampNs : UInt64
  stateRoot : H256
  txRoot : H256
  nextValidatorsHash : H256
  aggSignature : List UInt8
  signerBitmap : List UInt8

structure IbcValidatorInfo where
  address : Address
  blsPubKey : List UInt8
  votingPower : UInt64

structure ZbxMisbehaviour where
  clientId : String
  header1 : ZbxHeader
  header2 : ZbxHeader

structure IbcClientRegistry where
  clients : Table String ZbxClientState
  consensus : Table (String × IbcHeight) ZbxConsensusState

/-- `BlsPubKey::from_bytes`. -/
def pubKeyFromBytes (P : Platform) (bytes : List UInt8) : Option BlsPubKey :=
  if bytes.length ≠ 48 then none
  else if (P.g1FromCompressed (BitVec.ofNat 384 (Bytes.ofBytesBE bytes))).isSome then
    some (BitVec.ofNat 384 (Bytes.ofBytesBE bytes))
  else none

/-- `BlsSignature::from_bytes`. -/
def signatureFromBytes (P : Platform) (bytes : List UInt8) : Option BlsSignature :=
  if bytes.length ≠ 96 then none
  else if (P.g2FromCompressed (BitVec.ofNat 768 (Bytes.ofBytesBE bytes))).isSome then
    some (BitVec.ofNat 768 (Bytes.ofBytesBE bytes))
  else none

section Signers

/-- `count_signers`: the bits of the whole bitmap. -/
def countSigners (bitmap : List UInt8) : ℕ :=
  (bitmap.map (fun b => (List.range 8).countP b.toNat.testBit)).sum

/-- The bit of the validator with index `i`. -/
def namesSigner (bitmap : List UInt8) (i : ℕ) : Bool :=
  ((bitmap[i / 8]?).map (fun b => b.toNat.testBit (i % 8))).getD false

def named (bitmap : List UInt8) (validatorSet : List IbcValidatorInfo) : List IbcValidatorInfo :=
  (validatorSet.zipIdx.filter (fun entry => namesSigner bitmap entry.2)).map Prod.fst

/-- `signer_pubkeys`: a key that does not decode is left out. -/
def signerPubkeys (P : Platform) (bitmap : List UInt8) (validatorSet : List IbcValidatorInfo) : List BlsPubKey :=
  (named bitmap validatorSet).filterMap (fun v => pubKeyFromBytes P v.blsPubKey)

end Signers

namespace ZbxHeader
variable (header : ZbxHeader)

/-- `msg_input`: the root, the height without its revision, and the seconds of the time. -/
def signingBytes : List UInt8 :=
  header.stateRoot.asBytes ++ beBytes64 header.height.revisionHeight ++
    beBytes64 (header.timestampNs / 1000000000)

/-- `msg_hash`, for which the signature is checked. -/
def signingMessage (P : Platform) : H256 := P.keccak256 header.signingBytes

def consensusState : ZbxConsensusState := ⟨header.timestampNs,header.stateRoot,header.nextValidatorsHash⟩

/-- `block_hash`, with SHA3-256 as a parameter. -/
def blockHash (sha3 : List UInt8 → H256) : H256 :=
  sha3 ((beBytes64 header.height.revisionHeight).reverse ++ header.stateRoot.asBytes ++ header.txRoot.asBytes)

end ZbxHeader

namespace IbcClientRegistry

def createClient (reg : IbcClientRegistry) (clientId : String) (clientState : ZbxClientState)
    (consensusState : ZbxConsensusState) : IbcClientRegistry where
  clients := reg.clients.insert clientId clientState
  consensus := reg.consensus.insert (clientId,clientState.latestHeight) consensusState

section Update
variable (P : Platform) (client : ZbxClientState) (header : ZbxHeader) (currentTimeNs : UInt64)
  (validatorSet : List IbcValidatorInfo)

def ageSecs : UInt64 :=
  if currentTimeNs / 1000000000 < header.timestampNs / 1000000000 then 0
  else currentTimeNs / 1000000000 - header.timestampNs / 1000000000

/-- The error for too few signers; `none` is the stop at a division by zero. -/
def insufficient (f : Fraction) (signed total : ℕ) : Option IbcClientError :=
  if f.denominator = 0 then none
  else some (.insufficientSigners signed (UInt64.ofNat total * f.numerator / f.denominator + 1).toNat)

def verifyHeader : Except IbcClientError Unit :=
  if signerPubkeys P header.signerBitmap validatorSet = [] ∨ header.aggSignature = [] then
    .error .blsVerificationFailed
  else
    match signatureFromBytes P header.aggSignature with
    | none => .error .blsVerificationFailed
    | some aggSig =>
      if P.verifyAggregate aggSig (signerPubkeys P header.signerBitmap validatorSet) (header.signingMessage P) then
        .ok ()
      else .error .blsVerificationFailed

/-- The checks of `update_client` for a client that exists. -/
def accept : Option (Except IbcClientError Unit) :=
  match client.frozenHeight with
  | some height => some (.error (.clientFrozen height.revisionHeight))
  | none =>
    if header.height ≤ client.latestHeight then
      some (.error (.headerNotNewer header.height.revisionHeight client.latestHeight.revisionHeight))
    else if client.trustingPeriodSecs < ageSecs header currentTimeNs then
      some (.error (.trustingPeriodExpired (header.timestampNs / 1000000000)))
    else if client.trustLevel.isSatisfiedBy (countSigners header.signerBitmap) validatorSet.length = false then
      (insufficient client.trustLevel (countSigners header.signerBitmap) validatorSet.length).map .error
    else some (verifyHeader P header validatorSet)

end Update

/-- `none` is a stop of the process. -/
def updateClient (P : Platform) (reg : IbcClientRegistry) (clientId : String) (header : ZbxHeader)
    (currentTimeNs : UInt64) (validatorSet : List IbcValidatorInfo) :
    Option (IbcClientRegistry × Except IbcClientError (ZbxClientState × ZbxConsensusState)) :=
  match reg.clients.lookup clientId with
  | none => some (reg,.error (.clientNotFound clientId))
  | some client =>
    match accept P client header currentTimeNs validatorSet with
    | none => none
    | some (.error e) => some (reg,.error e)
    | some (.ok _) =>
      some ({ clients := reg.clients.insert clientId { client with latestHeight := header.height }
              consensus := reg.consensus.insert (clientId,header.height) header.consensusState },
        .ok ({ client with latestHeight := header.height },header.consensusState))

/-- Two headers of one height with different block hashes. -/
def Conflicting (sha3 : List UInt8 → H256) (m : ZbxMisbehaviour) : Prop :=
  m.header1.height = m.header2.height ∧ m.header1.blockHash sha3 ≠ m.header2.blockHash sha3

instance (sha3 : List UInt8 → H256) (m : ZbxMisbehaviour) : Decidable (Conflicting sha3 m) :=
  inferInstanceAs (Decidable (_ ∧ _))

def submitMisbehaviour (sha3 : List UInt8 → H256) (reg : IbcClientRegistry) (m : ZbxMisbehaviour) :
    IbcClientRegistry × Except IbcClientError Unit :=
  match reg.clients.lookup m.clientId with
  | none => (reg,.error (.clientNotFound m.clientId))
  | some client =>
    if Conflicting sha3 m then
      ({ reg with clients := reg.clients.insert m.clientId { client with frozenHeight := some m.header1.height } },
        .ok ())
    else (reg,.error (.misbehaviourDetected m.header1.height.revisionHeight))

end IbcClientRegistry

open IbcClientRegistry
variable {P : Platform} {sha3 : List UInt8 → H256} {Signed : BlsPubKey → H256 → Prop} {reg : IbcClientRegistry}
  {clientId : String} {client : ZbxClientState} {header : ZbxHeader} {currentTimeNs : UInt64}
  {validatorSet : List IbcValidatorInfo} {trust : Fraction}

section Acceptance

structure Admits (P : Platform) (client : ZbxClientState) (header : ZbxHeader) (currentTimeNs : UInt64)
    (validatorSet : List IbcValidatorInfo) : Prop where
  active : client.frozenHeight = none
  newer : ¬ header.height ≤ client.latestHeight
  fresh : ¬ client.trustingPeriodSecs < ageSecs header currentTimeNs
  counted : client.trustLevel.isSatisfiedBy (countSigners header.signerBitmap) validatorSet.length = true
  keys : signerPubkeys P header.signerBitmap validatorSet ≠ []
  signature : ∃ aggSig, signatureFromBytes P header.aggSignature = some aggSig ∧
    P.verifyAggregate aggSig (signerPubkeys P header.signerBitmap validatorSet) (header.signingMessage P) = true

theorem verifyHeader_ok_iff : verifyHeader P header validatorSet = .ok () ↔
    signerPubkeys P header.signerBitmap validatorSet ≠ [] ∧ ∃ aggSig,
      signatureFromBytes P header.aggSignature = some aggSig ∧
      P.verifyAggregate aggSig (signerPubkeys P header.signerBitmap validatorSet) (header.signingMessage P) = true := by
  have hempty : signatureFromBytes P [] = none := rfl
  unfold verifyHeader
  by_cases hkeys : signerPubkeys P header.signerBitmap validatorSet = []
  · simp [hkeys]
  · by_cases hnil : header.aggSignature = []
    · simp [hnil, hempty]
    · cases hsig : signatureFromBytes P header.aggSignature with
      | none => simp [hkeys, hnil]
      | some aggSig => simp [hkeys, hnil]

theorem accept_ok_iff : accept P client header currentTimeNs validatorSet = some (.ok ()) ↔
    Admits P client header currentTimeNs validatorSet := by
  constructor
  · intro hok
    unfold accept at hok
    split at hok
    · cases hok
    · rename_i hactive
      split at hok
      · cases hok
      · rename_i hnewer
        split at hok
        · cases hok
        · rename_i hfresh
          split at hok
          · obtain ⟨e,-,he⟩ := Option.map_eq_some_iff.mp hok
            cases he
          · rename_i hcounted
            obtain ⟨hkeys,hsignature⟩ := verifyHeader_ok_iff.mp (Option.some.inj hok)
            exact ⟨hactive,hnewer,hfresh,by simpa using hcounted,hkeys,hsignature⟩
  · intro h
    have hverify := verifyHeader_ok_iff.mpr ⟨h.keys,h.signature⟩
    simp [accept, h.active, h.newer, h.fresh, h.counted, hverify]

theorem updateClient_ok {reg' : IbcClientRegistry} {client' : ZbxClientState} {state : ZbxConsensusState}
    (hok : updateClient P reg clientId header currentTimeNs validatorSet = some (reg',.ok (client',state))) :
    ∃ client, reg.clients.lookup clientId = some client ∧ Admits P client header currentTimeNs validatorSet ∧
      state = header.consensusState ∧ reg'.consensus.lookup (clientId,header.height) = some header.consensusState := by
  unfold updateClient at hok
  split at hok
  · cases hok
  · rename_i client hclient
    split at hok
    · cases hok
    · cases hok
    · rename_i haccept
      cases hok
      exact ⟨client,hclient,accept_ok_iff.mp haccept,rfl,AList.lookup_insert _⟩

theorem updateClient_admitted (hclient : reg.clients.lookup clientId = some client)
    (h : Admits P client header currentTimeNs validatorSet) :
    ∃ reg' client', updateClient P reg clientId header currentTimeNs validatorSet =
      some (reg',.ok (client',header.consensusState)) := by
  simp [updateClient, hclient, accept_ok_iff.mpr h]

theorem submitMisbehaviour_ok_iff {m : ZbxMisbehaviour} : (submitMisbehaviour sha3 reg m).2 = .ok () ↔
    (∃ client, reg.clients.lookup m.clientId = some client) ∧ Conflicting sha3 m := by
  unfold submitMisbehaviour
  cases hclient : reg.clients.lookup m.clientId with
  | none => simp
  | some client =>
    by_cases hconflict : Conflicting sha3 m
    · simp [hconflict]
    · simp [hconflict]

end Acceptance

section Backing

/-- What the members sign for a header determines its height and what an update stores. -/
def Determines (P : Platform) (header : ZbxHeader) : Prop :=
  ∀ header' : ZbxHeader, header'.signingMessage P = header.signingMessage P →
    header'.height = header.height ∧ header'.consensusState = header.consensusState

/-- Members of the set, as many as the trust level asks for, have each signed a message that
determines the header. -/
def Endorsed (P : Platform) (Signed : BlsPubKey → H256 → Prop) (trust : Fraction)
    (validatorSet : List IbcValidatorInfo) (header : ZbxHeader) : Prop :=
  validatorSet ≠ [] ∧ ∃ signers : List IbcValidatorInfo, signers.Sublist validatorSet ∧
    trust.numerator.toNat * validatorSet.length ≤ signers.length * trust.denominator.toNat ∧
    ∀ v ∈ signers, (∃ key, pubKeyFromBytes P v.blsPubKey = some key ∧ Signed key (header.signingMessage P)) ∧
      Determines P header

/-- An accepted update is for a client that follows, of a greater height, and endorsed. -/
def UpdateBacked (P : Platform) (Signed : BlsPubKey → H256 → Prop) (reg : IbcClientRegistry) (clientId : String)
    (header : ZbxHeader) (currentTimeNs : UInt64) (validatorSet : List IbcValidatorInfo) : Prop :=
  ∀ reg' client' state,
    updateClient P reg clientId header currentTimeNs validatorSet = some (reg',.ok (client',state)) →
    ∃ client, reg.clients.lookup clientId = some client ∧ client.frozenHeight = none ∧
      ¬ header.height ≤ client.latestHeight ∧
      reg'.consensus.lookup (clientId,header.height) = some header.consensusState ∧
      Endorsed P Signed client.trustLevel validatorSet header

/-- Both headers of accepted evidence are endorsed. -/
def MisbehaviourBacked (P : Platform) (sha3 : List UInt8 → H256) (Signed : BlsPubKey → H256 → Prop)
    (reg : IbcClientRegistry) (m : ZbxMisbehaviour) (validatorSet : List IbcValidatorInfo) : Prop :=
  (submitMisbehaviour sha3 reg m).2 = .ok () → ∀ client, reg.clients.lookup m.clientId = some client →
    Endorsed P Signed client.trustLevel validatorSet m.header1 ∧
      Endorsed P Signed client.trustLevel validatorSet m.header2

theorem not_determines (P : Platform) (header : ZbxHeader) : ¬ Determines P header := by
  intro hdetermines
  have hsame := (hdetermines { header with nextValidatorsHash := header.nextValidatorsHash + 1 } rfl).2
  have hnext := congrArg ZbxConsensusState.nextValidatorsHash hsame
  simp [ZbxHeader.consensusState] at hnext

theorem endorsed_iff : Endorsed P Signed trust validatorSet header ↔ validatorSet ≠ [] ∧ trust.numerator = 0 := by
  refine and_congr_right (fun hset => ⟨?_,fun hzero => ⟨[],List.nil_sublist _,?_,nofun⟩⟩)
  · rintro ⟨signers,-,hcount,hsigned⟩
    cases signers with
    | cons v rest => exact absurd (hsigned v (List.mem_cons_self ..)).2 (not_determines P header)
    | nil =>
      have hlen : validatorSet.length ≠ 0 := by simpa using hset
      have hmul : trust.numerator.toNat * validatorSet.length = 0 := by simpa using hcount
      rcases Nat.mul_eq_zero.mp hmul with hzero | hzero
      · exact UInt64.toNat_inj.mp hzero
      · exact absurd hzero hlen
  · simp [hzero]

theorem Admits.set_ne_nil (h : Admits P client header currentTimeNs validatorSet) : validatorSet ≠ [] := by
  rintro rfl
  have hcounted := h.counted
  simp [Fraction.isSatisfiedBy] at hcounted

/-- Updates and evidence are backed by the trusted fraction only where they are refused or
where the trust level asks for no signer at all. -/
theorem updates_backed_iff (P : Platform) (sha3 : List UInt8 → H256) (Signed : BlsPubKey → H256 → Prop)
    (reg : IbcClientRegistry) (clientId : String) (header : ZbxHeader) (currentTimeNs : UInt64)
    (validatorSet : List IbcValidatorInfo) (m : ZbxMisbehaviour) :
    (UpdateBacked P Signed reg clientId header currentTimeNs validatorSet ↔
      ∀ client, reg.clients.lookup clientId = some client → Admits P client header currentTimeNs validatorSet →
        client.trustLevel.numerator = 0) ∧
    (MisbehaviourBacked P sha3 Signed reg m validatorSet ↔
      ∀ client, reg.clients.lookup m.clientId = some client → Conflicting sha3 m →
        validatorSet ≠ [] ∧ client.trustLevel.numerator = 0) := by
  constructor
  · constructor
    · intro hbacked client hclient hadmits
      obtain ⟨reg',client',hok⟩ := updateClient_admitted hclient hadmits
      obtain ⟨client,hsame,-,-,-,hendorsed⟩ := hbacked reg' client' _ hok
      rw [hclient] at hsame
      cases hsame
      exact (endorsed_iff.mp hendorsed).2
    · intro hzero reg' client' state hok
      obtain ⟨client,hclient,hadmits,-,hstored⟩ := updateClient_ok hok
      exact ⟨client,hclient,hadmits.active,hadmits.newer,hstored,
        endorsed_iff.mpr ⟨hadmits.set_ne_nil,hzero client hclient hadmits⟩⟩
  · constructor
    · intro hbacked client hclient hconflict
      exact endorsed_iff.mp (hbacked (submitMisbehaviour_ok_iff.mpr ⟨⟨client,hclient⟩,hconflict⟩) client hclient).1
    · intro hzero hok client hclient
      have hfree := hzero client hclient (submitMisbehaviour_ok_iff.mp hok).2
      exact ⟨endorsed_iff.mpr hfree,endorsed_iff.mpr hfree⟩

def demoValidators : List IbcValidatorInfo :=
  [1,2,3,4].map (fun sk => ⟨Address.zero,Bytes.bytesBE 48 (Platform.integers.toPubkey sk).toNat,1⟩)

/-- A header that the first of them has signed; its bitmap has 8 bits more than there are
validators. -/
def demoHeader : ZbxHeader where
  height := ⟨0,1⟩
  timestampNs := 1000000000
  stateRoot := 7
  txRoot := 0
  nextValidatorsHash := 0
  aggSignature := Bytes.bytesBE 96 (Platform.integers.sign 1 (Platform.integers.keccak256
    (Bytes.bytesBE 32 7 ++ Bytes.bytesBE 8 1 ++ Bytes.bytesBE 8 1))).toNat
  signerBitmap := [1,255]

def demoClient : ZbxClientState := ⟨"zbx-mainnet-1",⟨2,3⟩,1209600,1814400,10,⟨0,0⟩,none,[]⟩

def demoRegistry : IbcClientRegistry := createClient ⟨∅,∅⟩ "zbx" demoClient ⟨0,0,0⟩

/-- One signature of four is taken for nine, and unsigned headers freeze the client. -/
theorem one_signer_accepted : (demoValidators.map IbcValidatorInfo.blsPubKey).Nodup ∧
    signerPubkeys .integers demoHeader.signerBitmap demoValidators = [Platform.integers.toPubkey 1] ∧
    ∀ Signed : BlsPubKey → H256 → Prop,
      ¬ UpdateBacked .integers Signed demoRegistry "zbx" demoHeader 1000000000 demoValidators ∧
      ¬ MisbehaviourBacked .integers Platform.integers.keccak256 Signed demoRegistry
        ⟨"zbx",{ demoHeader with aggSignature := [] },{ demoHeader with stateRoot := 8, aggSignature := [] }⟩
        demoValidators := by
  refine ⟨by decide +kernel,by decide +kernel,fun Signed => ⟨fun hbacked => ?_,fun hbacked => ?_⟩⟩
  · have hadmits : Admits .integers demoClient demoHeader 1000000000 demoValidators :=
      ⟨rfl,by decide,by decide,by decide +kernel,by decide +kernel,_,rfl,by decide +kernel⟩
    have hclient : demoRegistry.clients.lookup "zbx" = some demoClient := rfl
    obtain ⟨reg',client',hok⟩ := updateClient_admitted hclient hadmits
    obtain ⟨client,hsame,-,-,-,hendorsed⟩ := hbacked reg' client' _ hok
    cases hsame
    exact absurd (endorsed_iff.mp hendorsed).2 (by decide)
  · refine absurd (endorsed_iff.mp (hbacked (submitMisbehaviour_ok_iff.mpr ?_) _ rfl).1).2 (by decide)
    exact ⟨⟨_,rfl⟩,by decide +kernel⟩

end Backing

end ZbxChain.Ibc
