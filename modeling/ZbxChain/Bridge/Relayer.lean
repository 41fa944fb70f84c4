import ZbxChain.Crypto.Platform
import ZbxChain.Foundation.Table

/-! # `zbx_bridge`: the signatures of the relayers and the life of a bridge request

An operation is authorised by distinct keys of the relayer set, as many as the threshold, and
its hash is kept among the spent ones. A request is submitted, confirmed by relayers and
executed; the hash that the relayers sign is written to the store before the action is returned.
A restart loses all but the store.
-/
namespace ZbxChain.Bridge

inductive BridgeError where
  | amountTooSmall (amount : BitVec 128)
  | zeroAmount
  | exceedsMaxPerTx (max : BitVec 128)
  | dailyLimitExceeded (limit used requested : BitVec 128)
  | tokenNotWhitelisted (token : String)
  | tokenDisabled (symbol : String)
  | insufficientConfirmations (got required : ℕ)
  | invalidSignature (reason : String)
  | duplicateRequest (id : String)
  | expired
  | notFound (id : String)
  | proofInvalid (reason : String)
  | replayedOperation (hash : String)
  | persistenceFailure (reason : String)
  | sourceChainMismatch (expected got : UInt64)
  | paused
deriving DecidableEq

structure MultisigKey where
  address : Address
  name : String

def multisigThreshold : ℕ := 3

structure MultisigAuth where
  keys : List MultisigKey
  threshold : ℕ
  spentOperations : List H256

namespace MultisigAuth

/-- `new`, which stops if there are more than 5 keys. -/
def new (keys : List MultisigKey) : MultisigAuth := ⟨keys,multisigThreshold,[]⟩

def loadSpentOperations (auth : MultisigAuth) (hashes : List H256) : MultisigAuth :=
  { auth with spentOperations := hashes.foldl (fun spent h => spent.insert h) auth.spentOperations }

def isSpent (auth : MultisigAuth) (hash : H256) : Bool := auth.spentOperations.contains hash

def markSpent (auth : MultisigAuth) (hash : H256) : MultisigAuth :=
  { auth with spentOperations := auth.spentOperations.insert hash }

section Verification
variable (K : K256) (P : Platform) (auth : MultisigAuth) (msgHash : H256)

def isKey (addr : Address) : Bool := auth.keys.any (fun k => k.address == addr)

def verifySingle (signer : Address) (sig : Signature) : Except BridgeError Unit :=
  if auth.isKey signer = false then .error (.invalidSignature s!"unknown relayer {hexEncode signer.asBytes}")
  else
    match recoverSigner K P msgHash sig with
    | .ok recovered =>
      if recovered = signer then .ok ()
      else .error (.invalidSignature
        s!"sig for {hexEncode signer.asBytes} recovers to {hexEncode recovered.asBytes} — key mismatch")
    | .error e => .error (.invalidSignature s!"malformed sig from {hexEncode signer.asBytes}: {e}")

/-- The loop of `verify_threshold`: the addresses confirmed so far and those of `sigs`. -/
def confirmAll : List Address → List (Address × Signature) → Except BridgeError (List Address)
  | confirmed, [] => .ok confirmed
  | confirmed, (addr,sig) :: rest =>
    if auth.isKey addr = false then .error (.invalidSignature s!"unknown relayer {hexEncode addr.asBytes}")
    else if addr ∈ confirmed then
      .error (.invalidSignature s!"duplicate signature from {hexEncode addr.asBytes}")
    else
      match recoverSigner K P msgHash sig with
      | .ok recovered =>
        if recovered = addr then confirmAll (addr :: confirmed) rest
        else .error (.invalidSignature
          s!"sig from {hexEncode addr.asBytes} recovers to {hexEncode recovered.asBytes}")
      | .error e => .error (.invalidSignature s!"malformed signature from {hexEncode addr.asBytes}: {e}")

def verifyThreshold (sigs : List (Address × Signature)) : Except BridgeError Unit :=
  match auth.confirmAll K P msgHash [] sigs with
  | .error e => .error e
  | .ok confirmed =>
    if auth.threshold ≤ confirmed.length then .ok ()
    else .error (.insufficientConfirmations confirmed.length auth.threshold)

end Verification

section Soundness
variable {K : K256} {P : Platform} {auth : MultisigAuth} {msgHash : H256}

/-- The addresses are distinct keys of the set, and each has signed the hash. -/
structure Signers (K : K256) (P : Platform) (auth : MultisigAuth) (msgHash : H256) (confirmed : List Address) :
    Prop where
  distinct : confirmed.Nodup
  authorised : ∀ addr ∈ confirmed, auth.isKey addr = true
  signed : ∀ addr ∈ confirmed, ∃ sig, recoverSigner K P msgHash sig = .ok addr

theorem signers_nil : Signers K P auth msgHash [] := ⟨List.nodup_nil,nofun,nofun⟩

/-- Confirmed relayers have signed the hash. -/
theorem confirmAll_signers {confirmed confirmed' : List Address} {sigs : List (Address × Signature)}
    (hsigners : Signers K P auth msgHash confirmed)
    (hok : auth.confirmAll K P msgHash confirmed sigs = .ok confirmed') :
    Signers K P auth msgHash confirmed' := by
  induction sigs generalizing confirmed with
  | nil =>
    cases hok
    exact hsigners
  | cons entry rest ih =>
    obtain ⟨addr,sig⟩ := entry
    rw [confirmAll] at hok
    split at hok
    · cases hok
    · rename_i hkey
      split at hok
      · cases hok
      · rename_i hfresh
        split at hok
        · rename_i recovered hrecovered
          split at hok
          · rename_i hsame
            refine ih ⟨List.nodup_cons.mpr ⟨hfresh,hsigners.distinct⟩,?_,?_⟩ hok
            · exact List.forall_mem_cons.mpr ⟨by simpa using hkey,hsigners.authorised⟩
            · exact List.forall_mem_cons.mpr ⟨⟨sig,hsame ▸ hrecovered⟩,hsigners.signed⟩
          · cases hok
        · cases hok

theorem verifyThreshold_signers {sigs : List (Address × Signature)}
    (hok : auth.verifyThreshold K P msgHash sigs = .ok ()) :
    ∃ confirmed, auth.threshold ≤ confirmed.length ∧ Signers K P auth msgHash confirmed := by
  unfold verifyThreshold at hok
  split at hok
  · cases hok
  · rename_i confirmed hall
    split at hok
    · rename_i hcount
      exact ⟨confirmed,hcount,confirmAll_signers signers_nil hall⟩
    · cases hok

theorem mem_loadSpentOperations {hashes : List H256} {h : H256} :
    h ∈ (auth.loadSpentOperations hashes).spentOperations ↔ h ∈ hashes ∨ h ∈ auth.spentOperations := by
  have hfold : ∀ spent : List H256, h ∈ hashes.foldl (fun spent h => spent.insert h) spent ↔
      h ∈ hashes ∨ h ∈ spent := by
    induction hashes with
    | nil => simp
    | cons x rest ih =>
      intro spent
      rw [List.foldl_cons, ih, List.mem_insert_iff, List.mem_cons]
      tauto
  exact hfold _

end Soundness

end MultisigAuth

abbrev TokenId := BitVec 160

inductive ChainId where
  | ethereum
  | bsc
  | polygon
deriving DecidableEq

def ChainId.toUInt64 : ChainId → UInt64
  | ethereum => 1
  | bsc => 56
  | polygon => 137

inductive BridgeRequestType where
  | deposit
  | withdrawal
deriving DecidableEq

def BridgeRequestType.toUInt8 : BridgeRequestType → UInt8
  | deposit => 0
  | withdrawal => 1

inductive BridgeAction where
  | mintOnTarget (targetChain : ChainId) (token : TokenId) (tokenSymbol : String) (recipient : Address)
      (amount : BitVec 128) (requestId : H256)
  | unlockOnZbx (token : TokenId) (tokenSymbol : String) (recipient : Address) (amount : BitVec 128)
      (requestId : H256)
deriving DecidableEq

section Proofs

structure BridgeProof where
  receiptHash : H256
  blockHash : H256
  blockNumber : UInt64
  siblings : List H256
  receiptIndex : UInt32
deriving DecidableEq

def combine (P : Platform) (left right : H256) : H256 := P.keccak256 (left.asBytes ++ right.asBytes)

/-- The loop of `verify`: the hash so far and its index. -/
def climb (P : Platform) : H256 → ℕ → List H256 → H256
  | current, _, [] => current
  | current, index, sibling :: rest =>
    climb P (if index % 2 = 0 then combine P current sibling else combine P sibling current) (index / 2) rest

def BridgeProof.verify (P : Platform) (proof : BridgeProof) (receiptsRoot : H256) : Except BridgeError Unit :=
  let current := climb P proof.receiptHash proof.receiptIndex.toNat proof.siblings
  if current = receiptsRoot then .ok ()
  else .error (.proofInvalid s!"computed root {hexEncode current.asBytes} != expected {hexEncode receiptsRoot.asBytes}")

end Proofs

section Tokens

def nativeZbxSentinel : TokenId := BitVec.ofNat 160 0xeeeeeeeeeeeeeeeeeeeeeeeeeeeeeeeeeeeeeeee

def zusdGenesisAddr : TokenId := BitVec.ofNat 160 0x231d0001

structure BridgeToken where
  address : TokenId
  symbol : String
  decimals : UInt8
  maxPerTx : BitVec 128
  dailyLimit : BitVec 128
  isNative : Bool
  enabled : Bool

def BridgeToken.nativeZbx : BridgeToken where
  address := nativeZbxSentinel
  symbol := "ZBX"
  decimals := 18
  maxPerTx := BitVec.ofNat 128 (1000000 * 10 ^ 18)
  dailyLimit := BitVec.ofNat 128 (10000000 * 10 ^ 18)
  isNative := true
  enabled := true

def BridgeToken.zusd (address : TokenId) : BridgeToken where
  address := address
  symbol := "ZUSD"
  decimals := 18
  maxPerTx := BitVec.ofNat 128 (5000000 * 10 ^ 18)
  dailyLimit := BitVec.ofNat 128 (50000000 * 10 ^ 18)
  isNative := true
  enabled := true

abbrev TokenWhitelist := Table TokenId BridgeToken

namespace TokenWhitelist

def defaultMainnet : TokenWhitelist :=
  ((∅ : TokenWhitelist).insert nativeZbxSentinel .nativeZbx).insert zusdGenesisAddr (.zusd zusdGenesisAddr)

def getEnabled (whitelist : TokenWhitelist) (token : TokenId) : Except BridgeError BridgeToken :=
  match whitelist.lookup token with
  | none => .error (.tokenNotWhitelisted (hexEncode (Bytes.bytesBE 20 token.toNat)))
  | some t => if t.enabled = false then .error (.tokenDisabled t.symbol) else .ok t

end TokenWhitelist

/-- For each token the day and the amount of that day. -/
abbrev DailyLimitTracker := Table TokenId (UInt64 × BitVec 128)

namespace DailyLimitTracker
variable (tracker : DailyLimitTracker) (token : TokenId) (amount : BitVec 128) (timestamp : UInt64)

def dayOf (timestamp : UInt64) : UInt64 := timestamp / 86400

def bridgedToday : BitVec 128 :=
  match tracker.lookup token with
  | some (day,total) => if day = dayOf timestamp then total else 0
  | none => 0

/-- `check`; the sum wraps, as it does in a release build. -/
def check (limit : BitVec 128) : Except BridgeError (BitVec 128) :=
  if limit < tracker.bridgedToday token timestamp + amount then
    .error (.dailyLimitExceeded limit (tracker.bridgedToday token timestamp) amount)
  else .ok (limit - tracker.bridgedToday token timestamp - amount)

def record : DailyLimitTracker :=
  tracker.insert token (dayOf timestamp,tracker.bridgedToday token timestamp + amount)

end DailyLimitTracker

end Tokens

/-- `sender` and `recipient` are the fields `from` and `to`. -/
structure BridgeRequest where
  id : H256
  requestType : BridgeRequestType
  token : TokenId
  tokenSymbol : String
  sender : Address
  recipient : Address
  amount : BitVec 128
  fee : BitVec 128
  targetChain : ChainId
  sourceChainId : UInt64
  blockNumber : UInt64
  proof : Option BridgeProof
  confirmations : List (Address × Signature)
  executed : Bool
  timestamp : UInt64
deriving DecidableEq

namespace BridgeRequest

/-- `id_input` of `new`: every field that an action is made of, and more. -/
def idInput (req : BridgeRequest) : List UInt8 :=
  Bytes.bytesBE 20 req.token.toNat ++ (req.sender.asBytes ++ (req.recipient.asBytes ++
    (Bytes.bytesBE 16 req.amount.toNat ++ (beBytes64 req.blockNumber ++ (beBytes64 req.timestamp ++
      (beBytes64 req.targetChain.toUInt64 ++ (beBytes64 req.sourceChainId ++ [req.requestType.toUInt8])))))))

/-- The id is the hash of the content. -/
def WellFormed (P : Platform) (req : BridgeRequest) : Prop := req.id = P.keccak256 req.idInput

instance (P : Platform) (req : BridgeRequest) : Decidable (req.WellFormed P) :=
  inferInstanceAs (Decidable (_ = _))

def addConfirmation (req : BridgeRequest) (signer : Address) (sig : Signature) : BridgeRequest :=
  if req.confirmations.any (fun c => c.1 == signer) then req
  else { req with confirmations := req.confirmations ++ [(signer,sig)] }

/-- What `msg_hash` is the hash of: the id and some of the fields. -/
def msgInput (req : BridgeRequest) : List UInt8 :=
  req.id.asBytes ++ (Bytes.bytesBE 20 req.token.toNat ++ (req.sender.asBytes ++ (req.recipient.asBytes ++
    Bytes.bytesBE 16 req.amount.toNat)))

def msgHash (P : Platform) (req : BridgeRequest) : H256 := P.keccak256 req.msgInput

/-- `is_expired`; the sum wraps, as it does in a release build. -/
def isExpired (req : BridgeRequest) (currentTimestamp : UInt64) : Bool :=
  decide (req.timestamp + 86400 < currentTimestamp)

def action (req : BridgeRequest) (id : H256) : BridgeAction :=
  match req.requestType with
  | .deposit => .mintOnTarget req.targetChain req.token req.tokenSymbol req.recipient req.amount id
  | .withdrawal => .unlockOnZbx req.token req.tokenSymbol req.recipient req.amount id

end BridgeRequest

/-- The store, where there is one, is given by the hashes that are on disk. -/
structure BridgeRelayer where
  auth : MultisigAuth
  whitelist : TokenWhitelist
  dailyTracker : DailyLimitTracker
  pending : Table H256 BridgeRequest
  completed : Table H256 BridgeRequest
  isPaused : Bool
  ownChainId : UInt64
  spentOpsStore : Option (List H256)

namespace BridgeRelayer

def new (keys : List MultisigKey) (ownChainId : UInt64) : BridgeRelayer :=
  ⟨.new keys,.defaultMainnet,∅,∅,∅,false,ownChainId,none⟩

/-- `attach_storage` where the store can be read. -/
def attachStorage (r : BridgeRelayer) (store : List H256) : BridgeRelayer :=
  { r with auth := r.auth.loadSpentOperations store, spentOpsStore := some store }

def restart (r : BridgeRelayer) : BridgeRelayer :=
  match r.spentOpsStore with
  | some store => (new r.auth.keys r.ownChainId).attachStorage store
  | none => new r.auth.keys r.ownChainId

section Lifecycle
variable (K : K256) (P : Platform) (r : BridgeRelayer)

def submit (req : BridgeRequest) (currentTimestamp : UInt64) : BridgeRelayer × Except BridgeError H256 :=
  if r.isPaused = true then (r,.error .paused)
  else if req.sourceChainId ≠ r.ownChainId then (r,.error (.sourceChainMismatch r.ownChainId req.sourceChainId))
  else
    match r.whitelist.getEnabled req.token with
    | .error e => (r,.error e)
    | .ok token =>
      if token.maxPerTx < req.amount then (r,.error (.exceedsMaxPerTx token.maxPerTx))
      else
        match r.dailyTracker.check req.token req.amount currentTimestamp token.dailyLimit with
        | .error e => (r,.error e)
        | .ok _ =>
          if (r.pending.lookup req.id).isSome ∨ (r.completed.lookup req.id).isSome then
            (r,.error (.duplicateRequest (hexEncode req.id.asBytes)))
          else
            ({ r with
               dailyTracker := r.dailyTracker.record req.token req.amount currentTimestamp
               pending := r.pending.insert req.id req },.ok req.id)

def confirm (id : H256) (signer : Address) (sig : Signature) (currentTimestamp : UInt64) :
    BridgeRelayer × Except BridgeError Bool :=
  match r.pending.lookup id with
  | none => (r,.error (.notFound (hexEncode id.asBytes)))
  | some req =>
    if req.isExpired currentTimestamp = true then (r,.error .expired)
    else if req.sourceChainId ≠ r.ownChainId then (r,.error (.sourceChainMismatch r.ownChainId req.sourceChainId))
    else
      match r.auth.verifySingle K P (req.msgHash P) signer sig with
      | .error e => (r,.error e)
      | .ok _ =>
        ({ r with pending := r.pending.insert id (req.addConfirmation signer sig) },
          match r.auth.verifyThreshold K P (req.msgHash P) (req.addConfirmation signer sig).confirmations with
          | .ok _ => .ok true
          | .error (.insufficientConfirmations _ _) => .ok false
          | .error e => .error e)

def spend (hash : H256) : BridgeRelayer :=
  { r with
    auth := r.auth.markSpent hash
    spentOpsStore := r.spentOpsStore.map (fun store => store.insert hash) }

def checkProof (req : BridgeRequest) (receiptsRoot : H256) : Except BridgeError Unit :=
  match req.proof with
  | none => .error (.proofInvalid "no proof attached")
  | some proof => proof.verify P receiptsRoot

/-- `execute`, given what the store answers to a write. A request whose proof fails is spent
all the same. -/
def execute (id receiptsRoot : H256) (currentTimestamp : UInt64) (write : Except String Unit) :
    BridgeRelayer × Except BridgeError BridgeAction :=
  match r.pending.lookup id with
  | none => (r,.error (.notFound (hexEncode id.asBytes)))
  | some req =>
    if req.isExpired currentTimestamp = true then (r,.error .expired)
    else if req.sourceChainId ≠ r.ownChainId then (r,.error (.sourceChainMismatch r.ownChainId req.sourceChainId))
    else if r.auth.isSpent (req.msgHash P) = true then
      (r,.error (.replayedOperation (hexEncode (req.msgHash P).asBytes)))
    else
      match r.auth.verifyThreshold K P (req.msgHash P) req.confirmations with
      | .error e => (r,.error e)
      | .ok _ =>
        match r.spentOpsStore, write with
        | some _, .error e => (r,.error (.persistenceFailure e))
        | _, _ =>
          match checkProof P req receiptsRoot with
          | .error e => (r.spend (req.msgHash P),.error e)
          | .ok _ =>
            ({ r.spend (req.msgHash P) with
               pending := r.pending.erase id
               completed := r.completed.insert id { req with executed := true } },.ok (req.action id))

def expireStale (currentTimestamp : UInt64) : BridgeRelayer × ℕ :=
  ({ r with pending := r.pending.retain (fun _ req => !req.isExpired currentTimestamp) },
    (r.pending.entries.filter (fun e => e.2.isExpired currentTimestamp)).length)

end Lifecycle

section Calls

inductive Call where
  | submit (req : BridgeRequest) (currentTimestamp : UInt64)
  | confirm (id : H256) (signer : Address) (sig : Signature) (currentTimestamp : UInt64)
  | execute (id receiptsRoot : H256) (currentTimestamp : UInt64) (write : Except String Unit)
  | expireStale (currentTimestamp : UInt64)
  | restart

inductive Output where
  | submitted (result : Except BridgeError H256)
  | confirmed (result : Except BridgeError Bool)
  | executed (result : Except BridgeError BridgeAction)
  | expired (count : ℕ)
  | restarted

def step (K : K256) (P : Platform) (r : BridgeRelayer) : Call → BridgeRelayer × Output
  | .submit req now => ((r.submit req now).1,.submitted (r.submit req now).2)
  | .confirm id signer sig now => ((r.confirm K P id signer sig now).1,.confirmed (r.confirm K P id signer sig now).2)
  | .execute id root now write => ((r.execute K P id root now write).1,.executed (r.execute K P id root now write).2)
  | .expireStale now => ((r.expireStale now).1,.expired (r.expireStale now).2)
  | .restart => (r.restart,.restarted)

end Calls

end BridgeRelayer

end ZbxChain.Bridge
