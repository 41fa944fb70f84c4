import ZbxChain.Crypto.Platform
import ZbxChain.Foundation.Machine
import ZbxChain.Foundation.Table

/-! # `zbx_light::header_chain`: the headers of a light client

The chain keeps the most recent headers by their numbers. A header is compared with the stored
header before it, and its certificate is checked over the hash that it claims.

An accepted header has been compared with the one before it, and with no other. What is stored
stays one anchored chain as long as the headers that are let in fit to the one after them, and
number 0 is not given another hash.
-/
namespace ZbxChain

inductive PinPolicy where
  | required
  | allowUnregistered

inductive PinError where
  | unknownChainId (chainId : UInt64)
  | sentinel (chainId : UInt64)
  | allZero (chainId : UInt64)

def sentinelHash : H256 := BitVec.allOnes 256

/-- `MAINNET_GENESIS_HASH` and `TESTNET_GENESIS_HASH`, which an operator replaces before a
launch. -/
structure PinnedHashes where
  mainnet : H256
  testnet : H256

def PinnedHashes.pinnedFor (pins : PinnedHashes) (chainId : UInt64) : Option H256 :=
  if chainId = 8989 then some pins.mainnet else if chainId = 8990 then some pins.testnet else none

structure LightHeader where
  number : UInt64
  hash : H256
  parentHash : H256
  stateRoot : H256
  transactionsRoot : H256
  receiptsRoot : H256
  timestamp : UInt64
  coinbase : Address
  quorumCert : List UInt8
  finalized : Bool

def LightHeader.validateBasic (h : LightHeader) : Except String Unit :=
  if h.number = 0 ∧ h.parentHash ≠ H256.zero then .error "genesis must have zero parent hash" else .ok ()

/-- The row of number 0 for a trusted hash. -/
def LightHeader.genesis (hash : H256) : LightHeader :=
  ⟨0,hash,H256.zero,H256.zero,H256.zero,H256.zero,0,Address.zero,[],true⟩

structure Checkpoint where
  number : UInt64
  hash : H256

structure HeaderChain where
  headers : Table UInt64 LightHeader
  canonical : Table UInt64 H256
  maxHeaders : ℕ
  checkpoint : Checkpoint
  validators : List BlsPubKey
  devnetSeeded : Bool

namespace HeaderChain

def new (checkpoint : Checkpoint) (maxHeaders : ℕ) : HeaderChain := ⟨∅,∅,maxHeaders,checkpoint,[],true⟩

def setValidators (hc : HeaderChain) (validators : List BlsPubKey) : HeaderChain :=
  { hc with validators := validators }

def withValidators (checkpoint : Checkpoint) (maxHeaders : ℕ) (validators : List BlsPubKey) : HeaderChain :=
  (new checkpoint maxHeaders).setValidators validators

def seed (hc : HeaderChain) (hash : H256) : HeaderChain :=
  { hc with
    headers := hc.headers.insert 0 (.genesis hash)
    canonical := hc.canonical.insert 0 hash }

def withPinnedChainId (pins : PinnedHashes) (chainId : UInt64) (maxHeaders : ℕ)
    (validators : List BlsPubKey) (policy : PinPolicy) : Except PinError HeaderChain :=
  match pins.pinnedFor chainId, policy with
  | some p, _ =>
    if p = sentinelHash then .error (.sentinel chainId)
    else if p = H256.zero then .error (.allZero chainId)
    else .ok (seed ⟨∅,∅,maxHeaders,⟨0,p⟩,validators,true⟩ p)
  | none, .allowUnregistered => .ok ⟨∅,∅,maxHeaders,⟨0,H256.zero⟩,validators,false⟩
  | none, .required => .error (.unknownChainId chainId)

def setDevnetGenesis (hc : HeaderChain) (hash : H256) : HeaderChain × Except PinError Unit :=
  if hash = sentinelHash then (hc,.error (.sentinel 0))
  else if hash = H256.zero then (hc,.error (.allZero 0))
  else (seed { hc with checkpoint := ⟨0,hash⟩, devnetSeeded := true } hash,.ok ())

section Insertion
variable (P : Platform) (hc : HeaderChain) (h : LightHeader)

def verifyQc : Bool :=
  if h.quorumCert.length ≠ 96 then false
  else P.verifyAggregate (BitVec.ofNat 768 (Bytes.ofBytesBE h.quorumCert)) hc.validators h.hash

/-- The stored header before `h` is its parent. -/
def linksToParent : Bool :=
  if hc.checkpoint.number < h.number then
    match hc.headers.lookup (h.number - 1) with
    | some parent => decide (parent.hash = h.parentHash)
    | none => true
  else true

/-- The checks of `insert`. -/
def accept : Except String Unit :=
  match h.validateBasic with
  | .error e => .error e
  | .ok () =>
    if hc.devnetSeeded = false then .error "genesis not seeded — call set_devnet_genesis() first"
    else if hc.linksToParent h = false then .error "parent hash mismatch"
    else if 0 < h.number ∧ hc.validators ≠ [] ∧ hc.verifyQc P h = false then
      .error "invalid quorum certificate"
    else .ok ()

/-- The chain with `h` at its number, before the pruning. -/
def stored : HeaderChain :=
  { hc with
    canonical := hc.canonical.insert h.number h.hash
    headers := hc.headers.insert h.number h }

/-- The number that a chain with too many headers loses. -/
def dropped : Option UInt64 := if hc.maxHeaders < hc.headers.len then hc.headers.keys.min? else none

def pruned : HeaderChain :=
  match hc.dropped with
  | some oldest => { hc with headers := hc.headers.erase oldest, canonical := hc.canonical.erase oldest }
  | none => hc

def insert : HeaderChain × Except String Unit :=
  match hc.accept P h with
  | .error e => (hc,.error e)
  | .ok () => ((hc.stored h).pruned,.ok ())

end Insertion

end HeaderChain

namespace HeaderChain
/-- The stored headers follow one another from a trusted genesis, and both tables tell of the
same numbers and hashes. -/
structure Follows (genesis : H256) (hc : HeaderChain) : Prop where
  checkpoint : hc.checkpoint.number = 0
  linked : ∀ n m parent child, m.toNat = n.toNat + 1 → hc.headers.lookup n = some parent →
    hc.headers.lookup m = some child → child.parentHash = parent.hash
  anchored : ∀ header, hc.headers.lookup 0 = some header → header.hash = genesis
  numbered : ∀ n header, hc.headers.lookup n = some header → header.number = n
  canonical : ∀ n, hc.canonical.lookup n = (hc.headers.lookup n).map LightHeader.hash

/-- What an accepted header has to meet, unless it is dropped at once: it keeps the genesis
hash, and the stored header after it is its child. -/
def InsertFits (P : Platform) (genesis : H256) (hc : HeaderChain) (h : LightHeader) : Prop :=
  hc.accept P h = .ok () → (hc.stored h).dropped ≠ some h.number →
    (h.number = 0 → h.hash = genesis) ∧
      ∀ m child, m.toNat = h.number.toNat + 1 → hc.headers.lookup m = some child → child.parentHash = h.hash

variable {P : Platform} {hc hc' : HeaderChain} {h : LightHeader} {genesis : H256}

section Storing

theorem dropped_le {n : UInt64} (hn : (hc.stored h).dropped = some n) : n ≤ h.number := by
  unfold dropped at hn
  split at hn
  · have hmin := (List.min?_eq_some_iff.mp hn).2
    exact hmin h.number (AList.mem_keys_of_lookup (AList.lookup_insert _))
  · cases hn

theorem headers_pruned (n : UInt64) : (hc.stored h).pruned.headers.lookup n =
    if (hc.stored h).dropped = some n then none else if n = h.number then some h else hc.headers.lookup n := by
  have hstored : (hc.stored h).headers.lookup n = if n = h.number then some h else hc.headers.lookup n := by
    split
    · rename_i heq
      subst heq
      exact AList.lookup_insert _
    · rename_i hne
      exact AList.lookup_insert_ne hne
  rw [← hstored, pruned]
  cases hdrop : (hc.stored h).dropped with
  | none => simp
  | some oldest =>
    by_cases hn : n = oldest
    · subst hn
      simp
    · simp [hn, Ne.symm hn]

theorem canonical_pruned (n : UInt64) : (hc.stored h).pruned.canonical.lookup n =
    if (hc.stored h).dropped = some n then none
    else if n = h.number then some h.hash else hc.canonical.lookup n := by
  have hstored : (hc.stored h).canonical.lookup n =
      if n = h.number then some h.hash else hc.canonical.lookup n := by
    split
    · rename_i heq
      subst heq
      exact AList.lookup_insert _
    · rename_i hne
      exact AList.lookup_insert_ne hne
  rw [← hstored, pruned]
  cases hdrop : (hc.stored h).dropped with
  | none => simp
  | some oldest =>
    by_cases hn : n = oldest
    · subst hn
      simp
    · simp [hn, Ne.symm hn]

theorem headers_cases {n : UInt64} {header : LightHeader}
    (hn : (hc.stored h).pruned.headers.lookup n = some header) :
    (hc.stored h).dropped ≠ some n ∧ (n = h.number ∧ header = h ∨ n ≠ h.number ∧ hc.headers.lookup n = some header) := by
  rw [headers_pruned] at hn
  split at hn
  · cases hn
  · rename_i hkept
    split at hn
    · rename_i heq
      exact ⟨hkept,Or.inl ⟨heq,(Option.some.inj hn).symm⟩⟩
    · rename_i hne
      exact ⟨hkept,Or.inr ⟨hne,hn⟩⟩

end Storing

section Steps

theorem accept_links (haccept : hc.accept P h = .ok ()) (hcheckpoint : hc.checkpoint.number = 0)
    {n : UInt64} (hn : h.number.toNat = n.toNat + 1) {parent : LightHeader}
    (hparent : hc.headers.lookup n = some parent) : h.parentHash = parent.hash := by
  have hlinks : hc.linksToParent h = true := by
    unfold accept at haccept
    split at haccept
    · cases haccept
    · split at haccept
      · cases haccept
      · split at haccept
        · cases haccept
        · rename_i hlinks
          simpa using hlinks
  have hpos : hc.checkpoint.number < h.number := by
    rw [hcheckpoint, UInt64.lt_iff_toNat_lt, hn]
    exact Nat.succ_pos _
  have hbefore : h.number - 1 = n := by
    apply UInt64.toNat_inj.mp
    rw [UInt64.toNat_sub_of_le _ _ (by rw [UInt64.le_iff_toNat_le, hn]; exact Nat.succ_le_succ (Nat.zero_le _)), hn]
    rfl
  rw [linksToParent, if_pos hpos, hbefore, hparent] at hlinks
  exact (of_decide_eq_true hlinks).symm

theorem follows_stored (hf : hc.Follows genesis) (haccept : hc.accept P h = .ok ())
    (hfits : InsertFits P genesis hc h) : (hc.stored h).pruned.Follows genesis where
  checkpoint := by
    unfold pruned
    split
    · exact hf.checkpoint
    · exact hf.checkpoint
  linked := by
    intro n m parent child hm hn hchild
    obtain ⟨hkept,⟨rfl,rfl⟩ | ⟨hnew,hold⟩⟩ := headers_cases hn
    · obtain ⟨-,⟨hsame,-⟩ | ⟨-,hnext⟩⟩ := headers_cases hchild
      · rw [hsame] at hm
        omega
      · exact (hfits haccept hkept).2 m child hm hnext
    · obtain ⟨-,⟨rfl,rfl⟩ | ⟨-,hnext⟩⟩ := headers_cases hchild
      · exact accept_links haccept hf.checkpoint hm hold
      · exact hf.linked n m parent child hm hold hnext
  anchored := by
    intro header hzero
    obtain ⟨hkept,⟨hsame,rfl⟩ | ⟨-,hold⟩⟩ := headers_cases hzero
    · exact (hfits haccept (hsame ▸ hkept)).1 hsame.symm
    · exact hf.anchored header hold
  numbered := by
    intro n header hn
    obtain ⟨-,⟨hsame,rfl⟩ | ⟨-,hold⟩⟩ := headers_cases hn
    · exact hsame.symm
    · exact hf.numbered n header hold
  canonical := by
    intro n
    rw [headers_pruned, canonical_pruned]
    split
    · rfl
    · split
      · rfl
      · exact hf.canonical n

theorem insert_iff (P : Platform) (hf : hc.Follows genesis) (h : LightHeader) :
    InsertFits P genesis hc h ↔ (hc.insert P h).1.Follows genesis := by
  unfold insert
  cases haccept : hc.accept P h with
  | error e =>
    refine iff_of_true (fun hok => ?_) hf
    rw [haccept] at hok
    cases hok
  | ok _ =>
    refine ⟨follows_stored hf haccept,fun hf' _ hkept => ⟨?_,?_⟩⟩
    · intro hzero
      refine hf'.anchored h ?_
      rw [headers_pruned, ← hzero, if_neg hkept, if_pos rfl]
    · intro m child hm hchild
      have hlater : h.number < m := by
        rw [UInt64.lt_iff_toNat_lt, hm]
        exact Nat.lt_succ_self _
      refine hf'.linked h.number m h child hm ?_ ?_
      · rw [headers_pruned, if_neg hkept, if_pos rfl]
      · rw [headers_pruned, if_neg, if_neg, hchild]
        · rintro rfl
          exact UInt64.lt_irrefl _ hlater
        · intro hdrop
          exact absurd (dropped_le hdrop) (UInt64.not_le.mpr hlater)

theorem insert_error {e : String} (he : (hc.insert P h).2 = .error e) : (hc.insert P h).1 = hc := by
  unfold insert at he ⊢
  cases haccept : hc.accept P h with
  | error e => rfl
  | ok _ =>
    rw [haccept] at he
    cases he

end Steps

section Runs

inductive Constructed : HeaderChain → Prop
  | new (checkpoint : Checkpoint) (maxHeaders : ℕ) : Constructed (new checkpoint maxHeaders)
  | withValidators (checkpoint : Checkpoint) (maxHeaders : ℕ) (validators : List BlsPubKey) :
      Constructed (withValidators checkpoint maxHeaders validators)
  | withPinnedChainId {pins : PinnedHashes} {chainId : UInt64} {maxHeaders : ℕ} {validators : List BlsPubKey}
      {policy : PinPolicy} {hc : HeaderChain}
      (h : withPinnedChainId pins chainId maxHeaders validators policy = .ok hc) : Constructed hc

/-- A chain for a pinned hash, or one that was seeded, with any committee. -/
inductive Trusted (genesis : H256) : HeaderChain → Prop
  | pinned {pins : PinnedHashes} {chainId : UInt64} {maxHeaders : ℕ} {validators : List BlsPubKey}
      {policy : PinPolicy} {hc : HeaderChain} (hpin : pins.pinnedFor chainId = some genesis)
      (h : withPinnedChainId pins chainId maxHeaders validators policy = .ok hc) : Trusted genesis hc
  | seeded {hc hc' : HeaderChain} (hbuilt : Constructed hc) (h : hc.setDevnetGenesis genesis = (hc',.ok ())) :
      Trusted genesis hc'
  | setValidators {hc : HeaderChain} (h : Trusted genesis hc) (validators : List BlsPubKey) :
      Trusted genesis (hc.setValidators validators)

theorem lookup_insert_empty {α : Type*} {k n : UInt64} {a b : α}
    (h : ((∅ : Table UInt64 α).insert k a).lookup n = some b) : n = k ∧ b = a := by
  rcases AList.lookup_insert_some h with hnew | ⟨-,hold⟩
  · exact hnew
  · cases hold

theorem follows_seed (hcheckpoint : hc.checkpoint.number = 0)
    (hheaders : ∀ n header, hc.headers.lookup n = some header → n = 0)
    (hcanonical : ∀ n hash, hc.canonical.lookup n = some hash → n = 0) : (hc.seed genesis).Follows genesis := by
  have honly : ∀ {n header}, (hc.seed genesis).headers.lookup n = some header → n = 0 ∧ header = .genesis genesis := by
    intro n header hn
    rcases AList.lookup_insert_some hn with hnew | ⟨hne,hold⟩
    · exact hnew
    · exact absurd (hheaders n header hold) hne
  refine ⟨hcheckpoint,?_,?_,?_,?_⟩
  · intro n m parent child hm hn hchild
    rw [(honly hchild).1] at hm
    cases hm
  · intro header hzero
    rw [(honly hzero).2]
    rfl
  · intro n header hn
    rw [(honly hn).1, (honly hn).2]
    rfl
  · intro n
    by_cases hn : n = 0
    · subst hn
      simp [seed, LightHeader.genesis]
    · have hnone : hc.headers.lookup n = none := by
        cases hlookup : hc.headers.lookup n with
        | none => rfl
        | some header => exact absurd (hheaders n header hlookup) hn
      have hnone' : hc.canonical.lookup n = none := by
        cases hlookup : hc.canonical.lookup n with
        | none => rfl
        | some hash => exact absurd (hcanonical n hash hlookup) hn
      simp [seed, AList.lookup_insert_ne hn, hnone, hnone']

theorem follows_withPinnedChainId {pins : PinnedHashes} {chainId : UInt64} {maxHeaders : ℕ}
    {validators : List BlsPubKey} {policy : PinPolicy} (hpin : pins.pinnedFor chainId = some genesis)
    (h : withPinnedChainId pins chainId maxHeaders validators policy = .ok hc) : hc.Follows genesis := by
  simp only [withPinnedChainId, hpin] at h
  split at h
  · cases h
  · split at h
    · cases h
    · cases h
      exact follows_seed rfl nofun nofun

theorem Constructed.only_zero (h : Constructed hc) :
    (∀ n header, hc.headers.lookup n = some header → n = 0) ∧
      ∀ n hash, hc.canonical.lookup n = some hash → n = 0 := by
  cases h with
  | new checkpoint maxHeaders => exact ⟨nofun,nofun⟩
  | withValidators checkpoint maxHeaders validators => exact ⟨nofun,nofun⟩
  | @withPinnedChainId pins chainId maxHeaders validators policy _ h =>
    cases hpin : pins.pinnedFor chainId with
    | some p =>
      simp only [HeaderChain.withPinnedChainId, hpin] at h
      split at h
      · cases h
      · split at h
        · cases h
        · cases h
          exact ⟨fun n header hn => (lookup_insert_empty hn).1,fun n hash hn => (lookup_insert_empty hn).1⟩
    | none =>
      cases policy with
      | required => simp [HeaderChain.withPinnedChainId, hpin] at h
      | allowUnregistered =>
        simp only [HeaderChain.withPinnedChainId, hpin, Except.ok.injEq] at h
        subst h
        exact ⟨nofun,nofun⟩

theorem Trusted.follows (h : Trusted genesis hc) : hc.Follows genesis := by
  induction h with
  | pinned hpin h => exact follows_withPinnedChainId hpin h
  | @seeded hc hc' hbuilt h =>
    obtain ⟨hheaders,hcanonical⟩ := hbuilt.only_zero
    unfold setDevnetGenesis at h
    split at h
    · cases h
    · split at h
      · cases h
      · cases h
        exact follows_seed rfl hheaders hcanonical
  | setValidators _ validators ih => exact ⟨ih.checkpoint,ih.linked,ih.anchored,ih.numbered,ih.canonical⟩

/-- The chain follows its genesis in every state of a run, and an error changes nothing. -/
def OneChain (P : Platform) (genesis : H256) (hc : HeaderChain) (calls : List LightHeader) : Prop :=
  (∀ e ∈ Machine.history (insert P) hc calls, e.before.Follows genesis ∧
    ∀ msg, e.output = .error msg → (e.before.insert P e.call).1 = e.before) ∧
  (Machine.final (insert P) hc calls).Follows genesis

/-- A trusted chain stays one anchored chain exactly if all headers of the run fit where they
come in. -/
theorem anchored_chain_iff (P : Platform) (genesis : H256) (hc : HeaderChain) (htrusted : Trusted genesis hc)
    (calls : List LightHeader) :
    (∀ e ∈ Machine.history (insert P) hc calls, InsertFits P genesis e.before e.call) ↔
      OneChain P genesis hc calls := by
  rw [Machine.invariant_iff (insert P) htrusted.follows (fun _ h hf => insert_iff P hf h)]
  constructor
  · rintro ⟨hbefore,hfinal⟩
    refine ⟨fun e he => ⟨hbefore e he,fun msg hmsg => ?_⟩,hfinal⟩
    rw [Machine.output_eq _ he] at hmsg
    exact insert_error hmsg
  · rintro ⟨hall,hfinal⟩
    exact ⟨fun e he => (hall e he).1,hfinal⟩

def demoChain : HeaderChain :=
  ((withValidators ⟨0,9⟩ 4 [Platform.integers.toPubkey 1]).setDevnetGenesis 9).1

def demoHeader (number : UInt64) (hash parentHash stateRoot : H256) : LightHeader :=
  { LightHeader.genesis hash with
    number := number
    parentHash := parentHash
    stateRoot := stateRoot
    quorumCert := Bytes.bytesBE 96 (Platform.integers.sign 1 hash).toNat }

theorem demoChain_trusted : Trusted 9 demoChain :=
  .seeded (.withValidators ⟨0,9⟩ 4 [Platform.integers.toPubkey 1]) rfl

theorem anchored_chain_one_header : OneChain .integers 9 demoChain [demoHeader 1 10 9 7] := by
  refine (anchored_chain_iff .integers 9 demoChain demoChain_trusted _).mp (fun e he => ?_)
  obtain rfl := List.mem_singleton.mp he
  refine fun _ _ => ⟨fun hzero => absurd hzero (by decide),fun m child hm hchild => ?_⟩
  obtain ⟨rfl,-⟩ := lookup_insert_empty hchild
  cases hm

/-- Number 0 is taken without a look at the trust anchor or at a certificate. -/
theorem genesis_replaced : Trusted 9 demoChain ∧ demoChain.validators ≠ [] ∧
    ¬ OneChain .integers 9 demoChain [LightHeader.genesis 8] := by
  refine ⟨demoChain_trusted,by decide,fun hone => ?_⟩
  have hzero := hone.2.anchored (.genesis 8) rfl
  exact absurd hzero (by decide)

end Runs

section Certificates
variable {calls : List LightHeader}

/-- The part of a header that a reader of the chain relies on. -/
def SameContent (h h' : LightHeader) : Prop :=
  h.number = h'.number ∧ h.parentHash = h'.parentHash ∧ h.stateRoot = h'.stateRoot ∧
    h.transactionsRoot = h'.transactionsRoot ∧ h.receiptsRoot = h'.receiptsRoot ∧ h.timestamp = h'.timestamp

/-- The hash that an accepted header claims determines its content, whatever the states are in
which two such headers are accepted. -/
def Authentic (P : Platform) (hc : HeaderChain) : Prop :=
  ∀ calls calls' h h', 0 < h.number → 0 < h'.number →
    ((Machine.final (insert P) hc calls).insert P h).2 = .ok () →
    ((Machine.final (insert P) hc calls').insert P h').2 = .ok () → h.hash = h'.hash → SameContent h h'

/-- The committee has signed some hash: 96 bytes verify for it. -/
def Certifies (P : Platform) (hc : HeaderChain) : Prop :=
  ∃ cert hash, cert.length = 96 ∧
    P.verifyAggregate (BitVec.ofNat 768 (Bytes.ofBytesBE cert)) hc.validators hash = true

theorem final_committee (P : Platform) (hc : HeaderChain) (calls : List LightHeader) :
    (Machine.final (insert P) hc calls).validators = hc.validators ∧
      (Machine.final (insert P) hc calls).devnetSeeded = hc.devnetSeeded := by
  induction calls generalizing hc with
  | nil => exact ⟨rfl,rfl⟩
  | cons h rest ih =>
    have hstep : (hc.insert P h).1.validators = hc.validators ∧
        (hc.insert P h).1.devnetSeeded = hc.devnetSeeded := by
      unfold insert
      split
      · exact ⟨rfl,rfl⟩
      · unfold pruned
        split
        · exact ⟨rfl,rfl⟩
        · exact ⟨rfl,rfl⟩
    obtain ⟨hvalidators,hseeded⟩ := ih (hc.insert P h).1
    exact ⟨hvalidators.trans hstep.1,hseeded.trans hstep.2⟩

theorem insert_ok_iff : (hc.insert P h).2 = .ok () ↔ hc.accept P h = .ok () := by
  unfold insert
  cases haccept : hc.accept P h with
  | error e => simp
  | ok _ => simp

theorem insert_ok_above (hvalidators : hc.validators ≠ []) (hpos : 0 < h.number) :
    (hc.insert P h).2 = .ok () ↔
      hc.devnetSeeded = true ∧ hc.linksToParent h = true ∧ hc.verifyQc P h = true := by
  have hzero : h.number ≠ 0 := by
    rintro hzero
    rw [hzero] at hpos
    exact UInt64.lt_irrefl _ hpos
  rw [insert_ok_iff, accept, LightHeader.validateBasic, if_neg (fun hboth => hzero hboth.1)]
  cases hseeded : hc.devnetSeeded with
  | false => simp
  | true =>
    cases hlinks : hc.linksToParent h with
    | false => simp
    | true => simp [hpos, hvalidators]

def claimed (hc : HeaderChain) (cert : List UInt8) (hash stateRoot : H256) : LightHeader :=
  { LightHeader.genesis hash with
    number := 1
    parentHash := ((hc.headers.lookup 0).map LightHeader.hash).getD H256.zero
    stateRoot := stateRoot
    quorumCert := cert }

theorem claimed_number (cert : List UInt8) (hash stateRoot : H256) : (hc.claimed cert hash stateRoot).number = 1 :=
  rfl

theorem claimed_accepted (hvalidators : hc.validators ≠ []) (hseeded : hc.devnetSeeded = true)
    {cert : List UInt8} {hash : H256} (hlen : cert.length = 96)
    (hcert : P.verifyAggregate (BitVec.ofNat 768 (Bytes.ofBytesBE cert)) hc.validators hash = true)
    (stateRoot : H256) : (hc.insert P (hc.claimed cert hash stateRoot)).2 = .ok () := by
  refine (insert_ok_above hvalidators (by simp [claimed_number])).mpr ⟨hseeded,?_,?_⟩
  · unfold linksToParent
    split
    · have hbefore : (hc.claimed cert hash stateRoot).number - 1 = 0 := by simp [claimed_number]
      rw [hbefore]
      cases hparent : hc.headers.lookup 0 with
      | none => rfl
      | some parent => simp [claimed, hparent]
    · rfl
  · simp only [verifyQc, claimed, hlen, ne_eq, not_true_eq_false, if_false]
    exact hcert

/-- The hash of an accepted header determines its content only where no header can be accepted:
on a chain without a trust anchor, or for a committee of which no certificate verifies. -/
theorem authentic_iff (P : Platform) (hc : HeaderChain) (hvalidators : hc.validators ≠ []) :
    Authentic P hc ↔ ¬ (hc.devnetSeeded = true ∧ Certifies P hc) := by
  constructor
  · rintro hauthentic ⟨hseeded,cert,hash,hlen,hcert⟩
    have hsame := hauthentic [] [] (hc.claimed cert hash 0) (hc.claimed cert hash 1)
      (by simp [claimed_number]) (by simp [claimed_number])
      (claimed_accepted hvalidators hseeded hlen hcert 0) (claimed_accepted hvalidators hseeded hlen hcert 1) rfl
    exact absurd hsame.2.2.1 (by decide : (0 : H256) ≠ 1)
  · intro hnone calls calls' h h' hpos _ hok
    obtain ⟨hcommittee,hanchor⟩ := final_committee P hc calls
    rw [insert_ok_above (hcommittee ▸ hvalidators) hpos] at hok
    obtain ⟨hseeded,-,hqc⟩ := hok
    refine absurd ⟨hanchor ▸ hseeded,h.quorumCert,h.hash,?_⟩ hnone
    unfold verifyQc at hqc
    split at hqc
    · cases hqc
    · rename_i hlen
      exact ⟨not_not.mp hlen,hcommittee ▸ hqc⟩

theorem authentic_unseeded :
    Authentic .integers demoChain ↔ ¬ (demoChain.devnetSeeded = true ∧ Certifies .integers demoChain) :=
  authentic_iff .integers demoChain (by decide)

/-- The signature for one header is accepted for a header with another state root. -/
theorem signature_reused : demoChain.validators ≠ [] ∧
    ((demoChain.insert .integers (demoHeader 1 10 9 7)).2 = .ok () ∧
      (demoChain.insert .integers (demoHeader 1 10 9 8)).2 = .ok ()) ∧ ¬ Authentic .integers demoChain := by
  have hfirst : (demoChain.insert .integers (demoHeader 1 10 9 7)).2 = .ok () := by decide +kernel
  have hsecond : (demoChain.insert .integers (demoHeader 1 10 9 8)).2 = .ok () := by decide +kernel
  refine ⟨by decide,⟨hfirst,hsecond⟩,fun hauthentic => ?_⟩
  have hsame := hauthentic [] [] _ _ (by decide) (by decide) hfirst hsecond rfl
  exact absurd hsame.2.2.1 (by decide)

end Certificates

end HeaderChain

end ZbxChain
