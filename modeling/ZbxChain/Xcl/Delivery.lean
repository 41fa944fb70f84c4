import ZbxChain.Xcl.Handler

/-! # Packets between chains: delivered once, and as they were sent

What one call does to the stores of its chain is said once for each handler. Receipts and
commitments are then followed over the runs of many chains, and the amounts over the runs of one.
-/
namespace ZbxChain.Xcl
open Stateful XclM
open Staking (wrap128)

section Rules
variable {s : XclState} {E : XclStop → XclState → Prop}

theorem ends_orFail {α : Type} {r : Except XclError α} {Q : α → XclState → Prop} (hQ : ∀ a, r = .ok a → Q a s)
    (hE : ∀ e, E e s) : Ends (orFail r) s Q E := by
  cases r with
  | ok a => exact hQ a rfl
  | error e => exact hE _

theorem ends_orStop {α : Type} {r : Except XclStop α} {Q : α → XclState → Prop} (hQ : ∀ a, r = .ok a → Q a s)
    (hE : ∀ e, E e s) : Ends (orStop r) s Q E := by
  cases r with
  | ok a => exact hQ a rfl
  | error e => exact hE _

theorem ends_requireChannel {id : ChannelId} {Q : Channel → XclState → Prop}
    (hQ : ∀ channel, s.channels.lookup id = some channel → Q channel s) (hE : ∀ e, E e s) :
    Ends (requireChannel id) s Q E := by
  unfold requireChannel
  rw [ends_bind, ends_get]
  cases h : s.channels.lookup id with
  | none => exact hE _
  | some channel => exact hQ channel h

theorem ends_requireClient {id : ClientId} {Q : ForeignClient → XclState → Prop}
    (hQ : ∀ client, s.clients.lookup id = some client → Q client s) (hE : ∀ e, E e s) :
    Ends (requireClient id) s Q E := by
  unfold requireClient
  rw [ends_bind, ends_get]
  cases h : s.clients.lookup id with
  | none => exact hE _
  | some client => exact hQ client h

end Rules

namespace CommitmentStore
variable (P : Platform) (store : CommitmentStore) (ch : ChannelId) (seq : UInt64)

def pendingOn : ℕ := store.pending.sumOf (fun key p => if key.1 = ch then p.escrowedAmount else 0)

variable {store}

theorem escrowBalance_insert (amount : ℕ) (ch' : ChannelId) :
    { store with escrow := store.escrow.insert ch amount }.escrowBalance ch' =
      if ch' = ch then amount else store.escrowBalance ch' := by
  unfold escrowBalance
  by_cases h : ch' = ch
  · subst h
    simp
  · simp [h, AList.lookup_insert_ne h]

theorem escrowBalance_setCommitment (packet : XclPacket) (amount : ℕ) :
    (store.setCommitment P packet amount).escrowBalance ch ≤
      store.escrowBalance ch + if packet.srcChannel = ch then amount else 0 := by
  unfold setCommitment escrowBalance
  by_cases h : packet.srcChannel = ch
  · subst h
    rw [AList.lookup_insert, if_pos rfl]
    exact Nat.mod_le _ _
  · rw [AList.lookup_insert_ne (Ne.symm h)]
    exact Nat.le_add_right _ _

theorem hasReceipt_insert (ch' : ChannelId) (seq' : UInt64) :
    { store with receipts := store.receipts.insert (ch,seq) true }.hasReceipt ch' seq' =
      (decide ((ch',seq') = (ch,seq)) || store.hasReceipt ch' seq') := by
  unfold hasReceipt
  by_cases h : (ch',seq') = (ch,seq)
  · rw [h]
    simp
  · simp [h, AList.lookup_insert_ne h]

theorem pendingOn_deleteCommitment (ch' : ChannelId) :
    (store.deleteCommitment ch seq).1.pendingOn ch' +
        (if ch = ch' then ((store.deleteCommitment ch seq).2.map PendingSend.escrowedAmount).getD 0 else 0) =
      store.pendingOn ch' := by
  refine Eq.trans ?_ (AList.sumOf_erase store.pending _ (ch,seq))
  congr 1
  unfold AList.countOf deleteCommitment
  dsimp only
  cases store.pending.lookup (ch,seq) with
  | none => simp
  | some p => rfl

end CommitmentStore

open CommitmentStore

/-- Nothing is sent and no header is learnt: a receipt stays, a balance does not grow. -/
structure Settled (s s' : XclState) : Prop where
  clients : s'.clients = s.clients
  commitments : ∀ key h, s'.commitment.commitments.lookup key = some h → s.commitment.commitments.lookup key = some h
  receipts : ∀ ch seq, s.commitment.hasReceipt ch seq = true → s'.commitment.hasReceipt ch seq = true
  escrow : ∀ ch, s'.commitment.escrowBalance ch ≤ s.commitment.escrowBalance ch
  pending : ∀ ch, s'.commitment.pendingOn ch ≤ s.commitment.pendingOn ch

instance : Std.Refl Settled := ⟨fun _ => ⟨rfl,fun _ _ h => h,fun _ _ h => h,fun _ => le_rfl,fun _ => le_rfl⟩⟩

instance : IsTrans XclState Settled :=
  ⟨fun _ _ _ h h' => ⟨h'.clients.trans h.clients,fun key _ hl => h.commitments key _ (h'.commitments key _ hl),
    fun ch seq hr => h'.receipts ch seq (h.receipts ch seq hr),fun ch => (h'.escrow ch).trans (h.escrow ch),
    fun ch => (h'.pending ch).trans (h.pending ch)⟩⟩

section Settling
variable {P : Platform} {s s' : XclState} {ch : ChannelId} {seq : UInt64}

theorem settled_self (_ : XclStop) : Settled s s := refl_of Settled s

theorem settled_of_eq (hclients : s'.clients = s.clients) (hstore : s'.commitment = s.commitment) : Settled s s' :=
  ⟨hclients,fun _ _ h => hstore ▸ h,fun _ _ h => hstore ▸ h,fun _ => hstore ▸ le_rfl,fun _ => hstore ▸ le_rfl⟩

theorem settled_insert_escrow {amount : ℕ} (h : amount ≤ s.commitment.escrowBalance ch) :
    Settled s { s with commitment.escrow := s.commitment.escrow.insert ch amount } := by
  refine ⟨rfl,fun _ _ h => h,fun _ _ h => h,fun ch' => ?_,fun _ => le_rfl⟩
  rw [escrowBalance_insert]
  split
  · rename_i heq
    rwa [heq]
  · exact le_rfl

theorem debitEscrow_ends (ch : ChannelId) (amount : ℕ) :
    Ends (debitEscrow ch amount) s
      (fun _ s' => Settled s s' ∧ s'.commitment.escrowBalance ch + amount ≤ s.commitment.escrowBalance ch)
      (fun _ => Settled s) := by
  unfold debitEscrow
  simp only [ends_bind, ends_get, ends_ite, ends_modify]
  split
  · exact settled_insert_escrow le_rfl
  · refine ⟨settled_insert_escrow (Nat.sub_le _ _),?_⟩
    rw [escrowBalance_insert, if_pos rfl]
    omega

theorem settled_insert_receipt (s : XclState) :
    Settled s { s with commitment.receipts := s.commitment.receipts.insert (ch,seq) true } :=
  ⟨rfl,fun _ _ h => h,fun ch' seq' hr => by rw [hasReceipt_insert, hr, Bool.or_true],fun _ => le_rfl,fun _ => le_rfl⟩

theorem setReceipt_ends (ch : ChannelId) (seq : UInt64) :
    Ends (setReceipt ch seq) s (fun _ s' => Settled s s' ∧ s'.commitment.hasReceipt ch seq = true)
      (fun _ => Settled s) := by
  unfold setReceipt
  simp only [ends_bind, ends_get, ends_ite, ends_modify]
  split
  · exact refl_of Settled s
  · exact ⟨settled_insert_receipt s,by rw [hasReceipt_insert, decide_eq_true rfl, Bool.true_or]⟩

theorem setAck_ends (ch : ChannelId) (seq : UInt64) (ack : PacketAck) :
    Ends (setAck P ch seq ack) s (fun _ => Settled s) (fun _ => Settled s) := by
  unfold setAck
  simp only [ends_bind, ends_get, ends_ite, ends_modify]
  split
  · exact refl_of Settled s
  · exact ⟨rfl,fun _ _ h => h,fun _ _ h => h,fun _ => le_rfl,fun _ => le_rfl⟩

theorem settled_deleteCommitment (s : XclState) :
    Settled s { s with commitment := (s.commitment.deleteCommitment ch seq).1 } where
  clients := rfl
  commitments key h hl := by
    by_cases hkey : key = (ch,seq)
    · subst hkey
      simp [deleteCommitment] at hl
    · rwa [deleteCommitment, AList.lookup_erase_ne hkey] at hl
  receipts _ _ h := h
  escrow ch' := by
    cases hp : s.commitment.pending.lookup (ch,seq) with
    | none => simp [deleteCommitment, hp, escrowBalance]
    | some p =>
      simp only [deleteCommitment, hp]
      exact (settled_insert_escrow (s := s) (Nat.sub_le _ p.escrowedAmount)).escrow ch'
  pending ch' := Nat.le.intro (pendingOn_deleteCommitment ch seq ch')

theorem takeCommitment_ends (packet : XclPacket) :
    Ends (takeCommitment packet) s
      (fun p s' => Settled s s' ∧ ∀ ch, s'.commitment.pendingOn ch +
        (if packet.srcChannel = ch then p.escrowedAmount else 0) ≤ s.commitment.pendingOn ch)
      (fun _ => Settled s) := by
  have hpending := @pendingOn_deleteCommitment s.commitment packet.srcChannel packet.sequence
  unfold takeCommitment
  simp only [ends_bind, ends_get, ends_modify]
  cases hp : (s.commitment.deleteCommitment packet.srcChannel packet.sequence).2 with
  | none => exact settled_deleteCommitment s
  | some p =>
    refine ⟨settled_deleteCommitment s,fun ch => (?_ : _ = _).le⟩
    have hch := hpending ch
    rwa [hp] at hch

end Settling

section Amounts
variable (ch : ChannelId)

namespace StateChange

def deposited : StateChange → ℕ
  | .escrowDeposit _ channel amount => if channel = ch then amount else 0
  | _ => 0

def released : StateChange → ℕ
  | .escrowRelease _ channel amount => if channel = ch then amount else 0
  | _ => 0

def refunded : StateChange → ℕ
  | .refund _ amount => amount
  | _ => 0

end StateChange

def HandlerResult.total (result : HandlerResult) (f : StateChange → ℕ) : ℕ := (result.stateChanges.map f).sum

def refundedOn : XclCall → HandlerResult → ℕ
  | .ackPacket packet _ _ _, result | .timeoutPacket packet _ _, result =>
    if packet.srcChannel = ch then result.total StateChange.refunded else 0
  | _, _ => 0

/-- What a call that is served does to the stores of its chain. -/
structure Moved (P : Platform) (s : XclState) (call : XclCall) (reply : XclReply) (s' : XclState) : Prop where
  clients : ∀ id client' height header, s'.clients.lookup id = some client' →
    client'.headers.lookup height = some header →
    call = .updateClient id header ∨ ∃ client, s.clients.lookup id = some client ∧
      client.headers.lookup height = some header
  commitments : ∀ key h, s'.commitment.commitments.lookup key = some h →
    (∃ packet, reply.1 = some packet ∧ packet.commitment P = h) ∨ s.commitment.commitments.lookup key = some h
  receipts : ∀ ch seq, s.commitment.hasReceipt ch seq = true → s'.commitment.hasReceipt ch seq = true
  escrow : ∀ ch, s'.commitment.escrowBalance ch + reply.2.total (StateChange.released ch) ≤
    s.commitment.escrowBalance ch + reply.2.total (StateChange.deposited ch)
  pending : ∀ ch, s'.commitment.pendingOn ch + refundedOn ch call reply.2 ≤
    s.commitment.pendingOn ch + reply.2.total (StateChange.deposited ch)

end Amounts

section Serving
variable {P : Platform} {env : XclEnv} {s s' : XclState} {call : XclCall} {reply : XclReply} {E : XclStop → XclState → Prop}

theorem Settled.moved (h : Settled s s')
    (hescrow : ∀ ch, s'.commitment.escrowBalance ch + reply.2.total (StateChange.released ch) ≤
      s.commitment.escrowBalance ch)
    (hpending : ∀ ch, s'.commitment.pendingOn ch + refundedOn ch call reply.2 ≤ s.commitment.pendingOn ch) :
    Moved P s call reply s' where
  clients _ client' _ _ hclient hheader := .inr ⟨client',h.clients ▸ hclient,hheader⟩
  commitments key hash hl := .inr (h.commitments key hash hl)
  receipts := h.receipts
  escrow ch := (hescrow ch).trans (Nat.le_add_right _ _)
  pending ch := (hpending ch).trans (Nat.le_add_right _ _)

theorem sendData_ends {ch : ChannelId} {data : List UInt8} {amount : ℕ} {changes : List StateChange}
    {height timestamp : UInt64} {Q : XclPacket × HandlerResult → XclState → Prop}
    (hQ : ∀ packet channels events, packet.srcChannel = ch → packet.data = data → packet.srcChainId = env.localChain →
      Q (packet,⟨changes,events⟩) { s with
        channels := channels, commitment := s.commitment.setCommitment P packet amount }) (hE : ∀ e, E e s) :
    Ends (sendData P env ch data amount changes height timestamp) s Q E := by
  unfold sendData
  simp only [ends_bind]
  refine ends_requireChannel (fun channel _ => ends_orFail (fun _ _ => ?_) hE) hE
  exact hQ _ _ _ rfl rfl rfl

theorem moved_setCommitment {packet : XclPacket} {amount : ℕ} {result : HandlerResult} {channels : Table ChannelId Channel}
    (hreply : reply = (some packet,result)) (hcall : ∀ ch, refundedOn ch call result = 0)
    (hreleased : ∀ ch, result.total (StateChange.released ch) = 0)
    (hdeposited : ∀ ch, (if packet.srcChannel = ch then amount else 0) ≤ result.total (StateChange.deposited ch)) :
    Moved P s call reply { s with
      channels := channels, commitment := s.commitment.setCommitment P packet amount } := by
  subst hreply
  refine ⟨fun id client' height header hclient hheader => .inr ⟨client',hclient,hheader⟩,?_,fun _ _ h => h,?_,?_⟩
  · intro key hash hl
    by_cases hkey : key = (packet.srcChannel,packet.sequence)
    · subst hkey
      rw [setCommitment, AList.lookup_insert] at hl
      exact .inl ⟨packet,rfl,Option.some.inj hl⟩
    · rw [setCommitment, AList.lookup_insert_ne hkey] at hl
      exact .inr hl
  · intro ch
    rw [hreleased]
    exact (escrowBalance_setCommitment P ch packet amount).trans (Nat.add_le_add_left (hdeposited ch) _)
  · intro ch
    have hsum := AList.sumOf_insert s.commitment.pending (fun key p => if key.1 = ch then p.escrowedAmount else 0)
      (packet.srcChannel,packet.sequence) ⟨packet,amount⟩
    have hch := hdeposited ch
    rw [hcall]
    unfold pendingOn setCommitment
    dsimp only at hsum ⊢
    omega

theorem refundOf_ends {packet : XclPacket} {p : PendingSend} {Q : List StateChange → XclState → Prop}
    (hQ : ∀ receiver, Q [.refund receiver p.escrowedAmount] s) (hE : ∀ e, E e s) : Ends (refundOf packet p) s Q E := by
  unfold refundOf
  simp only [ends_bind]
  exact ends_orFail (fun _ _ => hQ _) hE

/-- An answer to a packet gives back at most what was in flight for it. -/
def GivesBack (packet : XclPacket) (s s' : XclState) (result : HandlerResult) : Prop :=
  Settled s s' ∧ ∀ ch, result.total (StateChange.released ch) = 0 ∧ s'.commitment.pendingOn ch +
    (if packet.srcChannel = ch then result.total StateChange.refunded else 0) ≤ s.commitment.pendingOn ch

theorem GivesBack.moved {packet : XclPacket} {result : HandlerResult} (h : GivesBack packet s s' result)
    (hcall : ∀ ch, refundedOn ch call result =
      if packet.srcChannel = ch then result.total StateChange.refunded else 0) : Moved P s call (none,result) s' :=
  h.1.moved (fun ch => by rw [(h.2 ch).1]; exact h.1.escrow ch) fun ch => by rw [hcall]; exact (h.2 ch).2

theorem ackPacket_ends (packet : XclPacket) (ack : PacketAck) (proofHeight : UInt64) (nodes : List (List UInt8)) :
    Ends (ackPacket P packet ack proofHeight nodes) s (fun result s' => GivesBack packet s s' result)
      (fun _ => Settled s) := by
  unfold ackPacket
  simp only [ends_bind, ends_get, ends_ite]
  refine ends_requireChannel (fun channel _ => ends_orFail (fun _ _ => ?_) settled_self) settled_self
  split
  · exact refl_of Settled s
  · refine ends_requireClient (fun client _ => ends_orStop (fun _ _ => ?_) settled_self) settled_self
    have hput : Settled s { s with channels := s.channels.insert packet.srcChannel channel.advanceAckSeq } :=
      settled_of_eq rfl rfl
    refine (takeCommitment_ends packet).imp (fun p s' h => ?_) fun _ s' h => trans_of Settled hput h
    obtain ⟨hsettled,htaken⟩ := h
    have hs' : Settled s s' := trans_of Settled hput hsettled
    split
    · exact ⟨hs',fun ch => ⟨rfl,le_trans (Nat.add_le_add_left (by split <;> exact Nat.zero_le _) _) (htaken ch)⟩⟩
    · exact refundOf_ends (fun receiver => ⟨hs',fun ch => ⟨rfl,htaken ch⟩⟩) fun _ => hs'

theorem timeoutPacket_ends (packet : XclPacket) (proofHeight : UInt64) (nodes : List (List UInt8)) :
    Ends (timeoutPacket P env packet proofHeight nodes) s (fun result s' => GivesBack packet s s' result)
      (fun _ => Settled s) := by
  have hrest : Ends (takeCommitment packet) s (fun p s' => Ends (refundOf packet p) s'
      (fun changes s' => GivesBack packet s s' ⟨changes,[.packetTimeout packet.srcChannel packet.sequence]⟩)
      (fun _ => Settled s)) (fun _ => Settled s) :=
    (takeCommitment_ends packet).imp (fun p s' ⟨hsettled,htaken⟩ =>
      refundOf_ends (fun receiver => ⟨hsettled,fun ch => ⟨rfl,htaken ch⟩⟩) fun _ => hsettled) fun _ _ h => h
  unfold timeoutPacket
  simp only [ends_bind, ends_ite]
  refine ends_requireChannel (fun channel _ => ends_orFail (fun _ _ => ?_) settled_self) settled_self
  split
  · exact refl_of Settled s
  · refine ends_requireClient (fun client _ => ?_) settled_self
    split
    · exact hrest
    · exact ends_orStop (fun _ _ => hrest) settled_self

/-- The proof that comes with a packet is good for a header of the client of its channel. -/
def Proven (P : Platform) (s : XclState) (packet : XclPacket) (proofHeight : UInt64) (nodes : List (List UInt8)) : Prop :=
  ∃ channel client header, s.channels.lookup packet.dstChannel = some channel ∧
    s.clients.lookup channel.clientId = some client ∧ client.headers.lookup proofHeight = some header ∧
    verifyProof P header.stateRoot (commitmentKey packet.srcChannel packet.sequence)
      (some (packet.commitment P).asBytes) nodes = some true

theorem verifyStateProof_ok {client : ForeignClient} {height : UInt64} {key value : List UInt8} {nodes : List (List UInt8)}
    {u : Unit} (h : client.verifyStateProof P height key value nodes = .ok u) (hvalue : value ≠ []) :
    ∃ header, client.headers.lookup height = some header ∧
      verifyProof P header.stateRoot key (some value) nodes = some true := by
  unfold ForeignClient.verifyStateProof at h
  rw [if_neg (by simpa using hvalue)] at h
  split at h
  · cases h
  · rename_i header hheader
    split at h
    · cases h
    · cases h
    · rename_i hproof
      exact ⟨header,hheader,hproof⟩

theorem dispatch_ends (packet : XclPacket) :
    Ends (dispatch packet) s (fun changes s' => Settled s s' ∧ ∀ ch, s'.commitment.escrowBalance ch +
      (changes.map (StateChange.released ch)).sum ≤ s.commitment.escrowBalance ch) (fun _ => Settled s) := by
  unfold dispatch
  cases detectApp packet.data with
  | fungibleTransfer =>
    simp only [ends_bind]
    refine ends_orFail (fun ft _ => ?_) settled_self
    cases stripPrefix (namespacePrefix packet.srcChainId packet.dstChannel) ft.denom with
    | none => exact ⟨refl_of Settled s,fun _ => le_rfl⟩
    | some base =>
      simp only [ends_bind, ends_pure]
      refine (debitEscrow_ends packet.dstChannel ft.amount).imp (fun _ s' h => ?_) fun _ _ h => h
      obtain ⟨hsettled,hdebit⟩ := h
      refine ⟨hsettled,fun ch => ?_⟩
      by_cases hch : packet.dstChannel = ch
      · subst hch
        simpa [StateChange.released] using hdebit
      · simpa [StateChange.released, hch] using hsettled.escrow ch
  | message =>
    simp only [ends_bind]
    exact ends_orFail (fun msg _ => ⟨refl_of Settled s,fun _ => le_rfl⟩) settled_self
  | unknown id => exact refl_of Settled s

theorem checkRecvSeq_clientId {channel channel' : Channel} {seq : UInt64} (h : channel.checkRecvSeq seq = .ok channel') :
    channel'.clientId = channel.clientId := by
  unfold Channel.checkRecvSeq at h
  split at h
  · cases h
  · cases h
    split
    · rfl
    · rfl

theorem recvPacket_ends (packet : XclPacket) (proofHeight : UInt64) (nodes : List (List UInt8)) :
    Ends (recvPacket P env packet proofHeight nodes) s
      (fun result s' => Settled s s' ∧ s.commitment.hasReceipt packet.dstChannel packet.sequence = false ∧
        s'.commitment.hasReceipt packet.dstChannel packet.sequence = true ∧ Proven P s packet proofHeight nodes ∧
        ∀ ch, s'.commitment.escrowBalance ch + result.total (StateChange.released ch) ≤ s.commitment.escrowBalance ch)
      (fun _ => Settled s) := by
  unfold recvPacket
  simp only [ends_bind, ends_get, ends_ite]
  refine ends_requireChannel (fun channel hchannel => ends_orFail (fun _ _ => ?_) settled_self) settled_self
  split
  · exact refl_of Settled s
  split
  · exact refl_of Settled s
  split
  · exact refl_of Settled s
  refine ends_orFail (fun channel' hseq => ?_) settled_self
  simp only [putChannel, ends_modify]
  -- the channel is stored, whatever comes now
  have hput : Settled s { s with channels := s.channels.insert packet.dstChannel channel' } := settled_of_eq rfl rfl
  split
  · exact hput
  rename_i hfresh
  refine ends_requireClient (fun client hclient => ends_orStop (fun _ hproof => ?_) fun _ => hput) fun _ => hput
  obtain ⟨header,hheader,hverified⟩ := verifyStateProof_ok hproof
    (List.ne_nil_of_length_pos (by rw [H256.length_asBytes]; decide))
  have hproven : Proven P s packet proofHeight nodes :=
    ⟨channel,client,header,hchannel,checkRecvSeq_clientId hseq ▸ hclient,hheader,hverified⟩
  refine (dispatch_ends packet).imp (fun changes s₂ h => ?_) fun _ _ h => trans_of Settled hput h
  obtain ⟨hdispatch,hreleased⟩ := h
  have h₂ := trans_of Settled hput hdispatch
  refine (setReceipt_ends _ _).imp (fun _ s₃ h => ?_) fun _ _ h => trans_of Settled h₂ h
  obtain ⟨hset,hreceipt⟩ := h
  have h₃ := trans_of Settled h₂ hset
  refine (setAck_ends (P := P) _ _ _).imp (fun _ s₄ hack => ?_) fun _ _ h => trans_of Settled h₃ h
  refine ⟨trans_of Settled h₃ hack,by simpa using hfresh,hack.receipts _ _ hreceipt,hproven,fun ch => ?_⟩
  exact le_trans (Nat.add_le_add_right ((hack.escrow ch).trans (hset.escrow ch)) _) (hreleased ch)

theorem lookup_dropOldest {headers : Table UInt64 ForeignHeader} {n : ℕ} {height : UInt64} {header : ForeignHeader}
    (h : (ForeignClient.dropOldest^[n] headers).lookup height = some header) : headers.lookup height = some header := by
  induction n generalizing headers with
  | zero => exact h
  | succ n ih =>
    have hfirst := ih h
    unfold ForeignClient.dropOldest at hfirst
    cases hmin : headers.keys.min? with
    | none => rwa [hmin] at hfirst
    | some oldest =>
      rw [hmin] at hfirst
      by_cases hkey : height = oldest
      · subst hkey
        simp at hfirst
      · rwa [AList.lookup_erase_ne hkey] at hfirst

theorem lookup_updateHeader {client client' : ForeignClient} {header header' : ForeignHeader} {height : UInt64}
    (h : client.updateHeader P header = .ok client') (hl : client'.headers.lookup height = some header') :
    header' = header ∨ client.headers.lookup height = some header' := by
  have hheaders : ∃ n, client'.headers = ForeignClient.dropOldest^[n] (client.headers.insert header.number header) := by
    unfold ForeignClient.updateHeader at h
    split at h
    · cases h
    cases hparent : client.checkParent header with
    | error e =>
      rw [hparent] at h
      cases h
    | ok u =>
      rw [hparent] at h
      cases hqc : client.verifyQc P header with
      | error e =>
        rw [hqc] at h
        cases h
      | ok u =>
        rw [hqc] at h
        cases h
        exact ⟨_,rfl⟩
  obtain ⟨n,hn⟩ := hheaders
  rw [hn] at hl
  have hinsert := lookup_dropOldest hl
  by_cases hkey : height = header.number
  · subst hkey
    rw [AList.lookup_insert] at hinsert
    exact .inl (Option.some.inj hinsert).symm
  · rw [AList.lookup_insert_ne hkey] at hinsert
    exact .inr hinsert

theorem updateClient_ends (id : ClientId) (header : ForeignHeader) :
    Ends (updateClient P id header) s
      (fun _ s' => Moved P s (.updateClient id header) (none,⟨[],[]⟩) s') (fun _ => Settled s) := by
  unfold updateClient
  simp only [ends_bind, ends_modify]
  refine ends_requireClient (fun client hclient => ends_orFail (fun client' hupdate => ?_) settled_self)
    settled_self
  refine ⟨fun id' known height header' hknown hheader => ?_,fun _ _ h => .inr h,fun _ _ h => h,fun _ => le_rfl,
    fun _ => le_rfl⟩
  by_cases hid : id' = id
  · subst hid
    rw [AList.lookup_insert] at hknown
    cases hknown
    rcases lookup_updateHeader hupdate hheader with rfl | hold
    · exact .inl rfl
    · exact .inr ⟨client,hclient,hold⟩
  · rw [AList.lookup_insert_ne hid] at hknown
    exact .inr ⟨known,hknown,hheader⟩

theorem refundedOn_nil (ch : ChannelId) (call : XclCall) : refundedOn ch call ⟨[],[]⟩ = 0 := by
  unfold refundedOn
  split
  · exact ite_self 0
  · exact ite_self 0
  · rfl

theorem changeChannel_ends (id : ChannelId) (f : Channel → Except XclError Channel) :
    Ends (changeChannel id f) s (fun _ s' => Moved P s call (none,⟨[],[]⟩) s') (fun _ => Settled s) := by
  unfold changeChannel
  simp only [ends_bind]
  refine ends_requireChannel (fun channel _ => ends_orFail (fun channel' _ => ?_) settled_self) settled_self
  have hput : Settled s { s with channels := s.channels.insert id channel' } := settled_of_eq rfl rfl
  exact hput.moved hput.escrow fun ch => by rw [refundedOn_nil]; exact hput.pending ch

theorem serve_ends (call : XclCall) :
    Ends (serve P env call) s (fun reply => Moved P s call reply) (fun _ => Settled s) := by
  cases call with
  | sendPacket ch ft height timestamp =>
    simp only [serve, sendPacket, ends_bind, ends_pure]
    refine sendData_ends (fun packet channels events hsrc _ _ => ?_) settled_self
    refine moved_setCommitment rfl (fun _ => rfl) (fun _ => rfl) fun ch' => ?_
    simp [HandlerResult.total, StateChange.deposited, hsrc]
  | sendMessage ch msg height timestamp =>
    simp only [serve, sendMessage, ends_bind, ends_pure]
    refine sendData_ends (fun packet channels events hsrc _ _ => ?_) settled_self
    exact moved_setCommitment rfl (fun _ => rfl) (fun _ => rfl) fun ch' => by simp
  | recvPacket packet height nodes =>
    simp only [serve, ends_bind, ends_pure]
    refine (recvPacket_ends packet height nodes).imp (fun result s' h => ?_) fun _ _ h => h
    obtain ⟨hsettled,-,-,-,hreleased⟩ := h
    exact hsettled.moved hreleased hsettled.pending
  | ackPacket packet ack height nodes =>
    simp only [serve, ends_bind, ends_pure]
    exact (ackPacket_ends packet ack height nodes).imp (fun result s' h => h.moved fun _ => rfl) fun _ _ h => h
  | timeoutPacket packet height nodes =>
    simp only [serve, ends_bind, ends_pure]
    exact (timeoutPacket_ends packet height nodes).imp (fun result s' h => h.moved fun _ => rfl) fun _ _ h => h
  | updateClient id header =>
    simp only [serve, ends_bind, ends_pure]
    exact updateClient_ends id header
  | tryOpen id _ | complete id | close id =>
    simp only [serve, ends_bind, ends_pure]
    exact changeChannel_ends id _

theorem dispatch_transfer {packet : XclPacket} {ft : FtPacketData} (hft : ft.Fits) (hdata : packet.data = ft.encode)
    (target : XclState) :
    ((dispatch packet).exec target).1 =
      if (stripPrefix (namespacePrefix packet.srcChainId packet.dstChannel) ft.denom).isNone then
        .ok [.creditIou ft.receiver (namespacePrefix packet.srcChainId packet.dstChannel ++ ft.denom) ft.amount]
      else if target.commitment.escrowBalance packet.dstChannel < ft.amount then
        .error (.error (.insufficientEscrow ft.amount (target.commitment.escrowBalance packet.dstChannel)))
      else .ok [.escrowRelease ft.receiver packet.dstChannel ft.amount] := by
  have happ : detectApp packet.data = .fungibleTransfer := by rw [hdata]; rfl
  have hdecode := decode_encode_ft hft []
  rw [List.append_nil, ← hdata] at hdecode
  unfold dispatch
  rw [happ]
  simp only [hdecode, orFail, pure_bind]
  cases stripPrefix (namespacePrefix packet.srcChainId packet.dstChannel) ft.denom with
  | none => rfl
  | some base =>
    rw [if_neg (by simp)]
    by_cases h : target.commitment.escrowBalance packet.dstChannel < ft.amount
    · simp [exec_bind, debitEscrow, h, fail]
    · simp only [exec_bind, debitEscrow, exec_get, if_neg h, exec_modify, exec_pure]

theorem dispatch_message {packet : XclPacket} {msg : MsgPacketData} (hdata : packet.data = msg.encode) (target : XclState) :
    (dispatch packet).exec target = (.ok [.deliverMessage packet.srcChainId msg.sender msg.receiver packet.dstChannel
      packet.sequence (msg.payload.take (msg.payload.length % 256 ^ 2))],target) := by
  have happ : detectApp packet.data = .message := by rw [hdata]; rfl
  have hdecode := decode_encode_msg msg []
  rw [List.append_nil, ← hdata] at hdecode
  unfold dispatch
  rw [happ]
  simp only [hdecode, orFail, pure_bind]
  rfl

/-- What the sender has put into a packet is what the receiver acts on; of a message, up to 16 bits of its length. -/
theorem data_arrives {ft : FtPacketData} (hft : ft.Fits) (msg : MsgPacketData) (s target : XclState) (ch : ChannelId)
    (height timestamp : UInt64) :
    (∀ packet result s', (sendPacket P env ch ft height timestamp).exec s = (.ok (packet,result),s') →
      let home := namespacePrefix env.localChain packet.dstChannel
      let balance := target.commitment.escrowBalance packet.dstChannel
      result.stateChanges = [.escrowDeposit ft.sender ch ft.amount] ∧
        ((dispatch packet).exec target).1 =
          if (stripPrefix home ft.denom).isNone then .ok [.creditIou ft.receiver (home ++ ft.denom) ft.amount]
          else if balance < ft.amount then .error (.error (.insufficientEscrow ft.amount balance))
          else .ok [.escrowRelease ft.receiver packet.dstChannel ft.amount]) ∧
    ∀ packet result s', (sendMessage P env ch msg height timestamp).exec s = (.ok (packet,result),s') →
      (dispatch packet).exec target = (.ok [.deliverMessage env.localChain msg.sender msg.receiver packet.dstChannel
        packet.sequence (msg.payload.take (msg.payload.length % 256 ^ 2))],target) := by
  constructor
  · intro packet result s' hrun
    obtain ⟨hchanges,hdata,hchain⟩ := Ends.of_ok (E := fun _ _ => True) (Q := fun reply _ =>
      reply.2.stateChanges = [.escrowDeposit ft.sender ch ft.amount] ∧ reply.1.data = ft.encode ∧
        reply.1.srcChainId = env.localChain)
      (sendData_ends (fun packet _ _ _ hdata hchain => ⟨rfl,hdata,hchain⟩) fun _ => trivial) hrun
    have harrives := dispatch_transfer hft hdata target
    rw [hchain] at harrives
    exact ⟨hchanges,harrives⟩
  · intro packet result s' hrun
    obtain ⟨hdata,hchain⟩ := Ends.of_ok (E := fun _ _ => True) (Q := fun reply _ =>
      reply.1.data = msg.encode ∧ reply.1.srcChainId = env.localChain)
      (sendData_ends (fun packet _ _ _ hdata hchain => ⟨hdata,hchain⟩) fun _ => trivial) hrun
    rw [← hchain]
    exact dispatch_message hdata target

end Serving

section Sealing
variable {P : Platform} {E : Set (List UInt8)} {store : CommitmentStore} {ch : ChannelId} {seq : UInt64}

theorem textBytes_append (a b : String) : textBytes (a ++ b) = textBytes a ++ textBytes b :=
  ByteArray.toList_data_append

theorem entryKey_getElem? (kind : String) {b : UInt8} (h : (textBytes kind).head? = some b) :
    (entryKey kind ch seq)[4]? = some b := by
  obtain ⟨rest,hrest⟩ := List.head?_eq_some_iff.mp h
  have hxcl : textBytes "xcl/" = [120,99,108,47] := by decide
  simp only [entryKey, textBytes_append, hxcl, hrest]
  rfl

theorem mem_stateEntries {value : List UInt8} (h : (commitmentKey ch seq,value) ∈ store.stateEntries) :
    ∃ key hash, store.commitments.lookup key = some hash ∧ hash.asBytes = value := by
  have hkey : (commitmentKey ch seq)[4]? = some 99 := entryKey_getElem? "commitment" (by decide)
  simp only [stateEntries, List.mem_append, List.mem_map, Prod.mk.injEq] at h
  rcases h with ((⟨⟨key,hash⟩,hmem,_,rfl⟩ | ⟨e,_,heq,_⟩) | ⟨e,_,heq,_⟩) | ⟨e,_,heq,_⟩
  · exact ⟨key,hash,AList.mem_lookup_iff.mpr hmem,rfl⟩
  · rw [← heq, show receiptKey e.1.1 e.1.2 = entryKey "receipt" e.1.1 e.1.2 from rfl,
      entryKey_getElem? "receipt" (b := 114) (by decide)] at hkey
    cases hkey
  · rw [← heq, show ackKey e.1.1 e.1.2 = entryKey "ack" e.1.1 e.1.2 from rfl,
      entryKey_getElem? "ack" (b := 97) (by decide)] at hkey
    cases hkey
  · have hescrow : (textBytes "xcl/escrow/")[4]? = some 101 := by decide
    rw [← heq, List.getElem?_append_left (by decide), hescrow] at hkey
    cases hkey

theorem canonicalBytes_inj {p q : XclPacket} (h : p.canonicalBytes = q.canonicalBytes) : p = q := by
  simp only [XclPacket.canonicalBytes, List.append_assoc] at h
  obtain ⟨hsequence,h⟩ := Bytes.bytesBE_append_inj h
  obtain ⟨hsrcChain,h⟩ := Bytes.bytesBE_append_inj h
  obtain ⟨hdstChain,h⟩ := Bytes.bytesBE_append_inj h
  obtain ⟨hsrc,h⟩ := Bytes.bytesBE_append_inj h
  obtain ⟨hdst,h⟩ := Bytes.bytesBE_append_inj h
  obtain ⟨hheight,h⟩ := Bytes.bytesBE_append_inj h
  obtain ⟨htimestamp,h⟩ := Bytes.bytesBE_append_inj h
  obtain ⟨_,hdata⟩ := Bytes.bytesBE_append_inj h
  cases p
  cases q
  simp only [XclPacket.mk.injEq]
  exact ⟨Bytes.bytesBE_uint64_inj hsequence,Bytes.bytesBE_uint64_inj hsrcChain,Bytes.bytesBE_uint64_inj hdstChain,
    Bytes.bytesBE_bitVec_inj (k := 32) hsrc,Bytes.bytesBE_bitVec_inj (k := 32) hdst,hdata,
    Bytes.bytesBE_uint64_inj hheight,Bytes.bytesBE_uint64_inj htimestamp⟩

/-- The root is that of a trie in which the commitments are those of the store. -/
def Seals (P : Platform) (E : Set (List UInt8)) (root : H256) (store : CommitmentStore) : Prop :=
  ∃ (t : MutableTrie MemoryTrieDB) (m : Contents), t.Denotes P E m ∧ t.root = root ∧
    ∀ ch seq value, m (commitmentKey ch seq) = some value → (commitmentKey ch seq,value) ∈ store.stateEntries

theorem Seals.committed (hsafe : Safe P E) {root : H256} (h : Seals P E root store) {hash : H256}
    {nodes : List (List UInt8)} (hnodes : ∀ b ∈ nodes, b ∈ E)
    (hproof : verifyProof P root (commitmentKey ch seq) (some hash.asBytes) nodes = some true) :
    ∃ key, store.commitments.lookup key = some hash := by
  obtain ⟨t,m,⟨u,hr,hget,_⟩,rfl,hentries⟩ := h
  have hclaimed := hr.verifyProof_spec hsafe hnodes hproof
  obtain ⟨key,stored,hlookup,hbytes⟩ := mem_stateEntries (hentries ch seq _ ((hget _).symm.trans hclaimed.symm))
  have heq : stored = hash := by rw [← H256.fromSlice_asBytes stored, hbytes, H256.fromSlice_asBytes]
  exact ⟨key,heq ▸ hlookup⟩

open TrieCall

/-- The entries of a store as calls on the state trie. -/
def storeCalls (store : CommitmentStore) : List TrieCall := store.stateEntries.map fun e => insert e.1 e.2

def stateTrie (P : Platform) (store : CommitmentStore) : MutableTrie MemoryTrieDB :=
  after P (MutableTrie.new ⟨[]⟩) (storeCalls store)

theorem insert_mem_of_contents {calls : List TrieCall} {key value : List UInt8} (h : contents calls key = some value) :
    insert key value ∈ calls := by
  induction calls using List.reverseRecOn with
  | nil => cases h
  | append_singleton calls call ih =>
    rw [contents, List.foldl_append] at h
    rw [List.mem_append]
    cases call with
    | insert key' value' =>
      by_cases hkey : key = key'
      · subst hkey
        simp only [List.foldl_cons, List.foldl_nil, change, Function.update_self, Option.some.injEq] at h
        exact .inr (List.mem_singleton.mpr (by rw [h]))
      · simp only [List.foldl_cons, List.foldl_nil, change, Function.update_of_ne hkey] at h
        exact .inl (ih h)
    | delete key' =>
      by_cases hkey : key = key'
      · subst hkey
        simp [change] at h
      · simp only [List.foldl_cons, List.foldl_nil, change, Function.update_of_ne hkey] at h
        exact .inl (ih h)
    | commit => exact .inl (ih h)

theorem value_ne_nil {key value : List UInt8} (h : (key,value) ∈ store.stateEntries) :
    value ≠ [] := by
  simp only [CommitmentStore.stateEntries, List.mem_append, List.mem_map, Prod.mk.injEq] at h
  refine List.ne_nil_of_length_pos ?_
  rcases h with ((⟨e,_,_,rfl⟩ | ⟨e,_,_,rfl⟩) | ⟨e,_,_,rfl⟩) | ⟨e,_,_,rfl⟩
  · simp
  · simp
  · simp
  · simp

/-- The trie that is made of the entries of a store seals it. -/
theorem seals_stateTrie (hsafe : Safe P E) (store : CommitmentStore)
    (hmem : ∀ b ∈ involved P (MutableTrie.new (⟨[]⟩ : MemoryTrieDB)) (storeCalls store), b ∈ E) :
    Seals P E (stateTrie P store).root store := by
  have hentry : ∀ key value, insert key value ∈ storeCalls store → (key,value) ∈ store.stateEntries := by
    intro key value h
    obtain ⟨e,he,heq⟩ := List.mem_map.mp h
    cases heq
    exact he
  refine ⟨stateTrie P store,contents (storeCalls store),?_,rfl,
    fun ch seq value h => hentry _ _ (insert_mem_of_contents h)⟩
  refine after_spec hsafe (MutableTrie.denotes_new _) (fun h => ?_)
    (fun key value h => value_ne_nil (hentry key value h)) fun past hpast e he => hmem _ (within_involved hpast e he)
  simp [storeCalls] at h

end Sealing

/-- The packet that a call has sent. -/
def sent : Except XclStop XclReply → Option XclPacket
  | .ok reply => reply.1
  | .error _ => none

/-- The packet that a call has received. -/
def received : XclCall → Except XclStop XclReply → Option XclPacket
  | .recvPacket packet _ _, .ok _ => some packet
  | _, _ => none

section Steps
variable {P : Platform} {s : XclState} {call : XclEnv × XclCall}

/-- One call: an answer that moves the books, or a stop that leaves them settled. -/
theorem step_moved (s : XclState) (call : XclEnv × XclCall) :
    (∃ reply, (step P s call).2 = .ok reply ∧ Moved P s call.2 reply (step P s call).1) ∨
      (∃ stop, (step P s call).2 = .error stop) ∧ Settled s (step P s call).1 := by
  have hends : Ends (serve P call.1 call.2) s _ _ := serve_ends call.2
  unfold step
  rcases hrun : (serve P call.1 call.2).exec s with ⟨stop | reply,s'⟩
  · exact .inr ⟨⟨stop,rfl⟩,hends.of_error hrun⟩
  · exact .inl ⟨reply,rfl,hends.of_ok hrun⟩

theorem step_receipts {ch : ChannelId} {seq : UInt64} (h : s.commitment.hasReceipt ch seq = true) :
    (step P s call).1.commitment.hasReceipt ch seq = true := by
  rcases step_moved s call with ⟨_,_,hmoved⟩ | ⟨_,hsettled⟩
  · exact hmoved.receipts ch seq h
  · exact hsettled.receipts ch seq h

theorem step_commitments {key : ChannelId × UInt64} {hash : H256}
    (h : (step P s call).1.commitment.commitments.lookup key = some hash) :
    (∃ packet, sent (step P s call).2 = some packet ∧ packet.commitment P = hash) ∨
      s.commitment.commitments.lookup key = some hash := by
  rcases step_moved s call with ⟨reply,hout,hmoved⟩ | ⟨_,hsettled⟩
  · rw [hout]
    exact hmoved.commitments key hash h
  · exact .inr (hsettled.commitments key hash h)

theorem step_headers {id : ClientId} {client' : ForeignClient} {height : UInt64} {header : ForeignHeader}
    (hclient : (step P s call).1.clients.lookup id = some client') (hheader : client'.headers.lookup height = some header) :
    (call.2 = .updateClient id header ∧ ∃ reply, (step P s call).2 = .ok reply) ∨
      ∃ client, s.clients.lookup id = some client ∧ client.headers.lookup height = some header := by
  rcases step_moved s call with ⟨reply,hout,hmoved⟩ | ⟨_,hsettled⟩
  · exact (hmoved.clients id client' height header hclient hheader).imp (fun h => ⟨h,reply,hout⟩) fun h => h
  · exact .inr ⟨client',hsettled.clients ▸ hclient,hheader⟩

theorem step_received {packet : XclPacket} (h : received call.2 (step P s call).2 = some packet) :
    s.commitment.hasReceipt packet.dstChannel packet.sequence = false ∧
      (step P s call).1.commitment.hasReceipt packet.dstChannel packet.sequence = true ∧
      ∃ proofHeight nodes, call.2 = .recvPacket packet proofHeight nodes ∧ Proven P s packet proofHeight nodes := by
  obtain ⟨env,call⟩ := call
  cases call with
  | recvPacket packet' proofHeight nodes =>
    have hends : Ends (recvPacket P env packet' proofHeight nodes) s _ _ := recvPacket_ends packet' proofHeight nodes
    rcases hrun : (recvPacket P env packet' proofHeight nodes).exec s with ⟨stop | result,s'⟩
    · simp only [step, serve, exec_bind, hrun, received] at h
      cases h
    · simp only [step, serve, exec_bind, hrun, exec_pure, received, Option.some.injEq] at h ⊢
      subst h
      obtain ⟨_,hfresh,hreceipt,hproven,_⟩ := hends.of_ok hrun
      exact ⟨hfresh,hreceipt,proofHeight,nodes,rfl,hproven⟩
  | _ => cases h

/-- The channel and the number of each packet that a run receives. -/
def receivedKeys (past : List (Machine.Entry XclState (XclEnv × XclCall) (Except XclStop XclReply))) :
    List (ChannelId × UInt64) :=
  past.filterMap fun e => (received e.call.2 e.output).map fun packet => (packet.dstChannel,packet.sequence)

/-- However often a packet is relayed, it is received once. -/
theorem received_once (P : Platform) (s : XclState) (calls : List (XclEnv × XclCall)) :
    (receivedKeys (Machine.history (step P) s calls)).Nodup := by
  have hstart : (receivedKeys []).Nodup ∧ ∀ key ∈ receivedKeys [], s.commitment.hasReceipt key.1 key.2 = true :=
    ⟨List.nodup_nil,nofun⟩
  have hrun := Machine.trace_invariant (step P) (G := fun _ _ => True)
    (J := fun past s => (receivedKeys past).Nodup ∧ ∀ key ∈ receivedKeys past, s.commitment.hasReceipt key.1 key.2 = true)
    hstart ?_ calls fun _ _ => trivial
  · exact hrun.1
  · rintro past s call ⟨hnodup,hkept⟩ -
    unfold receivedKeys at hnodup hkept ⊢
    rw [List.filterMap_append]
    cases hreceived : received call.2 (step P s call).2 with
    | none =>
      simp only [List.filterMap_cons, hreceived, Option.map_none, List.filterMap_nil, List.append_nil]
      exact ⟨hnodup,fun key hkey => step_receipts (hkept key hkey)⟩
    | some packet =>
      obtain ⟨hfresh,hreceipt,-⟩ := step_received hreceived
      simp only [List.filterMap_cons, hreceived, Option.map_some, List.filterMap_nil]
      refine ⟨List.nodup_append.mpr ⟨hnodup,List.nodup_singleton _,?_⟩,?_⟩
      · rintro key hkey _ hlast rfl
        rw [List.mem_singleton.mp hlast] at hkey
        have hearlier := hkept _ hkey
        rw [hfresh] at hearlier
        cases hearlier
      · intro key hkey
        rcases List.mem_append.mp hkey with hkey | hlast
        · exact step_receipts (hkept key hkey)
        · rw [List.mem_singleton.mp hlast]
          exact hreceipt

end Steps

section Networks
variable {ι : Type*} [DecidableEq ι] (P : Platform) (E : Set (List UInt8)) (peer : ι → ClientId → ι)

abbrev NetEntry (ι : Type*) := Machine.Entry (ι → XclState) (ι × XclEnv × XclCall) (Except XclStop XclReply)

/-- Party `j` has stood at the root before, or stands there now. -/
def SealedBy (past : List (NetEntry ι)) (now : ι → XclState) (j : ι) (root : H256) : Prop :=
  ∃ s ∈ now j :: past.map (fun e => e.before j), Seals P E root s.commitment

/-- A header that a client learns has a root of the chain that the client follows. -/
def Tracked (past : List (NetEntry ι)) (now : ι → XclState) (d : ι × XclEnv × XclCall) : Prop :=
  ∀ id header, d.2.2 = .updateClient id header → (∃ reply, (step P (now d.1) d.2).2 = .ok reply) →
    SealedBy P E past now (peer d.1 id) header.stateRoot

/-- What is committed in a store was sent by its chain. -/
def CommitsSent (past : List (NetEntry ι)) (j : ι) (store : CommitmentStore) : Prop :=
  ∀ key hash, store.commitments.lookup key = some hash →
    ∃ e ∈ past, e.call.1 = j ∧ ∃ packet, sent e.output = some packet ∧ packet.commitment P = hash

/-- Commitments are of packets that were sent, and headers have roots of the chain that is followed. -/
structure Honest (past : List (NetEntry ι)) (now : ι → XclState) : Prop where
  commits : ∀ j, ∀ s ∈ now j :: past.map (fun e => e.before j), CommitsSent P past j s.commitment
  headers : ∀ i id client height header, (now i).clients.lookup id = some client →
    client.headers.lookup height = some header → SealedBy P E past now (peer i id) header.stateRoot

variable {P E peer} {past : List (NetEntry ι)} {now : ι → XclState}

omit [DecidableEq ι] in
theorem CommitsSent.snoc {j : ι} {store : CommitmentStore} (h : CommitsSent P past j store) (e : NetEntry ι) :
    CommitsSent P (past ++ [e]) j store := fun key hash hl => by
  obtain ⟨e',he',hsent⟩ := h key hash hl
  exact ⟨e',List.mem_append_left _ he',hsent⟩

omit [DecidableEq ι] in
theorem SealedBy.snoc {j : ι} {root : H256} (h : SealedBy P E past now j root) {e : NetEntry ι} (he : e.before = now)
    (next : ι → XclState) : SealedBy P E (past ++ [e]) next j root := by
  obtain ⟨s,hs,hseals⟩ := h
  refine ⟨s,List.mem_cons_of_mem _ ?_,hseals⟩
  rw [List.map_append, List.mem_append]
  rcases List.mem_cons.mp hs with rfl | hs
  · exact .inr (List.mem_singleton.mpr (congrFun he.symm j))
  · exact .inl hs

theorem Honest.step (h : Honest P E peer past now) {d : ι × XclEnv × XclCall} (htracked : Tracked P E peer past now d) :
    Honest P E peer (past ++ [⟨now,d,(Machine.netStep (Xcl.step P) now d).2⟩]) (Machine.netStep (Xcl.step P) now d).1 := by
  obtain ⟨i,call⟩ := d
  constructor
  · intro j s hs
    rw [List.map_append, List.mem_cons, List.mem_append] at hs
    rcases hs with rfl | hs | hs
    · by_cases hj : j = i
      · subst hj
        intro key hash hl
        simp only [Machine.netStep, Function.update_self] at hl
        rcases step_commitments hl with ⟨packet,hsent,hhash⟩ | hold
        · exact ⟨_,List.mem_append_right _ (List.mem_singleton_self _),rfl,packet,hsent,hhash⟩
        · exact (h.commits j (now j) List.mem_cons_self).snoc _ key hash hold
      · simp only [Machine.netStep, Function.update_of_ne hj]
        exact (h.commits j (now j) List.mem_cons_self).snoc _
    · exact (h.commits j s (List.mem_cons_of_mem _ hs)).snoc _
    · rw [List.mem_singleton.mp hs]
      exact (h.commits j (now j) List.mem_cons_self).snoc _
  · intro j id client height header hclient hheader
    by_cases hj : j = i
    · subst hj
      simp only [Machine.netStep, Function.update_self] at hclient
      rcases step_headers hclient hheader with ⟨hcall,hok⟩ | ⟨client,hclient,hheader⟩
      · exact (htracked id header hcall hok).snoc rfl _
      · exact (h.headers j id client height header hclient hheader).snoc rfl _
    · simp only [Machine.netStep, Function.update_of_ne hj] at hclient
      exact (h.headers j id client height header hclient hheader).snoc rfl _

/-- A chain that has committed nothing and learnt no header. -/
def Fresh (s : XclState) : Prop :=
  s.commitment.commitments = ∅ ∧ ∀ id client, s.clients.lookup id = some client → client.headers = ∅

omit [DecidableEq ι] in
theorem honest_of_fresh (hfresh : ∀ i, Fresh (now i)) : Honest P E peer [] now where
  commits j s hs key hash hl := by
    rw [List.map_nil, List.mem_singleton] at hs
    rw [hs, (hfresh j).1] at hl
    cases hl
  headers i id client height header hclient hheader := by
    rw [(hfresh i).2 id client hclient] at hheader
    cases hheader

/-- What of an entry has to be told apart by the hash. -/
def hashedBy (e : NetEntry ι) : List (List UInt8) :=
  (match e.call.2.2 with | .recvPacket packet _ nodes => packet.canonicalBytes :: nodes | _ => []) ++
    ((sent e.output).map XclPacket.canonicalBytes).toList

variable (P E peer) in
/-- Whoever relays it, a packet that a chain receives was sent, as it is, by the chain that the channel's client follows. -/
theorem received_was_sent (hsafe : Safe P E) (nodes : ι → XclState) (calls : List (ι × XclEnv × XclCall))
    (hfresh : ∀ i, Fresh (nodes i))
    (hhashed : ∀ e ∈ Machine.history (Machine.netStep (step P)) nodes calls, ∀ b ∈ hashedBy e, b ∈ E)
    (htracked : ∀ past e rest, Machine.history (Machine.netStep (step P)) nodes calls = past ++ e :: rest →
      Tracked P E peer past e.before e.call) :
    ∀ past e rest, Machine.history (Machine.netStep (step P)) nodes calls = past ++ e :: rest →
      ∀ packet, received e.call.2.2 e.output = some packet →
        ∃ channel, (e.before e.call.1).channels.lookup packet.dstChannel = some channel ∧
          ∃ e' ∈ past, e'.call.1 = peer e.call.1 channel.clientId ∧ sent e'.output = some packet := by
  intro past e rest hsplit packet hreceived
  obtain ⟨xs,hpast,hbefore,hout⟩ := Machine.history_cut _ hsplit
  have hhonest : Honest P E peer past e.before := by
    rw [hpast, hbefore]
    refine Machine.past_invariant _ (honest_of_fresh hfresh) (fun past now d h hd => h.step hd) xs ?_
    intro past' e' rest' hsplit'
    exact htracked past' e' (rest' ++ e :: rest) (by rw [hsplit, hpast, hsplit', List.append_assoc]; rfl)
  rw [hout] at hreceived
  obtain ⟨-,-,proofHeight,proofNodes,hcall,channel,client,header,hchannel,hclient,hheader,hproof⟩ :=
    step_received hreceived
  have hmem : ∀ b ∈ hashedBy e, b ∈ E := hhashed e (by simp [hsplit])
  obtain ⟨s,hs,hseals⟩ := hhonest.headers _ _ _ _ _ hclient hheader
  obtain ⟨key,hlookup⟩ := hseals.committed hsafe
    (fun b hb => hmem b (by simp [hashedBy, hcall, hb])) hproof
  obtain ⟨e',he',hparty,packet',hsent,hhash⟩ := hhonest.commits _ s hs key _ hlookup
  have hmem' : packet'.canonicalBytes ∈ E := hhashed e' (by simp [hsplit, he']) _ (by simp [hashedBy, hsent])
  have heq : packet' = packet := canonicalBytes_inj
    (hsafe.inj hmem' (hmem _ (by simp [hashedBy, hcall])) hhash)
  exact ⟨channel,hchannel,e',he',hparty,heq ▸ hsent⟩

end Networks

section TwoChains
open TrieCall (involved)

/-- Chain 7 sends on its channel 1 to channel 2 of chain 8, whose client has one validator. -/
def demoChannel (id clientId counterparty : BitVec 256) (chain : UInt64) : Channel :=
  ⟨id,.open,false,clientId,counterparty,chain,1,1,1⟩

def demoSource : XclState := ⟨AList.insert 1 (demoChannel 1 5 2 8) ∅,∅,.new⟩

def demoTarget : XclState :=
  ⟨AList.insert 2 (demoChannel 2 5 1 7) ∅,
    AList.insert 5 { ForeignClient.new 7 with validators := [Platform.integers.toPubkey 1] } ∅,.new⟩

def demoNet : Bool → XclState
  | false => demoSource
  | true => demoTarget

def demoPacket : XclPacket := ⟨1,7,8,1,2,MsgPacketData.encode ⟨1,2,[3]⟩,0,0⟩

def demoSend : XclEnv × XclCall := (⟨7,1,0⟩,.sendMessage 1 ⟨1,2,[3]⟩ 0 0)

/-- The stores of chain 7 once the packet is sent. -/
def demoSealed : CommitmentStore := (step .integersEmptyRoot demoSource demoSend).1.commitment

/-- The extension, the branch and the leaf of the commitment. -/
def demoNodes : List (List UInt8) := ((stateTrie .integersEmptyRoot demoSealed).cache.map Prod.snd).eraseIdx 2 |>.take 3

def demoHeader : ForeignHeader where
  number := 1
  hash := 9
  parentHash := 0
  stateRoot := (stateTrie .integersEmptyRoot demoSealed).root
  quorumCert := Bytes.bytesBE 96
    (Platform.integers.sign 1 (Platform.integers.keccak256 (beBytes64 7 ++ H256.asBytes 9))).toNat
  signerBitmap := []

def demoCalls : List (Bool × XclEnv × XclCall) :=
  [(false,demoSend),(true,⟨8,1,0⟩,.updateClient 5 demoHeader),(true,⟨8,1,0⟩,.recvPacket demoPacket 1 demoNodes)]

def demoHistory : List (NetEntry Bool) :=
  Machine.history (Machine.netStep (step .integersEmptyRoot)) demoNet demoCalls

def demoHashed : List (List UInt8) :=
  involved .integersEmptyRoot (MutableTrie.new (⟨[]⟩ : MemoryTrieDB)) (storeCalls demoSealed) ++
    demoPacket.canonicalBytes :: demoNodes

theorem safe_demoHashed : Safe .integersEmptyRoot {b | b ∈ demoHashed} :=
  safe_of_list (by decide +kernel) (by decide +kernel) (by decide +kernel) (by decide +kernel)

theorem tracked_demo {past : List (NetEntry Bool)} {e : NetEntry Bool} (he : e ∈ demoHistory) :
    Tracked .integersEmptyRoot {b | b ∈ demoHashed} (fun i _ => !i) past e.before e.call := by
  simp only [demoHistory, demoCalls, Machine.history_cons, Machine.history_nil, List.mem_cons, List.not_mem_nil,
    or_false] at he
  rcases he with rfl | rfl | rfl
  · intro id header hcall
    cases hcall
  · intro id header hcall _
    cases hcall
    refine ⟨_,List.mem_cons_self,?_⟩
    simp only [Machine.netStep, demoNet, Bool.not_true, Function.update_self]
    have hseals := seals_stateTrie safe_demoHashed demoSealed fun b hb => List.mem_append_left _ hb
    have hroot : demoHeader.stateRoot = (stateTrie .integersEmptyRoot demoSealed).root := by rw [demoHeader]
    rw [← hroot] at hseals
    exact hseals
  · intro id header hcall
    cases hcall

theorem received_was_sent_message :
    (∃ e ∈ demoHistory, received e.call.2.2 e.output = some demoPacket) ∧
      ∀ past e rest, demoHistory = past ++ e :: rest → ∀ packet, received e.call.2.2 e.output = some packet →
        ∃ channel, (e.before e.call.1).channels.lookup packet.dstChannel = some channel ∧
          ∃ e' ∈ past, e'.call.1 = !e.call.1 ∧ sent e'.output = some packet := by
  refine ⟨by decide +kernel,received_was_sent .integersEmptyRoot {b | b ∈ demoHashed} (fun i _ => !i)
    safe_demoHashed demoNet demoCalls ?_ ?_ ?_⟩
  · intro i
    cases i with
    | false => exact ⟨rfl,nofun⟩
    | true =>
      refine ⟨rfl,fun id client h => ?_⟩
      rcases AList.lookup_insert_some h with ⟨_,rfl⟩ | ⟨_,h⟩
      · rfl
      · cases h
  · exact (by decide +kernel : ∀ e ∈ demoHistory, ∀ b ∈ hashedBy e, b ∈ demoHashed)
  · exact fun past e rest h => tracked_demo (by rw [show demoHistory = _ from h]; simp)

def fiveZbx : FtPacketData := ⟨"ZBX",5,1,2,""⟩

/-- The transfer is credited under the name of its channel, and the message delivered. -/
theorem data_arrives_transfer_and_message :
    ((dispatch { demoPacket with data := fiveZbx.encode }).exec demoTarget).1 =
        .ok [.creditIou 2 (namespacePrefix 7 2 ++ "ZBX") 5] ∧
      (dispatch demoPacket).exec demoTarget = (.ok [.deliverMessage 7 1 2 2 1 [3]],demoTarget) := by
  obtain ⟨htransfer,hmessage⟩ := @data_arrives .integersEmptyRoot ⟨7,1,0⟩ fiveZbx
    ⟨by decide,by decide,by decide⟩ ⟨1,2,[3]⟩ demoSource demoTarget 1 0 0
  have hcredit := (htransfer { demoPacket with data := fiveZbx.encode } _ _ rfl).2
  rw [if_pos (by decide)] at hcredit
  exact ⟨hcredit,hmessage demoPacket _ _ rfl⟩

end TwoChains

section Books
variable (P : Platform) (s : XclState) (calls : List (XclEnv × XclCall)) (ch : ChannelId)

/-- What an answer says of the amounts of a kind. -/
def flow (f : StateChange → ℕ) : Except XclStop XclReply → ℕ
  | .ok reply => reply.2.total f
  | .error _ => 0

/-- What an answer refunds from the channel. -/
def refundFlow (call : XclCall) : Except XclStop XclReply → ℕ
  | .ok reply => refundedOn ch call reply.2
  | .error _ => 0

/-- A channel gives out no more than has been paid into it: by releases from its escrow, or by refunds. -/
theorem channel_books :
    let run := Machine.history (step P) s calls
    let deposits := (run.map fun e => flow (StateChange.deposited ch) e.output).sum
    (Machine.final (step P) s calls).commitment.escrowBalance ch +
        (run.map fun e => flow (StateChange.released ch) e.output).sum ≤ s.commitment.escrowBalance ch + deposits ∧
      (Machine.final (step P) s calls).commitment.pendingOn ch +
        (run.map fun e => refundFlow ch e.call.2 e.output).sum ≤ s.commitment.pendingOn ch + deposits := by
  constructor
  · refine @Machine.bounded_history _ _ _ (step P) (fun s => s.commitment.escrowBalance ch) _ _ _ _ fun e he => ?_
    rw [Machine.output_eq _ he]
    rcases step_moved (P := P) e.before e.call with ⟨reply,hout,hmoved⟩ | ⟨⟨stop,hout⟩,hsettled⟩
    · rw [hout]
      exact hmoved.escrow ch
    · rw [hout]
      exact hsettled.escrow ch
  · refine @Machine.bounded_history _ _ _ (step P) (fun s => s.commitment.pendingOn ch) _ _ _ _ fun e he => ?_
    rw [Machine.output_eq _ he]
    rcases step_moved (P := P) e.before e.call with ⟨reply,hout,hmoved⟩ | ⟨⟨stop,hout⟩,hsettled⟩
    · rw [hout]
      exact hmoved.pending ch
    · rw [hout]
      exact hsettled.pending ch

end Books

end ZbxChain.Xcl
