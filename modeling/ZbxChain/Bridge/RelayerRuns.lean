import ZbxChain.Bridge.Relayer
import ZbxChain.Foundation.Machine

/-! # What a run of the bridge authorises

Every action that a run returns was signed by the threshold, and its message is on disk from
then on, so that no other action follows from the same message. The message covers the kind
and the target chain only through the id, which the relayer takes from the submitter.
-/
namespace ZbxChain.Bridge.BridgeRelayer
open Machine

variable {K : K256} {P : Platform} {r : BridgeRelayer} {id root : H256} {now : UInt64} {write : Except String Unit}

section Steps

theorem execute_cases (r : BridgeRelayer) (id root : H256) (now : UInt64) (write : Except String Unit) :
    (∃ e, r.execute K P id root now write = (r,.error e)) ∨
    ∃ req, r.pending.lookup id = some req ∧ r.auth.isSpent (req.msgHash P) = false ∧
      r.auth.verifyThreshold K P (req.msgHash P) req.confirmations = .ok () ∧
      ((∃ e, r.execute K P id root now write = (r.spend (req.msgHash P),.error e)) ∨
        r.execute K P id root now write =
          ({ r.spend (req.msgHash P) with
             pending := r.pending.erase id
             completed := r.completed.insert id { req with executed := true } },.ok (req.action id))) := by
  unfold execute
  cases hreq : r.pending.lookup id with
  | none => exact Or.inl ⟨_,rfl⟩
  | some req =>
    dsimp only
    split
    · exact Or.inl ⟨_,rfl⟩
    · split
      · exact Or.inl ⟨_,rfl⟩
      · split
        · exact Or.inl ⟨_,rfl⟩
        · rename_i hfresh
          split
          · exact Or.inl ⟨_,rfl⟩
          · rename_i hthreshold
            split
            · exact Or.inl ⟨_,rfl⟩
            · refine Or.inr ⟨req,rfl,by simpa using hfresh,hthreshold,?_⟩
              split
              · exact Or.inl ⟨_,rfl⟩
              · exact Or.inr rfl

theorem execute_ok {action : BridgeAction} (hok : (r.execute K P id root now write).2 = .ok action) :
    ∃ req, r.pending.lookup id = some req ∧ r.auth.isSpent (req.msgHash P) = false ∧
      r.auth.verifyThreshold K P (req.msgHash P) req.confirmations = .ok () ∧ action = req.action id ∧
      (r.execute K P id root now write).1.auth = r.auth.markSpent (req.msgHash P) ∧
      (r.execute K P id root now write).1.spentOpsStore =
        r.spentOpsStore.map (fun store => store.insert (req.msgHash P)) := by
  rcases execute_cases (K := K) (P := P) r id root now write with
    ⟨e,hrun⟩ | ⟨req,hreq,hfresh,hthreshold,⟨e,hrun⟩ | hrun⟩
  · rw [hrun] at hok
    cases hok
  · rw [hrun] at hok
    cases hok
  · rw [hrun] at hok ⊢
    cases hok
    exact ⟨req,hreq,hfresh,hthreshold,rfl,rfl,rfl⟩

/-- The memory and the disk after a call: as before, or both with one hash more. -/
def Spends (r r' : BridgeRelayer) : Prop :=
  r'.auth = r.auth ∧ r'.spentOpsStore = r.spentOpsStore ∨
    ∃ hash, r'.auth = r.auth.markSpent hash ∧ r'.spentOpsStore = r.spentOpsStore.map (fun store => store.insert hash)

theorem execute_spends (r : BridgeRelayer) : Spends r (r.execute K P id root now write).1 := by
  rcases execute_cases (K := K) (P := P) r id root now write with
    ⟨e,hrun⟩ | ⟨req,-,-,-,⟨e,hrun⟩ | hrun⟩
  · rw [hrun]
    exact Or.inl ⟨rfl,rfl⟩
  · rw [hrun]
    exact Or.inr ⟨req.msgHash P,rfl,rfl⟩
  · rw [hrun]
    exact Or.inr ⟨req.msgHash P,rfl,rfl⟩

theorem submit_cases (r : BridgeRelayer) (req : BridgeRequest) (now : UInt64) :
    (r.submit req now).1 = r ∨ ∃ tracker,
      (r.submit req now).1 = { r with dailyTracker := tracker, pending := r.pending.insert req.id req } := by
  unfold submit
  split
  · exact Or.inl rfl
  · split
    · exact Or.inl rfl
    · split
      · exact Or.inl rfl
      · split
        · exact Or.inl rfl
        · split
          · exact Or.inl rfl
          · split
            · exact Or.inl rfl
            · exact Or.inr ⟨_,rfl⟩

theorem confirm_cases (r : BridgeRelayer) (id : H256) (signer : Address) (sig : Signature) (now : UInt64) :
    (r.confirm K P id signer sig now).1 = r ∨ ∃ req, r.pending.lookup id = some req ∧
      (r.confirm K P id signer sig now).1 =
        { r with pending := r.pending.insert id (req.addConfirmation signer sig) } := by
  unfold confirm
  split
  · exact Or.inl rfl
  · rename_i req hreq
    split
    · exact Or.inl rfl
    · split
      · exact Or.inl rfl
      · split
        · exact Or.inl rfl
        · exact Or.inr ⟨req,hreq,rfl⟩

theorem submit_spends (r : BridgeRelayer) (req : BridgeRequest) (now : UInt64) : Spends r (r.submit req now).1 := by
  rcases submit_cases r req now with hkept | ⟨tracker,hnew⟩
  · rw [hkept]
    exact Or.inl ⟨rfl,rfl⟩
  · rw [hnew]
    exact Or.inl ⟨rfl,rfl⟩

theorem confirm_spends (r : BridgeRelayer) (id : H256) (signer : Address) (sig : Signature) (now : UInt64) :
    Spends r (r.confirm K P id signer sig now).1 := by
  rcases confirm_cases (K := K) (P := P) r id signer sig now with hkept | ⟨req,-,hnew⟩
  · rw [hkept]
    exact Or.inl ⟨rfl,rfl⟩
  · rw [hnew]
    exact Or.inl ⟨rfl,rfl⟩

theorem execute_pending {r : BridgeRelayer} {id' : H256} {req : BridgeRequest}
    (hreq : (r.execute K P id root now write).1.pending.lookup id' = some req) : r.pending.lookup id' = some req := by
  rcases execute_cases (K := K) (P := P) r id root now write with
    ⟨e,hrun⟩ | ⟨done,-,-,-,⟨e,hrun⟩ | hrun⟩
  · rwa [hrun] at hreq
  · rw [hrun] at hreq
    exact hreq
  · rw [hrun] at hreq
    by_cases hsame : id' = id
    · subst hsame
      simp at hreq
    · simpa [AList.lookup_erase_ne hsame] using hreq

end Steps

section Requests

/-- A fact about what a request is made of holds of all pending requests, if it holds of all
that are submitted. -/
theorem pending_step {Q : BridgeRequest → Prop}
    (hstable : ∀ req signer sig, Q req → Q (req.addConfirmation signer sig)) {call : Call}
    (hsubmit : ∀ req now, call = .submit req now → Q req)
    (hr : ∀ id req, r.pending.lookup id = some req → Q req) :
    ∀ id req, (r.step K P call).1.pending.lookup id = some req → Q req := by
  intro id' req' hreq'
  cases call with
  | submit req now =>
    have hsame : (r.step K P (.submit req now)).1 = (r.submit req now).1 := rfl
    rw [hsame] at hreq'
    rcases submit_cases r req now with hkept | ⟨tracker,hnew⟩
    · exact hr id' req' (hkept ▸ hreq')
    · rw [hnew] at hreq'
      rcases AList.lookup_insert_some hreq' with ⟨-,rfl⟩ | ⟨-,hold⟩
      · exact hsubmit _ now rfl
      · exact hr id' req' hold
  | confirm id signer sig now =>
    have hsame : (r.step K P (.confirm id signer sig now)).1 = (r.confirm K P id signer sig now).1 := rfl
    rw [hsame] at hreq'
    rcases confirm_cases (K := K) (P := P) r id signer sig now with hkept | ⟨req,hreq,hnew⟩
    · exact hr id' req' (hkept ▸ hreq')
    · rw [hnew] at hreq'
      rcases AList.lookup_insert_some hreq' with ⟨-,rfl⟩ | ⟨-,hold⟩
      · exact hstable req signer sig (hr id req hreq)
      · exact hr id' req' hold
  | execute id root now write => exact hr id' req' (execute_pending hreq')
  | expireStale now => exact hr id' req' (AList.lookup_retain.mp hreq').1
  | restart =>
    have hempty : (r.step K P .restart).1.pending = ∅ := by
      have hsame : (r.step K P .restart).1 = r.restart := rfl
      rw [hsame, restart]
      split
      · rfl
      · rfl
    rw [hempty] at hreq'
    cases hreq'

end Requests

section Messages

def authorisation (P : Platform) (e : Entry BridgeRelayer Call Output) : Option (H256 × BridgeAction) :=
  match e.call, e.output with
  | .execute id _ _ _, .executed (.ok action) => (e.before.pending.lookup id).map (fun req => (req.msgHash P,action))
  | _, _ => none

theorem authorisation_eq {e : Entry BridgeRelayer Call Output} (hout : e.output = (e.before.step K P e.call).2)
    {msg : H256} {action : BridgeAction} (hauth : authorisation P e = some (msg,action)) :
    ∃ id root now write req, e.call = .execute id root now write ∧
      (e.before.execute K P id root now write).2 = .ok action ∧ e.before.pending.lookup id = some req ∧
      msg = req.msgHash P := by
  obtain ⟨before,call,output⟩ := e
  dsimp only at hout ⊢
  subst hout
  cases call with
  | execute id root now write =>
    cases hresult : (before.execute K P id root now write).2 with
    | error e => simp [authorisation, step, hresult] at hauth
    | ok action' =>
      simp only [authorisation, step, hresult, Option.map_eq_some_iff, Prod.mk.injEq] at hauth
      obtain ⟨req,hreq,rfl,rfl⟩ := hauth
      exact ⟨id,root,now,write,req,rfl,hresult,hreq,rfl⟩
  | submit req now => cases hauth
  | confirm id signer sig now => cases hauth
  | expireStale now => cases hauth
  | restart => cases hauth

/-- The messages of a list of entries are distinct and on disk, and what is on disk is in memory. -/
structure Spent (P : Platform) (keys : List MultisigKey) (events : List (Entry BridgeRelayer Call Output))
    (r : BridgeRelayer) : Prop where
  keys : r.auth.keys = keys
  threshold : r.auth.threshold = multisigThreshold
  store : ∃ hashes, r.spentOpsStore = some hashes ∧ (∀ h ∈ hashes, h ∈ r.auth.spentOperations) ∧
    ∀ h ∈ (events.filterMap (authorisation P)).map Prod.fst, h ∈ hashes
  once : ((events.filterMap (authorisation P)).map Prod.fst).Nodup

variable {keys : List MultisigKey} {events : List (Entry BridgeRelayer Call Output)}

theorem Spent.of_spends (hspent : Spent P keys events r) {r' : BridgeRelayer} (hspends : Spends r r') :
    Spent P keys events r' := by
  obtain ⟨hashes,hstore,hmemory,hpast⟩ := hspent.store
  rcases hspends with ⟨hauth,hdisk⟩ | ⟨hash,hauth,hdisk⟩
  · refine ⟨hauth ▸ hspent.keys,hauth ▸ hspent.threshold,⟨hashes,hdisk.trans hstore,?_,hpast⟩,hspent.once⟩
    rw [hauth]
    exact hmemory
  · refine ⟨hauth ▸ hspent.keys,hauth ▸ hspent.threshold,⟨hashes.insert hash,?_,?_,?_⟩,hspent.once⟩
    · rw [hdisk, hstore]
      rfl
    · intro h hh
      rw [hauth, MultisigAuth.markSpent, List.mem_insert_iff]
      exact (List.mem_insert_iff.mp hh).imp_right (hmemory h)
    · exact fun h hh => List.mem_insert_of_mem (hpast h hh)

theorem Spent.step (hspent : Spent P keys events r) (call : Call) : Spent P keys events (r.step K P call).1 := by
  cases call with
  | submit req now => exact hspent.of_spends (submit_spends r req now)
  | confirm id signer sig now => exact hspent.of_spends (confirm_spends r id signer sig now)
  | execute id root now write => exact hspent.of_spends (execute_spends r)
  | expireStale now => exact hspent.of_spends (Or.inl ⟨rfl,rfl⟩)
  | restart =>
    obtain ⟨hashes,hstore,-,hpast⟩ := hspent.store
    have hnext : (r.step K P .restart).1 = (new r.auth.keys r.ownChainId).attachStorage hashes := by
      have hsame : (r.step K P .restart).1 = r.restart := rfl
      rw [hsame, restart, hstore]
    rw [hnext]
    refine ⟨hspent.keys,rfl,⟨hashes,rfl,fun h hh => ?_,hpast⟩,hspent.once⟩
    exact MultisigAuth.mem_loadSpentOperations.mpr (Or.inl hh)

/-- A returned action spends a message that was not on disk. -/
theorem Spent.record (hspent : Spent P keys events r) (call : Call) :
    Spent P keys (events ++ [⟨r,call,(r.step K P call).2⟩]) (r.step K P call).1 := by
  have hnext := hspent.step (K := K) call
  cases hauth : authorisation P ⟨r,call,(r.step K P call).2⟩ with
  | none =>
    refine ⟨hnext.keys,hnext.threshold,?_,?_⟩
    · rw [List.filterMap_append, List.filterMap_cons_none hauth, List.filterMap_nil, List.append_nil]
      exact hnext.store
    · rw [List.filterMap_append, List.filterMap_cons_none hauth, List.filterMap_nil, List.append_nil]
      exact hnext.once
  | some entry =>
    obtain ⟨msg,action⟩ := entry
    obtain ⟨id,root,now,write,req,hcall,hok,hreq,rfl⟩ := authorisation_eq rfl hauth
    dsimp only at hcall hok hreq
    subst hcall
    obtain ⟨req',hreq',hfresh,-,-,-,hdisk⟩ := execute_ok hok
    rw [hreq] at hreq'
    cases hreq'
    obtain ⟨hashes,hstore,hmemory,hpast⟩ := hspent.store
    obtain ⟨hashes',hstore',hmemory',-⟩ := hnext.store
    have hinsert : hashes' = hashes.insert (req.msgHash P) := by
      have hsame : (r.step K P (.execute id root now write)).1 = (r.execute K P id root now write).1 := rfl
      rw [hsame, hdisk, hstore] at hstore'
      exact (Option.some.inj hstore').symm
    have hmessages : (List.filterMap (authorisation P)
        (events ++ [⟨r,.execute id root now write,(r.step K P (.execute id root now write)).2⟩])).map Prod.fst =
          (events.filterMap (authorisation P)).map Prod.fst ++ [req.msgHash P] := by
      rw [List.filterMap_append, List.filterMap_cons_some hauth, List.filterMap_nil, List.map_append]
      rfl
    refine ⟨hnext.keys,hnext.threshold,⟨hashes',hstore',hmemory',?_⟩,?_⟩
    · rw [hmessages, hinsert]
      intro h hh
      rw [List.mem_insert_iff]
      rcases List.mem_append.mp hh with hold | hnew
      · exact Or.inr (hpast h hold)
      · exact Or.inl (List.mem_singleton.mp hnew)
    · rw [hmessages]
      refine List.Nodup.append hspent.once (List.nodup_singleton _) ?_
      rintro h hold hnew
      rw [List.mem_singleton.mp hnew] at hold
      have hspentBefore := hmemory _ (hpast _ hold)
      simp [MultisigAuth.isSpent, hspentBefore] at hfresh

end Messages

section Runs

def start (keys : List MultisigKey) (ownChainId : UInt64) (store : List H256) : BridgeRelayer :=
  (new keys ownChainId).attachStorage store

def authorisations (K : K256) (P : Platform) (r : BridgeRelayer) (calls : List Call) : List (H256 × BridgeAction) :=
  (history (step K P) r calls).filterMap (authorisation P)

/-- Every action of the run was signed by the threshold, and no two by one message. -/
structure SignedOnce (K : K256) (P : Platform) (Signed : Address → H256 → Prop) (keys : List MultisigKey)
    (r : BridgeRelayer) (calls : List Call) : Prop where
  signed : ∀ entry ∈ authorisations K P r calls, ∃ signers : List Address, signers.Nodup ∧
    multisigThreshold ≤ signers.length ∧ ∀ addr ∈ signers, addr ∈ keys.map MultisigKey.address ∧ Signed addr entry.1
  once : ((authorisations K P r calls).map Prod.fst).Nodup

theorem spent_start (P : Platform) (keys : List MultisigKey) (ownChainId : UInt64) (store : List H256) :
    Spent P keys [] (start keys ownChainId store) :=
  ⟨rfl,rfl,⟨store,rfl,fun _ hh => MultisigAuth.mem_loadSpentOperations.mpr (Or.inl hh),nofun⟩,List.nodup_nil⟩

theorem spent_run (K : K256) (P : Platform) (keys : List MultisigKey) (ownChainId : UInt64) (store : List H256)
    (calls : List Call) : Spent P keys (history (step K P) (start keys ownChainId store) calls)
      (final (step K P) (start keys ownChainId store) calls) :=
  trace_invariant (step K P) (G := fun _ _ => True) (spent_start P keys ownChainId store)
    (fun _ _ call hspent _ => hspent.record call) calls (fun _ _ => trivial)

theorem signedOnce_run {Signed : Address → H256 → Prop}
    (hrecovery : ∀ msg sig addr, recoverSigner K P msg sig = .ok addr → Signed addr msg)
    (keys : List MultisigKey) (ownChainId : UInt64) (store : List H256) (calls : List Call) :
    SignedOnce K P Signed keys (start keys ownChainId store) calls := by
  refine ⟨?_,(spent_run K P keys ownChainId store calls).once⟩
  rintro ⟨msg,action⟩ hentry
  obtain ⟨e,he,hauth⟩ := List.mem_filterMap.mp hentry
  obtain ⟨id,root,now,write,req,-,hok,hreq,rfl⟩ := authorisation_eq (output_eq (step K P) he) hauth
  obtain ⟨req',hreq',-,hthreshold,-⟩ := execute_ok hok
  rw [hreq] at hreq'
  cases hreq'
  obtain ⟨xs,ys,-,hbefore⟩ := history_split (step K P) he
  have hspent := spent_run K P keys ownChainId store xs
  rw [← hbefore] at hspent
  obtain ⟨signers,hcount,hsigners⟩ := MultisigAuth.verifyThreshold_signers hthreshold
  refine ⟨signers,hsigners.distinct,hspent.threshold ▸ hcount,fun addr haddr => ⟨?_,?_⟩⟩
  · have hkey := hsigners.authorised addr haddr
    rw [MultisigAuth.isKey, hspent.keys, List.any_eq_true] at hkey
    obtain ⟨key,hmem,hsame⟩ := hkey
    exact List.mem_map.mpr ⟨key,hmem,eq_of_beq hsame⟩
  · obtain ⟨sig,hsig⟩ := hsigners.signed addr haddr
    exact hrecovery _ _ _ hsig

end Runs

section Determination

/-- Kind and target chain (there is one for the deposits), token, recipient and amount. -/
def content : BridgeAction → Option ChainId × TokenId × Address × BitVec 128
  | .mintOnTarget targetChain token _ recipient amount _ => (some targetChain,token,recipient,amount)
  | .unlockOnZbx token _ recipient amount _ => (none,token,recipient,amount)

/-- The message of an action determines it, in whatever run the message is used. -/
def Determined (K : K256) (P : Platform) (r r' : BridgeRelayer) (calls calls' : List Call) : Prop :=
  ∀ entry ∈ authorisations K P r calls, ∀ entry' ∈ authorisations K P r' calls',
    entry.1 = entry'.1 → content entry.2 = content entry'.2

def hashed (calls : List Call) : Set (List UInt8) :=
  {x | ∃ req now, .submit req now ∈ calls ∧ (x = req.idInput ∨ x = req.msgInput)}

theorem hashed_mono {calls calls' : List Call} (h : calls ⊆ calls') : hashed calls ⊆ hashed calls' := by
  rintro x ⟨req,now,hmem,hx⟩
  exact ⟨req,now,h hmem,hx⟩

/-- A request with the content of one that was submitted. -/
def Known (P : Platform) (calls : List Call) (req : BridgeRequest) : Prop :=
  req.WellFormed P ∧ req.idInput ∈ hashed calls ∧ req.msgInput ∈ hashed calls

theorem known_addConfirmation {calls : List Call} {req : BridgeRequest} (hknown : Known P calls req)
    (signer : Address) (sig : Signature) : Known P calls (req.addConfirmation signer sig) := by
  unfold BridgeRequest.addConfirmation
  split
  · exact hknown
  · exact hknown

theorem authorisations_known {keys : List MultisigKey} {ownChainId : UInt64} {store : List H256} {calls : List Call}
    (hcontent : ∀ req now, .submit req now ∈ calls → req.WellFormed P) {entry : H256 × BridgeAction}
    (hentry : entry ∈ authorisations K P (start keys ownChainId store) calls) :
    ∃ id req, Known P calls req ∧ entry = (req.msgHash P,req.action id) := by
  obtain ⟨e,he,hauth⟩ := List.mem_filterMap.mp hentry
  obtain ⟨msg,action⟩ := entry
  obtain ⟨id,root,now,write,req,-,hok,hreq,rfl⟩ := authorisation_eq (output_eq (step K P) he) hauth
  obtain ⟨req',hreq',-,-,rfl,-⟩ := execute_ok hok
  rw [hreq] at hreq'
  cases hreq'
  have hstart : ∀ id req, (start keys ownChainId store).pending.lookup id = some req → Known P calls req := nofun
  have hpending := (state_invariant (step K P)
    (G := fun _ call => ∀ req now, call = .submit req now → Known P calls req)
    (I := fun r => ∀ id req, r.pending.lookup id = some req → Known P calls req) hstart
    (fun r call hr hsubmit => pending_step (Q := Known P calls) (fun _ signer sig hknown => known_addConfirmation hknown signer sig) hsubmit hr)
    calls ?_).1 e he
  · exact ⟨id,req,hpending id req hreq,rfl⟩
  · intro e he req now hcall
    have hmem := hcall ▸ call_mem (step K P) he
    exact ⟨hcontent req now hmem,⟨req,now,hmem,Or.inl rfl⟩,⟨req,now,hmem,Or.inr rfl⟩⟩

/-- Requests with content hashes for ids have the same message only for the same action. -/
theorem content_eq {req req' : BridgeRequest} (hwell : req.WellFormed P) (hwell' : req'.WellFormed P)
    {E : Set (List UInt8)} (hkeccak : Set.InjOn P.keccak256 E) (hid : req.idInput ∈ E) (hid' : req'.idInput ∈ E)
    (hmsg : req.msgInput ∈ E) (hmsg' : req'.msgInput ∈ E) (hsame : req.msgHash P = req'.msgHash P) (id id' : H256) :
    content (req.action id) = content (req'.action id') := by
  have hmsgInput := hkeccak hmsg hmsg' hsame
  obtain ⟨hids,-⟩ := Bytes.bytesBE_append_inj hmsgInput
  have hidEq : req.id = req'.id := Bytes.bytesBE_bitVec_inj (k := 32) hids
  have hidInput := hkeccak hid hid' (hwell.symm.trans (hidEq.trans hwell'))
  obtain ⟨htoken,hrest⟩ := Bytes.bytesBE_append_inj hidInput
  obtain ⟨-,hrest⟩ := Bytes.bytesBE_append_inj hrest
  obtain ⟨hrecipient,hrest⟩ := Bytes.bytesBE_append_inj hrest
  obtain ⟨hamount,hrest⟩ := Bytes.bytesBE_append_inj hrest
  obtain ⟨-,hrest⟩ := Bytes.bytesBE_append_inj hrest
  obtain ⟨-,hrest⟩ := Bytes.bytesBE_append_inj hrest
  obtain ⟨hchain,hrest⟩ := Bytes.bytesBE_append_inj hrest
  obtain ⟨-,hkind⟩ := Bytes.bytesBE_append_inj hrest
  have htoken' : req.token = req'.token := Bytes.bytesBE_bitVec_inj (k := 20) htoken
  have hrecipient' : req.recipient = req'.recipient := Bytes.bytesBE_bitVec_inj (k := 20) hrecipient
  have hamount' : req.amount = req'.amount := Bytes.bytesBE_bitVec_inj (k := 16) hamount
  have hchain' : req.targetChain = req'.targetChain := by
    have hnumber := Bytes.bytesBE_uint64_inj hchain
    revert hnumber
    cases req.targetChain <;> cases req'.targetChain <;> decide
  have hkind' : req.requestType = req'.requestType := by
    have hnumber := List.singleton_inj.mp hkind
    revert hnumber
    cases req.requestType <;> cases req'.requestType <;> decide
  unfold BridgeRequest.action
  rw [hkind', htoken', hrecipient', hamount', hchain']
  cases req'.requestType with
  | deposit => rfl
  | withdrawal => rfl

/-- In runs in which every submitted request has its content hash for an id, the bridge executes
what was signed, once. -/
theorem executes_signed (K : K256) (P : Platform) (Signed : Address → H256 → Prop)
    (hrecovery : ∀ msg sig addr, recoverSigner K P msg sig = .ok addr → Signed addr msg)
    (keys keys' : List MultisigKey) (ownChainId ownChainId' : UInt64) (store store' : List H256)
    (calls calls' : List Call) (hkeccak : Set.InjOn P.keccak256 (hashed (calls ++ calls')))
    (hcontent : ∀ req now, .submit req now ∈ calls ++ calls' → req.WellFormed P) :
    SignedOnce K P Signed keys (start keys ownChainId store) calls ∧
      Determined K P (start keys ownChainId store) (start keys' ownChainId' store') calls calls' := by
  refine ⟨signedOnce_run hrecovery keys ownChainId store calls,?_⟩
  intro entry hentry entry' hentry' hsame
  obtain ⟨id,req,⟨hwell,hid,hmsg⟩,rfl⟩ :=
    authorisations_known (fun req now hmem => hcontent req now (List.mem_append_left _ hmem)) hentry
  obtain ⟨id',req',⟨hwell',hid',hmsg'⟩,rfl⟩ :=
    authorisations_known (fun req now hmem => hcontent req now (List.mem_append_right _ hmem)) hentry'
  have hleft := hashed_mono (List.subset_append_left calls calls')
  have hright := hashed_mono (List.subset_append_right calls calls')
  exact content_eq hwell hwell' hkeccak (hleft hid) (hright hid') (hleft hmsg) (hright hmsg') hsame id id'

/-- A crate that finds the key whose number is in the signature. -/
def demoK256 : K256 where
  KSig := List UInt8
  signatureFromSlice := .ok
  normalizeS := fun _ => none
  recoverFromPrehash := fun _ ksig _ => .ok (4 :: ksig)

def demoSigner (n : H256) : Address := pubkeyToAddress .integers (4 :: (n.asBytes ++ n.asBytes))

def demoKeys : List MultisigKey := [⟨demoSigner 1,"R1"⟩,⟨demoSigner 2,"R2"⟩,⟨demoSigner 3,"R3"⟩]

def demoRequest (id : H256) : BridgeRequest where
  id := id
  requestType := .deposit
  token := nativeZbxSentinel
  tokenSymbol := "ZBX"
  sender := 1
  recipient := 2
  amount := BitVec.ofNat 128 (10 ^ 18)
  fee := 0
  targetChain := .ethereum
  sourceChainId := 8989
  blockNumber := 0
  proof := some ⟨5,0,0,[],0⟩
  confirmations := []
  executed := false
  timestamp := 0

def demoCalls (req : BridgeRequest) : List Call :=
  .submit req 0 :: [1,2,3].map (fun n => .confirm req.id (demoSigner n) ⟨0,n,n⟩ 0) ++ [.execute req.id 5 0 (.ok ())]

def demoDeposit : BridgeRequest :=
  { demoRequest 0 with id := Platform.integers.keccak256 (demoRequest 0).idInput }

theorem executes_deposit_once :
    SignedOnce demoK256 .integers (fun addr msg => ∃ sig, recoverSigner demoK256 .integers msg sig = .ok addr)
      demoKeys (start demoKeys 8989 []) (demoCalls demoDeposit) ∧
    Determined demoK256 .integers (start demoKeys 8989 []) (start demoKeys 8989 []) (demoCalls demoDeposit)
      (demoCalls demoDeposit) := by
  have hsubmit : ∀ req now, Call.submit req now ∈ demoCalls demoDeposit ++ demoCalls demoDeposit →
      req = demoDeposit := by
    intro req now hmem
    obtain ⟨hreq,-⟩ : req = demoDeposit ∧ now = 0 := by simpa [demoCalls] using hmem
    exact hreq
  refine executes_signed demoK256 .integers _ (fun msg sig addr hsig => ⟨sig,hsig⟩) demoKeys demoKeys 8989 8989 [] []
    (demoCalls demoDeposit) (demoCalls demoDeposit) ?_ (fun req now hmem => ?_)
  · have hapart : Platform.integers.keccak256 demoDeposit.idInput ≠
        Platform.integers.keccak256 demoDeposit.msgInput := by decide +kernel
    rintro x ⟨req,now,hmem,hx⟩ y ⟨req',now',hmem',hy⟩ hsame
    rw [hsubmit req now hmem] at hx
    rw [hsubmit req' now' hmem'] at hy
    rcases hx with rfl | rfl
    · rcases hy with rfl | rfl
      · rfl
      · exact absurd hsame hapart
    · rcases hy with rfl | rfl
      · exact absurd hsame.symm hapart
      · rfl
  · rw [hsubmit req now hmem]
    decide +kernel

/-- The three signatures for a deposit to Ethereum also release a withdrawal, if both requests
come with one id. -/
theorem signatures_release_other : ¬ Determined demoK256 .integers (start demoKeys 8989 []) (start demoKeys 8989 [])
    (demoCalls (demoRequest 7)) (demoCalls { demoRequest 7 with requestType := .withdrawal }) := by
  intro hdetermined
  have hsame := hdetermined ((demoRequest 7).msgHash .integers,(demoRequest 7).action 7) (by decide +kernel)
    ((demoRequest 7).msgHash .integers,{ demoRequest 7 with requestType := .withdrawal }.action 7)
    (by decide +kernel) rfl
  exact absurd hsame (by decide)

end Determination

end ZbxChain.Bridge.BridgeRelayer
