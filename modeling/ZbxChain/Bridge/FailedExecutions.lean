import ZbxChain.Bridge.RelayerRuns

/-! # What an execution leaves behind when it fails

A request that is confirmed but whose proof is missing or wrong has its message spent before
the proof is looked at, on disk and in memory. Every other failure leaves the relayer as it
was, and the request can be executed once what was missing is there.
-/
namespace ZbxChain.Bridge

def BridgeRequest.setProof (req : BridgeRequest) (proof : BridgeProof) : BridgeRequest :=
  { req with proof := some proof }

namespace BridgeRelayer

/-- `set_proof` on a request that is pending. -/
def attachProof (r : BridgeRelayer) (id : H256) (proof : BridgeProof) : BridgeRelayer :=
  match r.pending.lookup id with
  | none => r
  | some req => { r with pending := r.pending.insert id (req.setProof proof) }

variable (K : K256) (P : Platform) (r : BridgeRelayer) (id root : H256) (now : UInt64) (write : Except String Unit)

/-- The request has all that an execution asks for, apart from the proof. -/
structure Confirmed (req : BridgeRequest) (now : UInt64) : Prop where
  current : req.isExpired now = false
  ownChain : req.sourceChainId = r.ownChainId
  fresh : r.auth.isSpent (req.msgHash P) = false
  signed : r.auth.verifyThreshold K P (req.msgHash P) req.confirmations = .ok ()

/-- The store takes the write, or there is none. -/
def Stored : Prop := r.spentOpsStore = none ∨ write = .ok ()

def Premature : Prop :=
  ∃ req, r.pending.lookup id = some req ∧ Confirmed K P r req now ∧ Stored r write ∧
    ∃ e, checkProof P req root = .error e

/-- An execution that fails keeps the requests and the spent messages, and a confirmed request
without a proof is executed after it, with a proof. -/
structure Retryable : Prop where
  kept : ∀ e, (r.execute K P id root now write).2 = .error e →
    (r.execute K P id root now write).1.pending = r.pending ∧
    (r.execute K P id root now write).1.completed = r.completed ∧
    (r.execute K P id root now write).1.auth.spentOperations = r.auth.spentOperations ∧
    (r.execute K P id root now write).1.spentOpsStore = r.spentOpsStore
  retried : ∀ e, (r.execute K P id root now write).2 = .error e →
    ∀ req later root' proof, r.pending.lookup id = some req → req.proof = none → Confirmed K P r req later →
      proof.verify P root' = .ok () →
      (((r.execute K P id root now write).1.attachProof id proof).execute K P id root' later (.ok ())).2 =
        .ok (req.action id)

section Executions
variable {K : K256} {P : Platform} {r : BridgeRelayer} {id root : H256} {now : UInt64} {write : Except String Unit}

theorem not_stored {store : List H256} {e : String} (hstore : r.spentOpsStore = some store) :
    ¬ Stored r (.error e) := by
  rintro (hnone | hok)
  · rw [hstore] at hnone
    cases hnone
  · cases hok

theorem stored_of_passed (hpassed : ∀ store e, r.spentOpsStore = some store → write = .error e → False) :
    Stored r write := by
  cases hstore : r.spentOpsStore with
  | none => exact Or.inl hstore
  | some store =>
    cases write with
    | error e => exact (hpassed store e hstore rfl).elim
    | ok _ => exact Or.inr rfl

theorem execute_confirmed {req : BridgeRequest} (hreq : r.pending.lookup id = some req)
    (hconfirmed : Confirmed K P r req now) (hstored : Stored r write) :
    r.execute K P id root now write =
      match checkProof P req root with
      | .error e => (r.spend (req.msgHash P),.error e)
      | .ok _ => ({ r.spend (req.msgHash P) with
          pending := r.pending.erase id
          completed := r.completed.insert id { req with executed := true } },.ok (req.action id)) := by
  have hcurrent : ¬ req.isExpired now = true := by simp [hconfirmed.current]
  have hfresh : ¬ r.auth.isSpent (req.msgHash P) = true := by simp [hconfirmed.fresh]
  rw [execute, hreq]
  dsimp only
  rw [if_neg hcurrent, if_neg (not_not_intro hconfirmed.ownChain), if_neg hfresh, hconfirmed.signed]
  dsimp only
  split
  · rename_i hstore
    exact absurd hstored (not_stored hstore)
  · rfl

theorem execute_refused
    (hrefused : ∀ req, r.pending.lookup id = some req → Confirmed K P r req now → ¬ Stored r write) :
    (r.execute K P id root now write).1 = r := by
  unfold execute
  cases hreq : r.pending.lookup id with
  | none => rfl
  | some req =>
    dsimp only
    split
    · rfl
    · rename_i hcurrent
      split
      · rfl
      · rename_i hown
        split
        · rfl
        · rename_i hfresh
          split
          · rfl
          · rename_i hsigned
            have hconfirmed : Confirmed K P r req now :=
              ⟨by simpa using hcurrent,not_not.mp hown,by simpa using hfresh,hsigned⟩
            split
            · rfl
            · rename_i hwrite
              exact absurd (stored_of_passed hwrite) (hrefused req hreq hconfirmed)

theorem Premature.execute_eq (hpremature : Premature K P r id root now write) :
    ∃ req : BridgeRequest, ∃ e, r.auth.isSpent (req.msgHash P) = false ∧
      r.execute K P id root now write = (r.spend (req.msgHash P),.error e) := by
  obtain ⟨req,hreq,hconfirmed,hstored,e,hproof⟩ := hpremature
  refine ⟨req,e,hconfirmed.fresh,?_⟩
  rw [execute_confirmed hreq hconfirmed hstored, hproof]

theorem Premature.not_retryable (hpremature : Premature K P r id root now write) :
    ¬ Retryable K P r id root now write := by
  intro hretryable
  obtain ⟨req,e,hfresh,hrun⟩ := hpremature.execute_eq
  obtain ⟨-,-,hspent,-⟩ := hretryable.kept e (congrArg Prod.snd hrun)
  rw [hrun] at hspent
  have hmem : req.msgHash P ∈ r.auth.spentOperations := hspent ▸ List.mem_insert_self
  simp [MultisigAuth.isSpent, hmem] at hfresh

theorem execute_unchanged (hready : ¬ Premature K P r id root now write) {e : BridgeError}
    (herr : (r.execute K P id root now write).2 = .error e) : (r.execute K P id root now write).1 = r := by
  refine execute_refused (fun req hreq hconfirmed hstored => ?_)
  rw [execute_confirmed hreq hconfirmed hstored] at herr
  cases hproof : checkProof P req root with
  | error e => exact hready ⟨req,hreq,hconfirmed,hstored,e,hproof⟩
  | ok _ =>
    rw [hproof] at herr
    cases herr

theorem execute_attachProof {req : BridgeRequest} {proof : BridgeProof} (hreq : r.pending.lookup id = some req)
    (hconfirmed : Confirmed K P r req now) (hproof : proof.verify P root = .ok ()) :
    ((r.attachProof id proof).execute K P id root now (.ok ())).2 = .ok (req.action id) := by
  have hattached : r.attachProof id proof = { r with pending := r.pending.insert id (req.setProof proof) } := by
    rw [attachProof, hreq]
  -- the message, the confirmations and the time do not depend on the proof
  have hsame : Confirmed K P (r.attachProof id proof) (req.setProof proof) now := by
    rw [hattached]
    exact ⟨hconfirmed.current,hconfirmed.ownChain,hconfirmed.fresh,hconfirmed.signed⟩
  have hlookup : (r.attachProof id proof).pending.lookup id = some (req.setProof proof) := by
    rw [hattached]
    exact AList.lookup_insert _
  have hcheck : checkProof P (req.setProof proof) root = .ok () := hproof
  rw [execute_confirmed hlookup hsame (Or.inr rfl), hcheck]
  rfl

end Executions

/-- Failed executions can be retried exactly where they were not premature. -/
theorem retryable_iff : Retryable K P r id root now write ↔ ¬ Premature K P r id root now write := by
  constructor
  · exact fun hretryable hpremature => hpremature.not_retryable hretryable
  · intro hready
    refine ⟨fun e herr => ?_,fun e herr req later root' proof hreq _ hconfirmed hproof => ?_⟩
    · rw [execute_unchanged hready herr]
      exact ⟨rfl,rfl,rfl,rfl⟩
    · rw [execute_unchanged hready herr]
      exact execute_attachProof hreq hconfirmed hproof

/-- The deposit is submitted without a proof and confirmed by all keys. -/
def unprovenCalls : List Call :=
  .submit { demoDeposit with proof := none } 0 ::
    [1,2,3].map (fun n => .confirm demoDeposit.id (demoSigner n) ⟨0,n,n⟩ 0)

/-- Executed now, the deposit is spent, and its proof comes too late. -/
theorem unproven_not_retryable : ¬ Retryable demoK256 .integers
    (Machine.final (step demoK256 .integers) (start demoKeys 8989 []) unprovenCalls) demoDeposit.id 5 0 (.ok ()) := by
  refine Premature.not_retryable ⟨{ demoDeposit with
    proof := none
    confirmations := [1,2,3].map (fun n => (demoSigner n,⟨0,n,n⟩)) },?_,⟨?_,?_,?_,?_⟩,Or.inr rfl,_,rfl⟩
  · decide +kernel
  · decide +kernel
  · decide +kernel
  · decide +kernel
  · decide +kernel

end BridgeRelayer
end ZbxChain.Bridge
