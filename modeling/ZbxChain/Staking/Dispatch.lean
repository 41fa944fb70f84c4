import ZbxChain.Staking.Governance
import ZbxChain.Staking.Pipeline

/-! # The dispatcher of staking transactions

Each call gives the staking state it leaves, also when it is refused, and the gas it costs. The
books of the staking are what its calls, its slashes and its elections work on.
-/
namespace ZbxChain.Staking
open StateProgram

def stakingGasRegister : UInt64 := 200000
def stakingGasDelegate : UInt64 := 60000
def stakingGasUndelegate : UInt64 := 80000
def stakingGasWithdraw : UInt64 := 50000
def stakingGasClaim : UInt64 := 40000
def stakingGasClaimDelegator : UInt64 := 50000
def stakingGasProposeUpgrade : UInt64 := 120000
def stakingGasCastVote : UInt64 := 80000

/-- `UNBONDING_PERIOD_BLOCKS`, 21 days. -/
def unbondingPeriodBlocks : UInt64 := 907200

inductive StakingTx where
  | registerValidator (blsPubkey : BlsPubKey) (blsPop : BlsSignature) (selfStake : ℕ)
      (commissionBps : UInt16)
  | delegate (validator : Address) (amount : ℕ)
  | undelegate (validator : Address) (amount : ℕ)
  | withdraw (validator : Address)
  | claimRewards (validator : Address)
  | claimDelegatorRewards (validator : Address)
  | fileAppeal (evidenceId : H256)
  | proposeUpgrade (moduleName : List UInt8) (newVersion : UInt32) (activationHeight : UInt64)
  | castVote (proposalId : UInt64) (approve : Bool)
  deriving DecidableEq

def StakingTx.isFileAppeal : StakingTx → Bool
  | .fileAppeal _ => true
  | _ => false

/-- What a block's staking transactions work on: the validators, the write-set, and the
columns of the database. Only those of the governance are written to. -/
structure StakingState where
  vs : ValidatorSet
  delta : StakingDelta
  columns : StakingColumns
  governance : GovernanceColumns

abbrev Dispatched := StakingState × Except StakingError UInt64

namespace StakingState

def refuse (st : StakingState) (e : StakingError) : Dispatched := (st,.error e)

/-- A change of the validators, by which the call is done unless the change is refused. -/
def finish (st : StakingState) (gas : UInt64) : Except StakingError ValidatorSet → Dispatched
  | .error e => st.refuse e
  | .ok vs => ({ st with vs := vs },.ok gas)

end StakingState

section Calls
variable (P : Platform) (faults : LedgerFaults) (sender : Address) (sentValue : ℕ)
  (currentHeight : UInt64) (st : StakingState)

/-- `RegisterValidator`. -/
def registerValidator (blsPubkey : BlsPubKey) (blsPop : BlsSignature) (selfStake : ℕ)
    (commissionBps : UInt16) : Dispatched :=
  if sentValue ≠ selfStake then st.refuse (.unexpectedValue sentValue selfStake)
  else if (P.g1FromCompressed blsPubkey).isNone then
    st.refuse (.invalidEvidence "bls pubkey: signature error: invalid G1 point encoding")
  else if (P.g2FromCompressed blsPop).isNone then
    st.refuse (.invalidEvidence "bls pop: signature error: invalid G2 point encoding")
  else st.finish stakingGasRegister (st.vs.registerWithPop P sender blsPubkey blsPop selfStake commissionBps)

/-- `Delegate`. The status is looked at twice, and only the second look sees a tombstone. -/
def delegateTo (validator : Address) (amount : ℕ) : Dispatched :=
  if sentValue ≠ amount then st.refuse (.unexpectedValue sentValue amount)
  else if amount = 0 then st.refuse (.delegationTooSmall 1)
  else match st.vs.get validator with
    | none => st.refuse (.notFound validator)
    | some v =>
      match v.status with
      | .jailed | .inactive | .unbonding _ => st.refuse .jailed
      | .pending | .active | .tombstoned =>
        match st.delta.getDelegation faults st.columns (validator,sender) with
        | .error e => st.refuse e
        | .ok prior =>
          let st := { st with
            delta := st.delta.putDelegation (validator,sender) (saturatingAdd128 prior amount) }
          st.finish stakingGasDelegate (st.vs.delegate validator amount)

/-- `Undelegate`. -/
def undelegateFrom (validator : Address) (amount : ℕ) : Dispatched :=
  if sentValue ≠ 0 then st.refuse (.unexpectedValue sentValue 0)
  else match st.vs.get validator with
    | none => st.refuse (.notFound validator)
    | some v =>
      if v.delegatedStake < amount then st.refuse (.insufficientDelegation v.delegatedStake amount)
      else match st.delta.getDelegation faults st.columns (validator,sender) with
        | .error e => st.refuse e
        | .ok prior =>
          if prior < amount then st.refuse (.insufficientDelegation prior amount)
          else
            let unlock := saturatingAdd64 currentHeight unbondingPeriodBlocks
            match st.delta.getUnbondingEntry faults st.columns (unlock,sender,validator) with
            | .error e => st.refuse e
            | .ok existing =>
              let combined := saturatingAdd128 existing amount
              let st := { st with
                delta := (st.delta.putDelegation (validator,sender) (prior - amount)).putUnbondingEntry
                  (unlock,sender,validator) combined }
              st.finish stakingGasUndelegate (st.vs.undelegate validator amount)

/-- `get_balance` of the view. -/
def balanceOf (addr : Address) : StateProgram ℕ := do
  let acct ← getAccount addr
  return acct.balanceU128

/-- `set_balance` of the view. -/
def setBalanceOf (addr : Address) (wei : ℕ) : StateProgram Unit := do
  let acct ← getAccount addr
  setAccount addr (acct.setBalanceU128 wei)

/-- A payment out of the escrow; what it cannot pay is what it has. -/
def payFromEscrow (recipient : Address) (amount : ℕ) : StateProgram (Except StakingError Unit) := do
  let escrow ← balanceOf stakingPrecompileAddr
  if escrow < amount then return .error (.escrowUnderflow escrow amount)
  else
    setBalanceOf stakingPrecompileAddr (escrow - amount)
    let bal ← balanceOf recipient
    setBalanceOf recipient (saturatingAdd128 bal amount)
    return .ok ()

/-- A call that ends with a payment of what it has come to; `paid` is what it leaves then. -/
def settle (st paid : StakingState) (gas : UInt64) (recipient : Address) (amount : ℕ) :
    StateProgram Dispatched := do
  match ← payFromEscrow recipient amount with
  | .error e => return st.refuse e
  | .ok () => return (paid,.ok gas)

/-- `Withdraw`. -/
def withdrawFrom (validator : Address) : StateProgram Dispatched :=
  if sentValue ≠ 0 then return st.refuse (.unexpectedValue sentValue 0)
  else match st.delta.iterMaturedUnbondingsFor faults st.columns P sender currentHeight with
    | .error e => return st.refuse e
    | .ok maturedAll =>
      let matured := maturedAll.filter (fun e => e.2.1 = validator)
      if matured.isEmpty then return st.refuse .nothingToWithdraw
      else
        let total := wrap128 (matured.map (fun e => e.2.2)).sum
        let toDelete := matured.map (fun e => (e.1,e.2.1))
        settle st { st with delta := st.delta.deleteUnbondingEntries sender toDelete }
          stakingGasWithdraw sender total

/-- `ClaimRewards`: the rewards are taken off the books before the escrow is looked at. -/
def claimOwnRewards (validator : Address) : StateProgram Dispatched :=
  if sentValue ≠ 0 then return st.refuse (.unexpectedValue sentValue 0)
  else if sender ≠ validator then return st.refuse (.notAValidator sender)
  else match st.vs.claimRewards validator with
    | .error e => return st.refuse e
    | .ok (amt,vs) =>
      let st := { st with vs := vs }
      if 0 < amt then settle st st stakingGasClaim validator amt
      else return (st,.ok stakingGasClaim)

/-- `ClaimDelegatorRewards`. -/
def claimDelegated (validator : Address) : StateProgram Dispatched :=
  if sentValue ≠ 0 then return st.refuse (.unexpectedValue sentValue 0)
  else match st.delta.getDelegation faults st.columns (validator,sender) with
    | .error e => return st.refuse e
    | .ok delegatorStake =>
      if delegatorStake = 0 then return st.refuse (.noPendingRewards sender)
      else
        let (claimed,vs) := st.vs.claimDelegatorReward validator sender delegatorStake
        let st := { st with vs := vs }
        match claimed with
        | .error e => return st.refuse e
        | .ok amt =>
          if 0 < amt then settle st st stakingGasClaimDelegator sender amt
          else return (st,.ok stakingGasClaimDelegator)

/-- The registry as a governance call leaves it in the database. -/
def storeProposals (gas : UInt64) (preg : ProposalRegistry) : StateProgram Dispatched :=
  match faults.putProposals with
  | some e => return st.refuse (.persistence e)
  | none => do
    persistProposalRegistry
    return ({ st with governance := st.governance.persistProposalRegistry preg },.ok gas)

/-- `ProposeUpgrade`; the counter is stored before the proposal is looked at. -/
def proposeUpgrade (moduleName : List UInt8) (newVersion : UInt32) (activationHeight : UInt64) :
    StateProgram Dispatched :=
  if sentValue ≠ 0 then return st.refuse (.unexpectedValue sentValue 0)
  else if !st.vs.isActiveValidator sender then return st.refuse (.notAValidator sender)
  else match String.fromUTF8? ⟨moduleName.toArray⟩ with
    | none => return st.refuse (.badPayload .moduleNameUtf8)
    | some modName =>
      if modName.isEmpty ∨ 64 < modName.utf8ByteSize then
        return st.refuse (.badPayload (.moduleNameLength modName.utf8ByteSize))
      else if activationHeight ≤ currentHeight then
        return st.refuse (.badPayload (.activationHeight activationHeight currentHeight))
      else match faults.getProposalCounter.or faults.putProposalCounter with
        | some e => return st.refuse (.persistence e)
        | none =>
          let proposalId := st.governance.nextProposalId
          let st := { st with
            governance := { st.governance with proposalCounter := some proposalId } }
          match faults.getProposals with
          | some e => return st.refuse (.persistence e)
          | none =>
            match createProposal st.governance.loadProposalRegistry proposalId modName newVersion
              activationHeight sender with
            | .error e => return st.refuse e
            | .ok preg => storeProposals faults st stakingGasProposeUpgrade preg

/-- `CastVote`. -/
def castVote (proposalId : UInt64) (approve : Bool) : StateProgram Dispatched :=
  if sentValue ≠ 0 then return st.refuse (.unexpectedValue sentValue 0)
  else if !st.vs.isActiveValidator sender then return st.refuse (.notAValidator sender)
  else match faults.getProposals with
    | some e => return st.refuse (.persistence e)
    | none =>
      match castAndMaybeFinalize st.governance.loadProposalRegistry proposalId sender approve st.vs
        currentHeight with
      | .error e => return st.refuse e
      | .ok preg => storeProposals faults st stakingGasCastVote preg

def dispatchStakingTx : StakingTx → StateProgram Dispatched
  | .registerValidator blsPubkey blsPop selfStake commissionBps =>
    return registerValidator P sender sentValue st blsPubkey blsPop selfStake commissionBps
  | .delegate validator amount => return delegateTo faults sender sentValue st validator amount
  | .undelegate validator amount =>
    return undelegateFrom faults sender sentValue currentHeight st validator amount
  | .withdraw validator => withdrawFrom P faults sender sentValue currentHeight st validator
  | .claimRewards validator => claimOwnRewards sender sentValue st validator
  | .claimDelegatorRewards validator => claimDelegated faults sender sentValue st validator
  | .fileAppeal _ => return st.refuse (.badPayload .fileAppealRouting)
  | .proposeUpgrade moduleName newVersion activationHeight =>
    proposeUpgrade faults sender sentValue currentHeight st moduleName newVersion activationHeight
  | .castVote proposalId approve =>
    castVote faults sender sentValue currentHeight st proposalId approve

end Calls

def precompile (P : Platform) (faults : LedgerFaults) (decode : List UInt8 → Option StakingTx) :
    StakingNode StakingState StakingTx where
  decode := decode
  isFileAppeal := StakingTx.isFileAppeal
  dispatch := fun call sender sentValue currentHeight st => do
    let (st,answer) ← dispatchStakingTx P faults sender sentValue currentHeight st call
    return (st,answer.toOption)
  deltaIsEmpty := fun st => st.delta.isEmpty
  distributeBlockReward := fun st height proposer fees =>
    { st with vs := st.vs.distributeBlockReward height proposer fees }

/-- The validators of the state are those that the slashing pipeline shares. -/
structure StakingBooks where
  state : StakingState
  store : EvidenceStore
  registry : SlashingRegistryV2
  /-- The storage operations of the pipeline so far. -/
  operations : ℕ

namespace StakingBooks

def pipeline (books : StakingBooks) : SlashingPipeline :=
  ⟨books.store,books.registry,books.state.vs,books.operations⟩

def withPipeline (books : StakingBooks) (p : SlashingPipeline) : StakingBooks :=
  ⟨{ books.state with vs := p.validators },p.store,p.registry,p.operations⟩

def onPipeline {α : Type} (books : StakingBooks) (m : PipelineM α) : Except StakingError α × StakingBooks :=
  ((m.exec books.pipeline).1,books.withPipeline (m.exec books.pipeline).2)

@[simp] theorem vs_withPipeline (books : StakingBooks) (p : SlashingPipeline) :
    (books.withPipeline p).state.vs = p.validators := rfl

@[simp] theorem withPipeline_pipeline (books : StakingBooks) : books.withPipeline books.pipeline = books := rfl

end StakingBooks

section Calls
variable (P : Platform) (faults : LedgerFaults) (fault : ℕ → Option String)

/-- A staking call where `execute_staking_tx` sends it: an appeal to the pipeline, everything
else to the dispatcher. -/
def dispatchCall (call : StakingTx) (sender : Address) (sentValue : ℕ) (currentHeight : UInt64)
    (books : StakingBooks) : StateProgram (StakingBooks × Except StakingError UInt64) :=
  match call with
  | .fileAppeal evidenceId =>
    let (answer,books) := books.onPipeline
      (SlashingPipeline.dispatchFileAppealTx fault evidenceId sender sentValue currentHeight)
    return (books,answer)
  | call => do
    let (state,answer) ← dispatchStakingTx P faults sender sentValue currentHeight books.state call
    return ({ books with state := state },answer)

/-- The staking precompile with a slashing pipeline, which no call is kept from. -/
def precompileWithPipeline (decode : List UInt8 → Option StakingTx) :
    StakingPrecompile StakingBooks StakingTx where
  decode := decode
  isFileAppeal := fun _ => false
  dispatch := fun call sender sentValue currentHeight books => do
    let (books,answer) ← dispatchCall P faults fault call sender sentValue currentHeight books
    return (books,answer.toOption)

end Calls

end ZbxChain.Staking
