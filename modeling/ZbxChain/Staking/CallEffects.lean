import ZbxChain.Staking.Dispatch
import ZbxChain.Execution.Conservation

/-! # What a staking call can do

One list of the changes that a call makes to the validators, the write-set and the balances,
from which everything that the calls keep is derived. A run of the staking has its transactions,
rewards, slashes, elections and commits in any order.
-/
namespace ZbxChain.Staking
open StateProgram

/-- What a staking payment can be made from. -/
def escrowOf (view : ExecView) : ℕ := (view.getAccount stakingPrecompileAddr).balanceU128

def paidView (recipient : Address) (amount : ℕ) (view : ExecView) : ExecView :=
  ((payFromEscrow recipient amount).run ExecView.answer view).2

section Effects
variable (P : Platform) (faults : LedgerFaults) (call : StakingTx) (sender : Address) (sentValue : ℕ)
  (currentHeight : UInt64) (st : StakingState) (view : ExecView)

/-- The matured entries of the sender with one validator. -/
def Matured (validator : Address) (matured : List (UInt64 × Address × ℕ)) : Prop :=
  ∃ all, st.delta.iterMaturedUnbondingsFor faults st.columns P sender currentHeight = .ok all ∧
    matured = all.filter (fun e => e.2.1 = validator)

/-- What a call leaves, whether it is accepted, and the balances after it. -/
inductive CallEffect : StakingState → Bool → ExecView → Prop
  /-- Only the columns of the governance, at most, are other than before. -/
  | idle {st' : StakingState} {accepted : Bool} {view' : ExecView} (hvs : st'.vs = st.vs)
      (hdelta : st'.delta = st.delta) (hcolumns : st'.columns = st.columns)
      (hview : view'.state = view.state) : CallEffect st' accepted view'
  | registered {blsPubkey : BlsPubKey} {blsPop : BlsSignature} {commissionBps : UInt16} {vs' : ValidatorSet}
      (h : st.vs.registerWithPop P sender blsPubkey blsPop sentValue commissionBps = .ok vs') :
      CallEffect { st with vs := vs' } true view
  | delegated {validator : Address} {prior : ℕ} {vs' : ValidatorSet} (hpositive : 0 < sentValue)
      (hread : st.delta.getDelegation faults st.columns (validator,sender) = .ok prior)
      (h : st.vs.delegate validator sentValue = .ok vs') :
      CallEffect { st with
        vs := vs'
        delta := st.delta.putDelegation (validator,sender) (saturatingAdd128 prior sentValue) } true view
  /-- A delegation to a tombstoned validator. -/
  | written {validator : Address} {prior : ℕ} {v : Validator} (hcall : call = .delegate validator sentValue)
      (hpositive : 0 < sentValue)
      (hread : st.delta.getDelegation faults st.columns (validator,sender) = .ok prior)
      (hget : st.vs.get validator = some v) (hstatus : v.status = .tombstoned) :
      CallEffect { st with
        delta := st.delta.putDelegation (validator,sender) (saturatingAdd128 prior sentValue) } false view
  | undelegated {validator : Address} {amount prior existing : ℕ} {unlock : UInt64} {vs' : ValidatorSet}
      (hread : st.delta.getDelegation faults st.columns (validator,sender) = .ok prior) (hprior : amount ≤ prior)
      (hexisting : st.delta.getUnbondingEntry faults st.columns (unlock,sender,validator) = .ok existing)
      (h : st.vs.undelegate validator amount = .ok vs') :
      CallEffect { st with
        vs := vs'
        delta := (st.delta.putDelegation (validator,sender) (prior - amount)).putUnbondingEntry
          (unlock,sender,validator) (saturatingAdd128 existing amount) } true view
  | withdrawn {validator : Address} {matured : List (UInt64 × Address × ℕ)}
      (hmatured : Matured P faults sender currentHeight st validator matured)
      (hpaid : wrap128 (matured.map (fun e => e.2.2)).sum ≤
        escrowOf view) :
      CallEffect { st with
        delta := st.delta.deleteUnbondingEntries sender (matured.map (fun e => (e.1,e.2.1))) } true
        (paidView sender (wrap128 (matured.map (fun e => e.2.2)).sum) view)
  /-- A claim of a validator, paid or not. -/
  | claimed {amt : ℕ} {vs' : ValidatorSet} {accepted : Bool} {view' : ExecView}
      (h : st.vs.claimRewards sender = .ok (amt,vs'))
      (hpaid : accepted = true → view' = view ∧ amt = 0 ∨
        amt ≤ escrowOf view ∧ view' = paidView sender amt view)
      (hunpaid : accepted = false → view' = view) : CallEffect { st with vs := vs' } accepted view'
  /-- A claim of a delegator, paid or not. -/
  | shared {validator : Address} {stake : ℕ} {v : Validator} {accepted : Bool} {view' : ExecView}
      (hget : st.vs.get validator = some v)
      (hpaid : accepted = true → (v.claimDelegatorShare stake).1 ≤
        escrowOf view ∧
          view' = paidView sender (v.claimDelegatorShare stake).1 view)
      (hunpaid : accepted = false → view' = view) :
      CallEffect { st with vs := { st.vs with
        validators := st.vs.validators.insert validator (v.claimDelegatorShare stake).2 } } accepted view'

end Effects

section Dispatch
variable {P : Platform} {faults : LedgerFaults} {call : StakingTx} {sender : Address} {sentValue : ℕ}
  {currentHeight : UInt64} {st : StakingState} {view : ExecView}

/-- The program has one of the effects, accepted or refused as it says. -/
def HasEffect (P : Platform) (faults : LedgerFaults) (call : StakingTx) (sender : Address) (sentValue : ℕ)
    (currentHeight : UInt64) (st : StakingState) (view : ExecView) (p : StateProgram Dispatched) : Prop :=
  CallEffect P faults call sender sentValue currentHeight st view (p.run ExecView.answer view).1.1
    (p.run ExecView.answer view).1.2.toOption.isSome (p.run ExecView.answer view).2

theorem HasEffect.idle {d : Dispatched} (hvs : d.1.vs = st.vs) (hdelta : d.1.delta = st.delta)
    (hcolumns : d.1.columns = st.columns) :
    HasEffect P faults call sender sentValue currentHeight st view (pure d) :=
  CallEffect.idle hvs hdelta hcolumns rfl

theorem HasEffect.refuse (e : StakingError) :
    HasEffect P faults call sender sentValue currentHeight st view (pure (st.refuse e)) := .idle rfl rfl rfl

theorem HasEffect.storeProposals {st' : StakingState} (hvs : st'.vs = st.vs) (hdelta : st'.delta = st.delta)
    (hcolumns : st'.columns = st.columns) {gas : UInt64} {preg : ProposalRegistry} :
    HasEffect P faults call sender sentValue currentHeight st view (storeProposals faults st' gas preg) := by
  unfold Staking.storeProposals
  cases faults.putProposals with
  | some e => exact .idle hvs hdelta hcolumns
  | none => exact CallEffect.idle hvs hdelta hcolumns rfl

/-- A payment from the escrow is made in full or refused. -/
theorem run_settle (st : StakingState) (view : ExecView) (paid : StakingState) (gas : UInt64) (recipient : Address) (amount : ℕ) :
    (escrowOf view < amount ∧
      (settle st paid gas recipient amount).run ExecView.answer view =
        (st.refuse (.escrowUnderflow (escrowOf view) amount),view)) ∨
    (amount ≤ escrowOf view ∧
      (settle st paid gas recipient amount).run ExecView.answer view =
        ((paid,.ok gas),paidView recipient amount view)) := by
  have haccount : (StateProgram.getAccount stakingPrecompileAddr).run ExecView.answer view =
      (view.getAccount stakingPrecompileAddr,view) := rfl
  rcases lt_or_ge (escrowOf view) amount with hlow | hpays
  · refine Or.inl ⟨hlow,?_⟩
    have hbalance : (view.getAccount stakingPrecompileAddr).balanceU128 < amount := hlow
    simp only [settle, payFromEscrow, balanceOf, Program.run_bind, haccount, Program.run_pure, if_pos hbalance]
    rfl
  · refine Or.inr ⟨hpays,?_⟩
    have hbalance : ¬ (view.getAccount stakingPrecompileAddr).balanceU128 < amount := not_lt.mpr hpays
    simp only [paidView, settle, payFromEscrow, balanceOf, setBalanceOf, Program.run_bind, haccount,
      Program.run_pure, if_neg hbalance]

theorem effect_registerValidator (blsPubkey : BlsPubKey) (blsPop : BlsSignature) (selfStake : ℕ)
    (commissionBps : UInt16) : HasEffect P faults call sender sentValue currentHeight st view
      (pure (registerValidator P sender sentValue st blsPubkey blsPop selfStake commissionBps)) := by
  unfold registerValidator
  split
  · exact .refuse _
  · rename_i hvalue
    split
    · exact .refuse _
    · split
      · exact .refuse _
      · cases h : st.vs.registerWithPop P sender blsPubkey blsPop selfStake commissionBps with
        | error e => exact .refuse e
        | ok vs' =>
          rw [← not_not.mp hvalue] at h
          exact CallEffect.registered h

theorem effect_delegateTo (validator : Address) (amount : ℕ) :
    HasEffect P faults (.delegate validator amount) sender sentValue currentHeight st view
      (pure (delegateTo faults sender sentValue st validator amount)) := by
  unfold delegateTo
  split
  · exact .refuse _
  · rename_i hvalue
    have hsame : sentValue = amount := not_not.mp hvalue
    subst hsame
    split
    · exact .refuse _
    · rename_i hzero
      have hpositive := Nat.pos_of_ne_zero hzero
      cases hget : st.vs.get validator with
      | none => exact .refuse _
      | some v =>
        dsimp only
        cases hread : st.delta.getDelegation faults st.columns (validator,sender) with
        | error e =>
          cases v.status
          all_goals exact .refuse _
        | ok prior =>
          cases hstatus : v.status with
          | jailed | inactive | unbonding => exact .refuse _
          | tombstoned =>
            have hrefused : st.vs.delegate validator sentValue = .error .jailed := by
              simp only [ValidatorSet.delegate, hget, hstatus]
            simp only [StakingState.finish, hrefused]
            exact CallEffect.written rfl hpositive hread hget hstatus
          | pending | active =>
            have haccepted : ∃ vs', st.vs.delegate validator sentValue = .ok vs' := by
              simp only [ValidatorSet.delegate, hget, hstatus]
              exact ⟨_,rfl⟩
            obtain ⟨vs',hvs⟩ := haccepted
            simp only [StakingState.finish, hvs]
            exact CallEffect.delegated hpositive hread hvs

theorem effect_undelegateFrom (validator : Address) (amount : ℕ) :
    HasEffect P faults call sender sentValue currentHeight st view
      (pure (undelegateFrom faults sender sentValue currentHeight st validator amount)) := by
  unfold undelegateFrom
  split
  · exact .refuse _
  · cases hget : st.vs.get validator with
    | none => exact .refuse _
    | some v =>
      dsimp only
      split
      · exact .refuse _
      · rename_i hcovered
        cases hread : st.delta.getDelegation faults st.columns (validator,sender) with
        | error e => exact .refuse _
        | ok prior =>
          dsimp only
          split
          · exact .refuse _
          · rename_i hprior
            cases hexisting : st.delta.getUnbondingEntry faults st.columns
              (saturatingAdd64 currentHeight unbondingPeriodBlocks,sender,validator) with
            | error e => exact .refuse _
            | ok existing =>
              -- the aggregate has been looked at, and the change of the validators is accepted
              have haccepted : ∃ vs', st.vs.undelegate validator amount = .ok vs' := by
                simp only [ValidatorSet.undelegate, hget, if_neg hcovered]
                exact ⟨_,rfl⟩
              obtain ⟨vs',hvs⟩ := haccepted
              simp only [StakingState.finish, hvs]
              exact CallEffect.undelegated hread (not_lt.mp hprior) hexisting hvs

theorem effect_withdrawFrom (validator : Address) :
    HasEffect P faults call sender sentValue currentHeight st view
      (withdrawFrom P faults sender sentValue currentHeight st validator) := by
  unfold withdrawFrom
  split
  · exact .refuse _
  · cases hall : st.delta.iterMaturedUnbondingsFor faults st.columns P sender currentHeight with
    | error e => exact .refuse _
    | ok all =>
      dsimp only
      split
      · exact .refuse _
      · unfold HasEffect
        generalize hmatured : all.filter (fun e => e.2.1 = validator) = matured
        rcases run_settle st view { st with
            delta := st.delta.deleteUnbondingEntries sender (matured.map (fun e => (e.1,e.2.1))) }
          stakingGasWithdraw sender (wrap128 (matured.map (fun e => e.2.2)).sum) with
          ⟨-,hrun⟩ | ⟨hpays,hrun⟩
        · rw [hrun]
          exact CallEffect.idle rfl rfl rfl rfl
        · rw [hrun]
          exact CallEffect.withdrawn ⟨all,hall,hmatured.symm⟩ hpays

theorem effect_claimOwnRewards (validator : Address) :
    HasEffect P faults call sender sentValue currentHeight st view
      (claimOwnRewards sender sentValue st validator) := by
  unfold claimOwnRewards
  split
  · exact .refuse _
  · split
    · exact .refuse _
    · rename_i hsender
      have hsame : sender = validator := not_not.mp hsender
      subst hsame
      cases h : st.vs.claimRewards sender with
      | error e => exact .refuse _
      | ok claim =>
        obtain ⟨amt,vs'⟩ := claim
        dsimp only
        split
        · unfold HasEffect
          rcases run_settle { st with vs := vs' } view { st with vs := vs' } stakingGasClaim sender amt with ⟨-,hrun⟩ | ⟨hpays,hrun⟩
          · rw [hrun]
            exact CallEffect.claimed h (fun haccepted => by cases haccepted) fun _ => rfl
          · rw [hrun]
            exact CallEffect.claimed h (fun _ => Or.inr ⟨hpays,rfl⟩) fun hrefused => by cases hrefused
        · rename_i hzero
          exact CallEffect.claimed h (fun _ => Or.inl ⟨rfl,Nat.eq_zero_of_not_pos hzero⟩) fun _ => rfl

theorem effect_claimDelegated (validator : Address) :
    HasEffect P faults call sender sentValue currentHeight st view
      (claimDelegated faults sender sentValue st validator) := by
  unfold claimDelegated
  split
  · exact .refuse _
  · cases st.delta.getDelegation faults st.columns (validator,sender) with
    | error e => exact .refuse _
    | ok stake =>
      dsimp only
      split
      · exact .refuse _
      · rename_i hstake
        cases hget : st.vs.get validator with
        | none =>
          simp only [ValidatorSet.claimDelegatorReward, if_neg hstake, hget]
          exact .refuse _
        | some v =>
          simp only [ValidatorSet.claimDelegatorReward, if_neg hstake, hget]
          by_cases hshare : (v.claimDelegatorShare stake).1 = 0
          · simp only [if_pos hshare]
            exact CallEffect.shared hget (fun haccepted => by cases haccepted) fun _ => rfl
          · simp only [if_neg hshare, if_pos (Nat.pos_of_ne_zero hshare)]
            unfold HasEffect
            generalize hpaid : ({ st with vs := { st.vs with
              validators := st.vs.validators.insert validator (v.claimDelegatorShare stake).2 } } :
                StakingState) = paid
            rcases run_settle paid view paid stakingGasClaimDelegator sender (v.claimDelegatorShare stake).1 with
              ⟨-,hrun⟩ | ⟨hpays,hrun⟩
            · rw [hrun, ← hpaid]
              exact CallEffect.shared hget (fun haccepted => by cases haccepted) fun _ => rfl
            · rw [hrun, ← hpaid]
              exact CallEffect.shared hget (fun _ => ⟨hpays,rfl⟩) fun hrefused => by cases hrefused

theorem effect_proposeUpgrade (moduleName : List UInt8) (newVersion : UInt32) (activationHeight : UInt64) :
    HasEffect P faults call sender sentValue currentHeight st view
      (proposeUpgrade faults sender sentValue currentHeight st moduleName newVersion activationHeight) := by
  unfold proposeUpgrade
  split
  · exact .refuse _
  · split
    · exact .refuse _
    · split
      · exact .refuse _
      · split
        · exact .refuse _
        · split
          · exact .refuse _
          · split
            · exact .refuse _
            · dsimp only
              split
              · exact .idle rfl rfl rfl
              · split
                · exact .idle rfl rfl rfl
                · apply HasEffect.storeProposals
                  all_goals rfl

theorem effect_castVote (proposalId : UInt64) (approve : Bool) :
    HasEffect P faults call sender sentValue currentHeight st view
      (castVote faults sender sentValue currentHeight st proposalId approve) := by
  unfold castVote
  split
  · exact .refuse _
  · split
    · exact .refuse _
    · split
      · exact .refuse _
      · split
        · exact .refuse _
        · exact .storeProposals rfl rfl rfl

/-- Every staking call has one of the listed effects. -/
theorem effect_dispatchStakingTx (call : StakingTx) :
    HasEffect P faults call sender sentValue currentHeight st view
      (dispatchStakingTx P faults sender sentValue currentHeight st call) := by
  cases call with
  | registerValidator blsPubkey blsPop selfStake commissionBps =>
    exact effect_registerValidator blsPubkey blsPop selfStake commissionBps
  | delegate validator amount => exact effect_delegateTo validator amount
  | undelegate validator amount => exact effect_undelegateFrom validator amount
  | withdraw validator => exact effect_withdrawFrom validator
  | claimRewards validator => exact effect_claimOwnRewards validator
  | claimDelegatorRewards validator => exact effect_claimDelegated validator
  | fileAppeal evidenceId => exact .refuse _
  | proposeUpgrade moduleName newVersion activationHeight =>
    exact effect_proposeUpgrade moduleName newVersion activationHeight
  | castVote proposalId approve => exact effect_castVote proposalId approve

end Dispatch

structure StakingChain where
  books : StakingBooks
  view : ExecView

inductive StakingEvent where
  /-- `execute_staking_tx`, with the errors of the storage layer it meets. -/
  | transaction (faults : LedgerFaults) (tx : SignedTransaction) (header : BlockHeader)
  /-- What is minted for the escrow, and then distributed. -/
  | rewards (height : UInt64) (proposer : Address) (accumulatedFees : ℕ)
  | ingest (ev : EquivocationEvidence) (submitter : Address) (currentBlock currentEpoch : UInt64)
      (offenderStake : ℕ)
  | tick (currentBlock : UInt64)
  | overturn (evidenceId : H256)
  | elect
  /-- The write-set of a block is stored, and the next block has a new one. -/
  | commit

namespace StakingChain

def genesis (totalValidators : UInt64) (view : ExecView) : StakingChain :=
  ⟨⟨⟨.new,.new,⟨∅,∅⟩,⟨none,none⟩⟩,⟨∅,∅,∅⟩,.new totalValidators,0⟩,view⟩

end StakingChain

section Steps
variable (P : Platform) (sha3 : List UInt8 → H256) (bincode : EquivocationEvidence → List UInt8)
  (fault : ℕ → Option String) (decode : List UInt8 → Option StakingTx)

/-- One event, and what it pays into the escrow: the value of an accepted transaction, or what
is minted. -/
def stakingStep (s : StakingChain) : StakingEvent → StakingChain × ℕ
  | .transaction faults tx header =>
    match (executeStakingTx (precompileWithPipeline P faults fault decode) tx header s.books).runOn s.view with
    | (.ok (books,result),view) => (⟨books,view⟩,if result.success then tx.tx.valueU128 else 0)
    | (.error _,view) => (⟨s.books,view⟩,0)
  | .rewards height proposer accumulatedFees =>
    let mint := intervalEscrowMint height accumulatedFees
    let vs := s.books.state.vs.distributeBlockReward height proposer accumulatedFees
    (⟨{ s.books with state := { s.books.state with vs := vs } },
      ((credit stakingPrecompileAddr mint).run ExecView.answer s.view).2⟩,mint)
  | .ingest ev submitter currentBlock currentEpoch offenderStake =>
    (⟨(s.books.onPipeline (SlashingPipeline.ingestEquivocation P sha3 bincode fault ev submitter currentBlock
      currentEpoch offenderStake)).2,s.view⟩,0)
  | .tick currentBlock => (⟨(s.books.onPipeline (SlashingPipeline.tickFinalize fault currentBlock)).2,s.view⟩,0)
  | .overturn evidenceId =>
    (⟨(s.books.onPipeline (SlashingPipeline.overturnAndRefund fault evidenceId)).2,s.view⟩,0)
  | .elect =>
    (⟨{ s.books with state := { s.books.state with vs := (s.books.state.vs.electActiveSet P).1 } },s.view⟩,0)
  | .commit =>
    (⟨{ s.books with state := { s.books.state with
        columns := s.books.state.columns.applyStakingDelta s.books.state.delta
        delta := .new } },s.view⟩,0)

end Steps

section Transactions
variable {P : Platform} {fault : ℕ → Option String} {faults : LedgerFaults}
  {decode : List UInt8 → Option StakingTx} {tx : SignedTransaction} {header : BlockHeader}
  {books books' : StakingBooks} {view view' : ExecView} {result : TxResult}

/-- The balances once a transaction is settled: unused gas goes back, and the value to the
escrow, or back too. -/
def settledView (sender : Address) (refund value : ℕ) (success : Bool) (view : ExecView) : ExecView :=
  let refunded := ((credit sender refund).run ExecView.answer view).2
  if success then
    if 0 < value then ((credit stakingPrecompileAddr value).run ExecView.answer refunded).2 else refunded
  else ((credit sender value).run ExecView.answer refunded).2

/-- A transaction that is executed: its sender is charged, its call is dispatched, and it is
settled. -/
structure Transacted (P : Platform) (fault : ℕ → Option String) (faults : LedgerFaults)
    (decode : List UInt8 → Option StakingTx) (tx : SignedTransaction) (header : BlockHeader)
    (books : StakingBooks) (view : ExecView) (charge : Charge) (charged : ExecView)
    (books' : StakingBooks) (view' : ExecView) (success : Bool) : Prop where
  debited : (debitSender tx header).runOn view = (.ok charge,charged)
  settled : ∃ refund dispatched, view' = settledView tx.sender refund charge.value success dispatched ∧
    ((decode tx.tx.data = none ∧ books' = books ∧ dispatched = charged ∧ success = false) ∨
      ∃ call answer, decode tx.tx.data = some call ∧
        (dispatchCall P faults fault call tx.sender charge.value header.number books).run ExecView.answer
          charged = ((books',answer),dispatched) ∧ success = answer.toOption.isSome)

theorem transacted_of_ok (h : (executeStakingTx (precompileWithPipeline P faults fault decode) tx header
    books).runOn view = (.ok (books',result),view')) :
    ∃ charge charged, Transacted P fault faults decode tx header books view charge charged books' view'
      result.success := by
  unfold executeStakingTx at h
  rw [TxProgram.runOn_bind] at h
  rcases hdebit : (debitSender tx header).runOn view with ⟨e | charge,charged⟩
  · rw [hdebit] at h
    cases h
  · rw [hdebit] at h
    refine ⟨charge,charged,hdebit,?_⟩
    dsimp only [precompileWithPipeline] at h
    cases hdecode : decode tx.tx.data with
    | none =>
      simp only [hdecode, TxProgram.runOn_bind, TxProgram.runOn_lift, TxProgram.runOn_pure,
        Program.run_pure, Option.isSome_none, Bool.false_eq_true, if_false] at h
      cases h
      exact ⟨_,charged,rfl,Or.inl ⟨rfl,rfl,rfl,rfl⟩⟩
    | some call =>
      rcases hran : (dispatchCall P faults fault call tx.sender charge.value header.number books).run
        ExecView.answer charged with ⟨⟨after,answer⟩,dispatched⟩
      simp only [hdecode, Bool.false_eq_true, if_false, TxProgram.runOn_bind, TxProgram.runOn_lift,
        TxProgram.runOn_pure, TxProgram.runOn_ite, Program.run_bind, Program.run_pure, hran] at h
      rcases answer with e | gas
      · simp only [Except.toOption, Option.isSome_none, Bool.false_eq_true, if_false] at h
        cases h
        exact ⟨_,dispatched,rfl,Or.inr ⟨call,_,rfl,hran,rfl⟩⟩
      · simp only [Except.toOption, Option.isSome_some, if_true] at h
        split at h
        · rename_i hpositive
          cases h
          exact ⟨_,dispatched,(if_pos hpositive).symm,Or.inr ⟨call,_,rfl,hran,rfl⟩⟩
        · rename_i hzero
          cases h
          exact ⟨_,dispatched,(if_neg hzero).symm,Or.inr ⟨call,_,rfl,hran,rfl⟩⟩

end Transactions

def stakersView : ExecView :=
  ((ExecView.new.seedAccount 7 { AccountState.fresh with balance := 2 ^ 100 }).seedAccount 8
    { AccountState.fresh with balance := 2 ^ 100 }).seedAccount 9 { AccountState.fresh with balance := 2 ^ 100 }

def stakingCall (sender : Address) (nonce : UInt64) (value : U256) (data : List UInt8) : StakingEvent :=
  .transaction .none
    ⟨{ legacyTransfer 0 [] with
        nonce := nonce
        maxFeePerGas := 0
        gasLimit := 300000
        recipient := some stakingPrecompileAddr
        value := value
        data := data },⟨0,5,6⟩,sender,0⟩ (plainBlock 1 0).header

def registration (addr : Address) : StakingTx :=
  .registerValidator 1 (Platform.integers.sign 1 (Platform.integers.keccak256
    (addr.asBytes ++ ValidatorSet.popDomain))) minSelfStake 0

def doubleVote : EquivocationEvidence :=
  let vote (blockHash : H256) : ZbxChain.Vote :=
    let data : VoteData := ⟨blockHash,1,0,0⟩
    ⟨data,7,Platform.integers.sign 1 (data.signingHash .integers)⟩
  ⟨7,1,0,vote 1,vote 2,1⟩

end ZbxChain.Staking
