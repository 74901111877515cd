import SavannahNode.Native.PlatformBlocks

/-!
# The errors of transactions

Every check of a transaction returns an error that the source returns as well. In particular
executing a transaction never ends in the error that stands for a panic of the source. The
proofs follow the functions: a computation fails as its parts do.

## Key results

* `proposalTx_returns`, `standardTx_returns`, `atomicTx_returns` — for the three executors.
-/

namespace SavannahNode.PlatformVM

/-- The error is one the source returns. -/
abbrev Err.Returned (e : Err) : Prop := e ≠ .nilDiff

/-- The computation does not panic. -/
abbrev Returns {α : Type} (x : Except Err α) : Prop := x.FailsOnly Err.Returned

/-! ## Syntactic verification -/

@[simp] theorem OutputOwners.verify_returns (o : OutputOwners) : Returns o.verify := by
  simp [verify]

@[simp] theorem Output.verify_returns (o : Output) : Returns o.verify := by
  simp [verify, TransferOutput.verify]

@[simp] theorem SigInput.verify_returns (i : SigInput) : Returns i.verify := by
  simp [verify]

@[simp] theorem Input.verify_returns (i : Input) : Returns i.verify := by
  simp [verify, TransferInput.verify]

@[simp] theorem TransferableOutput.verify_returns (o : TransferableOutput) : Returns o.verify := by
  simp [verify]

@[simp] theorem TransferableInput.verify_returns (i : TransferableInput) : Returns i.verify := by
  simp [verify]

@[simp] theorem BaseTx.syntacticVerify_returns (ctx : Context) (tx : BaseTx) :
    Returns (tx.syntacticVerify ctx) := by
  simp [syntacticVerify]

@[simp] theorem verifyStake_returns (ctx : Context) (v : Validator) (stake : List TransferableOutput) :
    Returns (verifyStake ctx v stake) := by
  simp [verifyStake]

/-- Every kind of transaction checks its own fields and the parts above. -/
@[simp] theorem UnsignedTx.syntacticVerify_returns (ctx : Context) (utx : UnsignedTx) :
    Returns (utx.syntacticVerify ctx) := by
  unfold syntacticVerify
  split
  · simp [AddValidatorTx.syntacticVerify, Validator.verify]
  · simp [AddSubnetValidatorTx.syntacticVerify, Validator.verify]
  · simp [AddDelegatorTx.syntacticVerify, Validator.verify]
  · simp [CreateChainTx.syntacticVerify]
  · simp [CreateSubnetTx.syntacticVerify]
  · simp [ImportTx.syntacticVerify]
  · simp [ExportTx.syntacticVerify]
  · simp
  · simp

@[simp] theorem Tx.syntacticVerify_returns (ctx : Context) (stx : Tx) :
    Returns (stx.syntacticVerify ctx) := by
  simp [syntacticVerify]

/-! ## The flow check -/

section Spend

variable (fx : Fx) (clk : Time) (utx : UnsignedTx)

@[simp] theorem Fx.verifyCredentials_returns (i : SigInput) (cred : Credential)
    (owner : OutputOwners) : Returns (fx.verifyCredentials clk utx i cred owner) := by
  simp [verifyCredentials, verifySig]

@[simp] theorem Fx.verifyPermission_returns (i : SigInput) (cred : Credential)
    (owner : OutputOwners) : Returns (fx.verifyPermission clk utx i cred owner) := by
  simp [verifyPermission]

/-- An input fails with its UTXO's asset or locktime, its credential or an overflow. -/
@[simp] theorem consumeInput_returns (consumed : Amounts) (i : TransferableInput)
    (cred : Credential) (u : UTXO) : Returns (consumeInput fx clk utx consumed i cred u) := by
  cases hlocktime : u.out.locktime <;> simp [consumeInput, Fx.verifyTransfer, TransferOutput.verify,
    TransferInput.verify, Amounts.addUnlocked, Amounts.addLocked, hlocktime]

@[simp] theorem produceOutput_returns (produced : Amounts) (o : TransferableOutput) :
    Returns (produceOutput produced o) := by
  rw [produceOutput]
  split <;> simp [Amounts.addUnlocked, Amounts.addLocked]

/-- The only error is that more is produced than consumed. -/
@[simp] theorem coverLocked_returns (lockedConsumed : List (LockKey × Nat))
    (unlockedConsumed : ID → Nat) (produced : LockKey × Nat) :
    Returns (coverLocked lockedConsumed unlockedConsumed produced) := by
  rw [coverLocked]
  split
  · dsimp only
    split <;> simp
  · simp

@[simp] theorem verifySpendUTXOs_returns (utxos : List UTXO) (ins : List TransferableInput)
    (outs : List TransferableOutput) (creds : List Credential) (unlockedProduced : List (ID × Nat)) :
    Returns (verifySpendUTXOs fx clk utx utxos ins outs creds unlockedProduced) := by
  simp [verifySpendUTXOs]

@[simp] theorem verifySpend_returns (utxoDB : UTXOID → Option UTXO) (ins : List TransferableInput)
    (outs : List TransferableOutput) (creds : List Credential) (unlockedProduced : List (ID × Nat)) :
    Returns (verifySpend fx clk utx utxoDB ins outs creds unlockedProduced) := by
  simp [verifySpend]

end Spend

/-- The subnet may be unknown, or its ID be that of another transaction. -/
@[simp] theorem getSubnetOwner_returns (c : Chain) (subnetID : ID) :
    Returns (getSubnetOwner c subnetID) := by
  simp only [getSubnetOwner, Except.failsOnly_bind_iff]
  refine ⟨by simp, fun subnet _ => ?_⟩
  split <;> simp

/-! ## Executors -/

section Executors

variable (b : Backend) (env : Env)

section

variable (parent : Chain) (state : Diff) (stx : Tx)

@[simp] theorem importTx_returns (tx : ImportTx) :
    Returns (importTx b env parent state stx tx) := by
  simp [importTx, verifyImport, sameSubnet]

@[simp] theorem exportTx_returns (tx : ExportTx) :
    Returns (exportTx b env parent state stx tx) := by
  simp [exportTx, sameSubnet]

/-- `StandardTxExecutor`. -/
@[simp] theorem standardTx_returns : Returns (standardTx b env parent state stx) := by
  rw [standardTx]
  split <;> simp [createChainTx, createSubnetTx]

/-- `AtomicTxExecutor`. -/
@[simp] theorem atomicTx_returns (parentID : ID) :
    Returns (atomicTx b env parent stx parentID) := by
  rw [atomicTx]
  split <;> simp

end

/-- A pending staker that becomes current may overflow the supply, or have an unexpected priority. -/
@[simp] theorem movePending_returns (rewards : RewardConfig) (m : Moved) (s : Staker) :
    Returns (movePending rewards m s) := by
  rw [movePending]
  split
  · simp
  split
  · simp
  · split <;> simp

@[simp] theorem addReward_returns (ctx : Context) (d : Diff) (txID : ID) (outputIndex amount : Nat)
    (owner : OutputOwners) : Returns (addReward ctx d txID outputIndex amount owner) := by
  rw [addReward]
  split <;> simp [Fx.createOutput]

/-- The validator of a delegator is looked up, and its transaction may be of the wrong type. -/
@[simp] theorem rewardDelegator_returns (c : Chain) (txID : ID) (onCommit onAbort : Diff) (s : Staker)
    (tx : AddDelegatorTx) : Returns (rewardDelegator b env c txID onCommit onAbort s tx) := by
  simp only [rewardDelegator, Except.failsOnly_bind_iff]
  refine ⟨by simp, fun _ _ => ⟨by simp, fun vdrTx _ => ?_⟩⟩
  split <;> simp [prefersReward]

variable (parentID : ID) (parent : Option Chain) (stx : Tx)

@[simp] theorem rewardValidatorTx_returns (txID : ID) :
    Returns (rewardValidatorTx b env parentID parent stx txID) := by
  simp only [rewardValidatorTx, Except.failsOnly_bind_iff, Except.failsOnly_failIf,
    Except.failsOnly_ofOption, ne_eq, reduceCtorEq, not_false_eq_true, true_and]
  intros
  split <;> simp [rewardValidator, prefersReward]

/-- `ProposalTxExecutor`. -/
@[simp] theorem proposalTx_returns : Returns (proposalTx b env parentID parent stx) := by
  rw [proposalTx]
  split
  · simp [addValidatorTx, verifyAddValidator, verifyStartTime, verifyDuration, verifyMaxStartTime]
  · simp [addSubnetValidatorTx, verifyAddSubnetValidator, verifyStartTime, verifyDuration,
      verifyMaxStartTime]
  · simp [addDelegatorTx, verifyAddDelegator, verifyStartTime, verifyDuration, verifyMaxStartTime]
  · simp [advanceTimeTx]
  · simp
  · simp

end Executors

end SavannahNode.PlatformVM
