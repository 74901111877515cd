import SavannahNode.ForStd.Except
import SavannahNode.Native.Stakers

/-!
# Transactions of the P-chain

The transaction types of `vms/platformvm/txs` with their syntactic checks, and the
components they are made of: inputs and outputs (`components/avax`, `secp256k1fx`,
`platformvm/stakeable`) and validators (`platformvm/validator`).

A pointer is never `nil` here, an output is a `secp256k1fx.TransferOutput` or a
`stakeable.LockOut` around one, and a UTXO is keyed by its transaction and output index
instead of their hash. The flag `SyntacticallyVerified` only repeats the result of the
check and is left out.
-/

namespace SavannahNode.PlatformVM

open Except

/-- The errors of the P-chain, by the names the source gives them or, where it only has a
    text, by what the text says. -/
inductive Err where
  | signedTxNotInitialized
  | tooManyShares
  | wrongNetworkID
  | wrongChainID
  | memoTooLong
  | emptyAssetID
  | noValueOutput
  | noValueInput
  | outputUnspendable
  | outputUnoptimized
  | addrsNotSortedUnique
  | notSortedUnique
  | invalidLocktime
  | outputsNotSorted
  | inputsNotSortedUnique
  | weightTooSmall
  | badSubnetID
  | overflow
  | stakeNotAVAX
  | weightMismatch
  | cantValidatePrimaryNetwork
  | nameTooLong
  | invalidVMID
  | fxIDsNotSortedAndUnique
  | genesisTooLong
  | illegalNameCharacter
  | noImportInputs
  | noExportOutputs
  | wrongLocktime
  | weightTooLarge
  | insufficientDelegationFee
  | stakeTooShort
  | stakeTooLong
  | missingParentState
  | emptyNodeID
  | startTimeNotAfterTimestamp
  | duplicateValidator
  | futureStakeTime
  | wrongNumberOfCredentials
  | missingPrimaryNetworkValidator
  | validatorSubset
  | unknownSubnet
  | notASubnet
  | stakeOverflow
  | overDelegated
  | timeTooFarInFuture
  | timestampNotAfter
  | timestampAfterStakerChange
  | noStakers
  | unexpectedPriority
  | invalidID
  | wrongStakerToRemove
  | notEndTime
  | missingStakerTx
  | missingValidator
  | missingValidatorTx
  | wrongTxType
  | shouldBeDSValidator
  | uptime
  | inputsCredentialsMismatch
  | inputsUTXOsMismatch
  | missingUTXO
  | assetMismatch
  | lockedFundsNotMarkedAsLocked
  | locktimeMismatch
  | amountMismatch
  | timelocked
  | tooManySigners
  | tooFewSigners
  | inputCredentialSignersMismatch
  | inputOutputIndexOutOfBounds
  | wrongSigner
  | producesMoreLocked
  | producesMoreUnlocked
  | sameChainID
  | mismatchedSubnetIDs
  | missingAtomicUTXO
  | customAssetBeforeBlueberry
  | missingBlock
  | wrongHeight
  | missingBlockState
  | atomicAfterApricotPhase5
  | conflictingBatchTxs
  | conflictingParentTxs
  /-- A `nil` diff is dereferenced: the source panics. -/
  | nilDiff
deriving DecidableEq, Repr

/-! ## Owners, outputs and inputs -/

/-- `ids.ShortID`, an address. -/
structure ShortID where
  toBits : BitVec 160
deriving DecidableEq, Repr

/-- The bytes of an address read as one number, whose order is that of `bytes.Compare`. -/
def ShortID.toNat (addr : ShortID) : Nat :=
  (List.range 20).foldl (fun n k => n * 256 + (addr.toBits.extractLsb' (8 * k) 8).toNat) 0

/-- A recoverable signature of 65 bytes. -/
abbrev Sig := BitVec 520

/-- `secp256k1fx.OutputOwners`. -/
structure OutputOwners where
  locktime : Nat
  threshold : Nat
  addrs : List ShortID
deriving DecidableEq, Repr

/-- `OutputOwners.Verify`. -/
def OutputOwners.verify (out : OutputOwners) : Except Err Unit := do
  failIf (out.threshold > out.addrs.length) .outputUnspendable
  failIf (out.threshold = 0 ∧ out.addrs.length > 0) .outputUnoptimized
  failIf (¬out.addrs.IsChain fun a b => a.toNat < b.toNat) .addrsNotSortedUnique

/-- `secp256k1fx.TransferOutput`. -/
structure TransferOutput where
  amt : Nat
  owners : OutputOwners
deriving DecidableEq, Repr

/-- `TransferOutput.Verify`. -/
def TransferOutput.verify (out : TransferOutput) : Except Err Unit := do
  failIf (out.amt = 0) .noValueOutput
  out.owners.verify

/-- An output: a transfer output, in a `stakeable.LockOut` if `locktime` is given. -/
structure Output where
  locktime : Option Nat
  out : TransferOutput
deriving DecidableEq, Repr

/-- `Amount` of an output. -/
def Output.amount (out : Output) : Nat := out.out.amt

/-- `Verify` of an output. -/
def Output.verify (out : Output) : Except Err Unit := do
  failIf (out.locktime = some 0) .invalidLocktime
  out.out.verify

/-- `secp256k1fx.Input`. -/
structure SigInput where
  sigIndices : List Nat
deriving DecidableEq, Repr

/-- `Input.Verify`. -/
def SigInput.verify (i : SigInput) : Except Err Unit :=
  failIf (¬i.sigIndices.IsChain (· < ·)) .notSortedUnique

/-- `secp256k1fx.TransferInput`. -/
structure TransferInput where
  amt : Nat
  input : SigInput
deriving DecidableEq, Repr

/-- `TransferInput.Verify`. -/
def TransferInput.verify (i : TransferInput) : Except Err Unit := do
  failIf (i.amt = 0) .noValueInput
  i.input.verify

/-- An input: a transfer input, in a `stakeable.LockIn` if `locktime` is given. -/
structure Input where
  locktime : Option Nat
  input : TransferInput
deriving DecidableEq, Repr

/-- `Verify` of an input. -/
def Input.verify (i : Input) : Except Err Unit := do
  failIf (i.locktime = some 0) .invalidLocktime
  i.input.verify

/-- `secp256k1fx.Credential`. -/
structure Credential where
  sigs : List Sig
deriving DecidableEq, Repr

/-- `avax.UTXOID`. -/
structure UTXOID where
  txID : ID
  outputIndex : Nat
deriving DecidableEq, Repr

/-- `Less` of two inputs: by transaction, then by output index. -/
def UTXOID.less (a b : UTXOID) : Bool :=
  if a.txID.toNat < b.txID.toNat then true
  else if b.txID.toNat < a.txID.toNat then false
  else a.outputIndex < b.outputIndex

/-- `avax.UTXO`. -/
structure UTXO where
  utxoID : UTXOID
  assetID : ID
  out : Output
deriving DecidableEq, Repr

/-- `avax.TransferableOutput`. -/
structure TransferableOutput where
  assetID : ID
  out : Output
deriving DecidableEq, Repr

/-- `TransferableOutput.Verify`. -/
def TransferableOutput.verify (out : TransferableOutput) : Except Err Unit := do
  failIf (out.assetID = ID.empty) .emptyAssetID
  out.out.verify

/-- `avax.TransferableInput`. -/
structure TransferableInput where
  utxoID : UTXOID
  assetID : ID
  input : Input
deriving DecidableEq, Repr

/-- `TransferableInput.Verify`. -/
def TransferableInput.verify (i : TransferableInput) : Except Err Unit := do
  failIf (i.assetID = ID.empty) .emptyAssetID
  i.input.verify

/-- `IsSortedAndUniqueTransferableInputs`. -/
def isSortedAndUniqueInputs (ins : List TransferableInput) : Prop :=
  ins.IsChain fun a b => a.utxoID.less b.utxoID

instance (ins : List TransferableInput) : Decidable (isSortedAndUniqueInputs ins) :=
  inferInstanceAs (Decidable (ins.IsChain _))

/-- The part of `snow.Context` that transactions are checked against. -/
structure Context where
  networkID : Nat
  subnetID : ID
  chainID : ID
  avaxAssetID : ID
  /-- `SNLookup.SubnetID`. -/
  subnetOf : ID → Option ID
  /-- Whether the bytes of one output are before those of another. -/
  marshalledLess : Output → Output → Bool

/-- `IsSortedTransferableOutputs`: no output is less than the one before it. -/
def isSortedOutputs (ctx : Context) (outs : List TransferableOutput) : Prop :=
  outs.IsChain fun a b =>
    ¬(b.assetID.toNat < a.assetID.toNat ∨
      b.assetID.toNat = a.assetID.toNat ∧ ctx.marshalledLess b.out a.out = true)

instance (ctx : Context) (outs : List TransferableOutput) : Decidable (isSortedOutputs ctx outs) :=
  inferInstanceAs (Decidable (outs.IsChain _))

/-! ## Transactions -/

/-- `avax.BaseTx`. -/
structure BaseTx where
  networkID : Nat
  blockchainID : ID
  outs : List TransferableOutput
  ins : List TransferableInput
  memo : List UInt8
deriving DecidableEq

/-- `MaxMemoSize`. -/
def maxMemoSize : Nat := 256

/-- `BaseTx.SyntacticVerify`. -/
def BaseTx.syntacticVerify (ctx : Context) (tx : BaseTx) : Except Err Unit := do
  failIf (tx.networkID ≠ ctx.networkID) .wrongNetworkID
  failIf (tx.blockchainID ≠ ctx.chainID) .wrongChainID
  failIf (tx.memo.length > maxMemoSize) .memoTooLong
  tx.outs.forM TransferableOutput.verify
  tx.ins.forM TransferableInput.verify
  failIf (¬isSortedOutputs ctx tx.outs) .outputsNotSorted
  failIf (¬isSortedAndUniqueInputs tx.ins) .inputsNotSortedUnique

/-- `validator.Validator`: times in seconds since the Unix epoch. -/
structure Validator where
  nodeID : NodeID
  start : Nat
  stop : Nat
  wght : Nat
deriving DecidableEq, Repr

namespace Validator

/-- `StartTime`. -/
def startTime (v : Validator) : Time := .unix v.start

/-- `EndTime`. -/
def endTime (v : Validator) : Time := .unix v.stop

/-- `Duration`. -/
def duration (v : Validator) : Duration := Time.sub v.endTime v.startTime

/-- `Verify`. -/
def verify (v : Validator) : Except Err Unit := failIf (v.wght = 0) .weightTooSmall

/-- `BoundedBy`. -/
def boundedBy (v : Validator) (startTime endTime : Time) : Prop :=
  ¬v.startTime < startTime ∧ ¬endTime < v.endTime

instance (v : Validator) (startTime endTime : Time) : Decidable (v.boundedBy startTime endTime) :=
  inferInstanceAs (Decidable (_ ∧ _))

end Validator

/-- `reward.PercentDenominator`. -/
def percentDenominator : Nat := 1000000

/-- The stake of `AddValidatorTx` and `AddDelegatorTx`: AVAX outputs that add up to the
    weight. -/
def verifyStake (ctx : Context) (v : Validator) (stake : List TransferableOutput) :
    Except Err Unit := do
  let totalStakeWeight ← stake.foldlM (fun total out => do
    out.verify
    let newWeight ← ofOption .overflow (add64 total out.out.amount)
    failIf (out.assetID ≠ ctx.avaxAssetID) .stakeNotAVAX
    .ok newWeight) 0
  failIf (¬isSortedOutputs ctx stake) .outputsNotSorted
  failIf (totalStakeWeight ≠ v.wght) .weightMismatch

/-- `txs.AddValidatorTx`. -/
structure AddValidatorTx where
  base : BaseTx
  validator : Validator
  stake : List TransferableOutput
  rewardsOwner : OutputOwners
  shares : Nat
deriving DecidableEq

/-- `AddValidatorTx.SyntacticVerify`. -/
def AddValidatorTx.syntacticVerify (ctx : Context) (tx : AddValidatorTx) : Except Err Unit := do
  failIf (tx.shares > percentDenominator) .tooManyShares
  tx.base.syntacticVerify ctx
  tx.validator.verify
  tx.rewardsOwner.verify
  verifyStake ctx tx.validator tx.stake

/-- `txs.AddSubnetValidatorTx`. -/
structure AddSubnetValidatorTx where
  base : BaseTx
  validator : Validator
  subnet : ID
  subnetAuth : SigInput
deriving DecidableEq

/-- `AddSubnetValidatorTx.SyntacticVerify`. -/
def AddSubnetValidatorTx.syntacticVerify (ctx : Context) (tx : AddSubnetValidatorTx) :
    Except Err Unit := do
  tx.base.syntacticVerify ctx
  failIf (tx.subnet = primaryNetworkID) .badSubnetID
  tx.validator.verify
  tx.subnetAuth.verify

/-- `txs.AddDelegatorTx`. -/
structure AddDelegatorTx where
  base : BaseTx
  validator : Validator
  stake : List TransferableOutput
  rewardsOwner : OutputOwners
deriving DecidableEq

/-- `AddDelegatorTx.SyntacticVerify`. -/
def AddDelegatorTx.syntacticVerify (ctx : Context) (tx : AddDelegatorTx) : Except Err Unit := do
  tx.base.syntacticVerify ctx
  tx.validator.verify
  tx.rewardsOwner.verify
  verifyStake ctx tx.validator tx.stake

/-- `txs.CreateChainTx`. -/
structure CreateChainTx where
  base : BaseTx
  subnetID : ID
  chainName : String
  vmID : ID
  fxIDs : List ID
  genesisData : List UInt8
  subnetAuth : SigInput
deriving DecidableEq

/-- `MaxNameLen`. -/
def maxNameLen : Nat := 128

/-- `MaxGenesisLen`, one MiB. -/
def maxGenesisLen : Nat := 1024 * 1024

/-- `CreateChainTx.SyntacticVerify`. -/
def CreateChainTx.syntacticVerify (ctx : Context) (tx : CreateChainTx) : Except Err Unit := do
  failIf (tx.subnetID = primaryNetworkID) .cantValidatePrimaryNetwork
  failIf (tx.chainName.utf8ByteSize > maxNameLen) .nameTooLong
  failIf (tx.vmID = ID.empty) .invalidVMID
  failIf (¬tx.fxIDs.IsChain fun a b => a.toNat < b.toNat) .fxIDsNotSortedAndUnique
  failIf (tx.genesisData.length > maxGenesisLen) .genesisTooLong
  -- `isAlpha` and `isDigit` are true of ASCII characters only
  failIf (tx.chainName.toList.any fun r => !(r.isAlpha || r.isDigit || r == ' '))
    .illegalNameCharacter
  tx.base.syntacticVerify ctx
  tx.subnetAuth.verify

/-- `txs.CreateSubnetTx`. -/
structure CreateSubnetTx where
  base : BaseTx
  owner : OutputOwners
deriving DecidableEq

/-- `CreateSubnetTx.SyntacticVerify`. -/
def CreateSubnetTx.syntacticVerify (ctx : Context) (tx : CreateSubnetTx) : Except Err Unit := do
  tx.base.syntacticVerify ctx
  tx.owner.verify

/-- `txs.ImportTx`. -/
structure ImportTx where
  base : BaseTx
  sourceChain : ID
  importedInputs : List TransferableInput
deriving DecidableEq

/-- `ImportTx.SyntacticVerify`. -/
def ImportTx.syntacticVerify (ctx : Context) (tx : ImportTx) : Except Err Unit := do
  failIf (tx.importedInputs.length = 0) .noImportInputs
  tx.base.syntacticVerify ctx
  tx.importedInputs.forM TransferableInput.verify
  failIf (¬isSortedAndUniqueInputs tx.importedInputs) .inputsNotSortedUnique

/-- `txs.ExportTx`. -/
structure ExportTx where
  base : BaseTx
  destinationChain : ID
  exportedOutputs : List TransferableOutput
deriving DecidableEq

/-- `ExportTx.SyntacticVerify`. -/
def ExportTx.syntacticVerify (ctx : Context) (tx : ExportTx) : Except Err Unit := do
  failIf (tx.exportedOutputs.length = 0) .noExportOutputs
  tx.base.syntacticVerify ctx
  tx.exportedOutputs.forM fun out => do
    out.verify
    failIf out.out.locktime.isSome .wrongLocktime
  failIf (¬isSortedOutputs ctx tx.exportedOutputs) .outputsNotSorted

/-- `txs.UnsignedTx`. -/
inductive UnsignedTx where
  | addValidator (tx : AddValidatorTx)
  | addSubnetValidator (tx : AddSubnetValidatorTx)
  | addDelegator (tx : AddDelegatorTx)
  | createChain (tx : CreateChainTx)
  | createSubnet (tx : CreateSubnetTx)
  | importTx (tx : ImportTx)
  | exportTx (tx : ExportTx)
  /-- `AdvanceTimeTx`, with the proposed time in seconds since the Unix epoch. -/
  | advanceTime (time : Nat)
  /-- `RewardValidatorTx`, with the transaction that added the staker. -/
  | rewardValidator (txID : ID)
deriving DecidableEq

/-- `UnsignedTx.SyntacticVerify`. -/
def UnsignedTx.syntacticVerify (ctx : Context) : UnsignedTx → Except Err Unit
  | .addValidator tx => tx.syntacticVerify ctx
  | .addSubnetValidator tx => tx.syntacticVerify ctx
  | .addDelegator tx => tx.syntacticVerify ctx
  | .createChain tx => tx.syntacticVerify ctx
  | .createSubnet tx => tx.syntacticVerify ctx
  | .importTx tx => tx.syntacticVerify ctx
  | .exportTx tx => tx.syntacticVerify ctx
  | .advanceTime _ => .ok ()
  | .rewardValidator _ => .ok ()

/-- `txs.Tx`: a signed transaction. The ID is the hash of its bytes. -/
structure Tx where
  id : ID
  unsigned : UnsignedTx
  creds : List Credential
deriving DecidableEq

/-- `Tx.SyntacticVerify`. -/
def Tx.syntacticVerify (ctx : Context) (tx : Tx) : Except Err Unit := do
  failIf (tx.id = ID.empty) .signedTxNotInitialized
  tx.unsigned.syntacticVerify ctx

/-- `status.Status` of a transaction in the state. -/
inductive TxStatus where
  | committed
  | aborted
deriving DecidableEq, Repr

/-- `NewPrimaryNetworkStaker`. -/
def newPrimaryNetworkStaker (txID : ID) (vdr : Validator) (nextTime : Time) (priority : Priority) :
    Staker :=
  { txID
    nodeID := vdr.nodeID
    subnetID := primaryNetworkID
    weight := vdr.wght
    startTime := vdr.startTime
    endTime := vdr.endTime
    potentialReward := 0
    nextTime
    priority }

/-- `NewSubnetStaker`. -/
def newSubnetStaker (txID : ID) (vdr : Validator) (subnet : ID) (nextTime : Time)
    (priority : Priority) : Staker :=
  { newPrimaryNetworkStaker txID vdr nextTime priority with subnetID := subnet }

end SavannahNode.PlatformVM
