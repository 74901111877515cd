import SavannahNode.Native.PlatformState

/-!
# The flow check

`VerifySpend` of `vms/platformvm/utxo/handler.go` and the feature extension it asks whether
an input may spend an output (`vms/secp256k1fx/fx.go`). Amounts are counted per asset, and
locked amounts per asset, locktime and owner; the owner stands for the hash of its bytes.
Go ranges over the maps at the end in any order, here it is the order in which the keys were
added: the check succeeds in one order if it does in another.
-/

namespace SavannahNode.PlatformVM

open Except

/-! ## The feature extension -/

/-- What `secp256k1fx.Fx` needs from outside. -/
structure Fx where
  bootstrapped : Bool
  /-- The address of the public key `RecoverHashPublicKey` returns for the hash of the
      transaction and a signature. -/
  recover : UnsignedTx → Sig → Option ShortID

namespace Fx

section

variable (fx : Fx) (clk : Time) (utx : UnsignedTx) (i : SigInput) (cred : Credential)
  (out : OutputOwners)

/-- One signature of `VerifyCredentials`. -/
def verifySig (index : Nat) (sig : Sig) : Except Err Unit := do
  let expectedAddress ← ofOption .inputOutputIndexOutOfBounds (out.addrs[index]?)
  failIf (fx.recover utx sig ≠ some expectedAddress) .wrongSigner

/-- `VerifyCredentials`. -/
def verifyCredentials : Except Err Unit := do
  let numSigs := i.sigIndices.length
  -- `Clock.Unix` is zero before the epoch
  failIf (out.locktime > (clk / Time.second - Time.unixToInternal).toNat) .timelocked
  failIf (out.threshold < numSigs) .tooManySigners
  failIf (out.threshold > numSigs) .tooFewSigners
  failIf (numSigs ≠ cred.sigs.length) .inputCredentialSignersMismatch
  onlyIf fx.bootstrapped
    ((i.sigIndices.zip cred.sigs).forM fun p => fx.verifySig utx out p.1 p.2)

/-- `VerifyTransfer`. -/
def verifyTransfer (i : TransferInput) (cred : Credential)
    (utxo : TransferOutput) : Except Err Unit := do
  utxo.verify
  i.verify
  failIf (utxo.amt ≠ i.amt) .amountMismatch
  fx.verifyCredentials clk utx i.input cred utxo.owners

/-- `VerifyPermission`. -/
def verifyPermission (owner : OutputOwners) : Except Err Unit := do
  i.verify
  owner.verify
  fx.verifyCredentials clk utx i cred owner

end

/-- `CreateOutput`. -/
def createOutput (amount : Nat) (owner : OutputOwners) : Except Err Output := do
  owner.verify
  .ok { locktime := none, out := { amt := amount, owners := owner } }

end Fx

/-! ## Amounts in and out -/

/-- The key of a locked amount: asset, locktime and owner. -/
structure LockKey where
  assetID : ID
  locktime : Nat
  owner : OutputOwners
deriving DecidableEq, Repr

/-- `unlockedConsumed` and `lockedConsumed`, or `unlockedProduced` and `lockedProduced`. -/
structure Amounts where
  unlocked : List (ID × Nat)
  locked : List (LockKey × Nat)

namespace Amounts

/-- Add to an unlocked amount. -/
def addUnlocked (a : Amounts) (assetID : ID) (amount : Nat) : Except Err Amounts := do
  let _ ← ofOption .overflow (add64 (a.unlocked.countOf assetID) amount)
  .ok { a with unlocked := a.unlocked.bump assetID amount }

/-- Add to a locked amount. -/
def addLocked (a : Amounts) (key : LockKey) (amount : Nat) : Except Err Amounts := do
  let _ ← ofOption .overflow (add64 (a.locked.countOf key) amount)
  .ok { a with locked := a.locked.bump key amount }

end Amounts

/-- One input of `VerifySpendUTXOs`, with its credential and the UTXO it consumes. -/
def consumeInput (fx : Fx) (clk : Time) (utx : UnsignedTx) (consumed : Amounts)
    (input : TransferableInput) (cred : Credential) (utxo : UTXO) : Except Err Amounts := do
  let now := clk.unixSeconds
  failIf (utxo.assetID ≠ input.assetID) .assetMismatch
  let locktime := utxo.out.locktime.getD 0
  failIf (now < locktime ∧ input.input.locktime = none) .lockedFundsNotMarkedAsLocked
  failIf (∃ l ∈ input.input.locktime, l ≠ locktime) .locktimeMismatch
  fx.verifyTransfer clk utx input.input.input cred utxo.out.out
  let amount := input.input.input.amt
  if now ≥ locktime then consumed.addUnlocked utxo.assetID amount
  else consumed.addLocked { assetID := utxo.assetID, locktime, owner := utxo.out.out.owners } amount

/-- One output of `VerifySpendUTXOs`. -/
def produceOutput (produced : Amounts) (out : TransferableOutput) : Except Err Amounts :=
  let locktime := out.out.locktime.getD 0
  if locktime = 0 then produced.addUnlocked out.assetID out.out.amount
  else produced.addLocked { assetID := out.assetID, locktime, owner := out.out.out.owners } out.out.amount

/-- A locked amount is produced from the locked amount consumed, and else from what is
    unlocked. -/
def coverLocked (lockedConsumed : List (LockKey × Nat)) (unlockedConsumed : ID → Nat)
    (produced : LockKey × Nat) : Except Err (ID → Nat) :=
  let consumedAmount := lockedConsumed.countOf produced.1
  if produced.2 > consumedAmount then
    let increase := produced.2 - consumedAmount
    let unlockedConsumedAsset := unlockedConsumed produced.1.assetID
    if increase > unlockedConsumedAsset then .error .producesMoreLocked
    else .ok (Function.update unlockedConsumed produced.1.assetID (unlockedConsumedAsset - increase))
  else .ok unlockedConsumed

/-- `VerifySpendUTXOs`. -/
def verifySpendUTXOs (fx : Fx) (clk : Time) (utx : UnsignedTx) (utxos : List UTXO)
    (ins : List TransferableInput) (outs : List TransferableOutput) (creds : List Credential)
    (unlockedProduced : List (ID × Nat)) : Except Err Unit := do
  failIf (ins.length ≠ creds.length) .inputsCredentialsMismatch
  failIf (ins.length ≠ utxos.length) .inputsUTXOsMismatch
  let consumed ← (ins.zip (creds.zip utxos)).foldlM
    (fun consumed p => consumeInput fx clk utx consumed p.1 p.2.1 p.2.2) { unlocked := [], locked := [] }
  let produced ← outs.foldlM produceOutput { unlocked := unlockedProduced, locked := [] }
  let unlockedConsumed ← produced.locked.foldlM (coverLocked consumed.locked) consumed.unlocked.countOf
  produced.unlocked.forM fun p => failIf (p.2 > unlockedConsumed p.1) .producesMoreUnlocked

/-- `VerifySpend`. -/
def verifySpend (fx : Fx) (clk : Time) (utx : UnsignedTx) (utxoDB : UTXOID → Option UTXO)
    (ins : List TransferableInput) (outs : List TransferableOutput) (creds : List Credential)
    (unlockedProduced : List (ID × Nat)) : Except Err Unit := do
  let utxos ← ins.mapM fun input => ofOption Err.missingUTXO (utxoDB input.utxoID)
  verifySpendUTXOs fx clk utx utxos ins outs creds unlockedProduced

end SavannahNode.PlatformVM
