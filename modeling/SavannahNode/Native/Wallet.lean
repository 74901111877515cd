import SavannahNode.Native.PlatformStore

/-!
# The P-chain wallet

The builder of `wallet/chain/p/builder.go`, which selects UTXOs and makes unsigned
transactions out of them, and the signer of `signer_visitor.go`, which fills in the
credentials.

The UTXOs of the backend are a map, so that every call visits them in an order that Go leaves
open; `Ranges` has the orders of one call. An output is a transfer output, in a
`stakeable.LockOut` or not, as in the rest of the P-chain. Balances, and what the wallet does
after a transaction was issued, are left out.
-/

namespace SavannahNode

/-- Visit addresses as ascending numbers. -/
def RangeOrder.addrs : RangeOrder PlatformVM.ShortID :=
  .ascending (fun addr => addr.toBits.toNat) (by
    rintro ⟨a⟩ ⟨b⟩ h
    exact congrArg _ (BitVec.eq_of_toNat_eq h))

namespace Wallet

open PlatformVM Except

/-- `constants.PlatformChainID`. -/
def platformChainID : ID := ID.empty

/-- The errors of the wallet, by the names the source gives them. -/
inductive Err where
  | noChangeAddress
  /-- `errInsufficientFunds`, with the amount of the asset that is missing. -/
  | insufficientStake (amount : Nat) (assetID : ID)
  | insufficientFunds (amount : Nat) (assetID : ID)
  | noImportableFunds
  | insufficientAuthorization
  | overflow
  | unknownTx
  | wrongTxType
  | unsupportedTxType
  | unknownInputType
  | invalidUTXOSigIndex
deriving DecidableEq, Repr

/-! ## The backend -/

/-- `p.Context`. -/
structure Context where
  networkID : Nat
  avaxAssetID : ID
  baseTxFee : Nat
  createSubnetTxFee : Nat
  createBlockchainTxFee : Nat
deriving DecidableEq, Repr

/-- The UTXOs from one chain, by ID. -/
abbrev UTXOs := Finmap fun _ : UTXOID => TransferableOutput

/-- `GetUTXO`. -/
def UTXOs.get (utxos : UTXOs) (id : UTXOID) : Option UTXO :=
  (utxos.lookup id).map fun o => { utxoID := id, assetID := o.assetID, out := o.out }

/-- `UTXOs`. -/
def UTXOs.all (utxos : UTXOs) (order : RangeOrder UTXOID) : List UTXO :=
  (order.list utxos.keys).filterMap utxos.get

/-- `BuilderBackend` and `SignerBackend`. -/
structure Backend where
  ctx : Context
  /-- The UTXOs by source chain. -/
  utxos : ID → UTXOs
  /-- `GetTx`: the unsigned part of a transaction. -/
  tx : ID → Option UnsignedTx
  /-- Whether the bytes of one output are before those of another. -/
  marshalledLess : Output → Output → Bool

/-- `common.Options`, with the minimum issuance time that `MinIssuanceTime` returns. -/
structure Options where
  customAddresses : Option (Finset ShortID)
  minIssuanceTime : Nat
  changeOwner : Option OutputOwners
  memo : List UInt8

/-- The orders in which one call visits maps: the UTXOs to import, those to spend, amounts by
    asset, and the addresses of the builder. -/
structure Ranges where
  imports : RangeOrder UTXOID
  spends : RangeOrder UTXOID
  assets : RangeOrder ID
  addrs : RangeOrder ShortID

/-- All in ascending order. -/
def Ranges.ascending : Ranges :=
  { imports := .utxoIDs, spends := .utxoIDs, assets := .ids, addrs := .addrs }

/-- `SortTransferableInputs`. -/
def sortInputs (ins : List TransferableInput) : List TransferableInput :=
  ins.insertionSort fun a b => ¬b.utxoID.less a.utxoID

/-- `SortTransferableOutputs`. -/
def sortOutputs (marshalledLess : Output → Output → Bool) (outs : List TransferableOutput) :
    List TransferableOutput :=
  outs.insertionSort fun a b =>
    ¬(b.assetID.toNat < a.assetID.toNat ∨
      b.assetID.toNat = a.assetID.toNat ∧ marshalledLess b.out a.out = true)

/-- `ids.SortShortIDs` on the addresses of an owner. -/
def sortAddrs (owner : OutputOwners) : OutputOwners :=
  { owner with addrs := owner.addrs.insertionSort fun a b => a.toNat ≤ b.toNat }

/-- `ids.SortIDs`. -/
def sortIDs (l : List ID) : List ID := l.insertionSort fun a b => a.toNat ≤ b.toNat

/-- The loop of `MatchOwners`. -/
def matchLoop (addrs : Finset ShortID) (threshold : Nat) : List ShortID → Nat → List Nat → List Nat
  | [], _, sigs => sigs
  | addr :: rest, i, sigs =>
    if sigs.length < threshold then
      matchLoop addrs threshold rest (i + 1) (if addr ∈ addrs then sigs ++ [i] else sigs)
    else sigs

/-- `MatchOwners`: the indices of addresses that reach the threshold. -/
def matchOwners (owners : OutputOwners) (addrs : Finset ShortID) (minIssuanceTime : Nat) :
    Option (List Nat) :=
  if owners.locktime > minIssuanceTime then none
  else
    let sigs := matchLoop addrs owners.threshold owners.addrs 0 []
    if sigs.length = owners.threshold then some sigs else none

/-! ## Selecting UTXOs -/

/-- An amount of a map that has no entry for zero. -/
def amount (m : IDMap Nat) (assetID : ID) : Nat := (m.lookup assetID).getD 0

/-- The input that spends a UTXO, in a `stakeable.LockIn` if `locktime` is given. -/
def inputOf (utxo : UTXO) (locktime : Option Nat) (sigIndices : List Nat) : TransferableInput :=
  { utxoID := utxo.utxoID
    assetID := utxo.assetID
    input := { locktime, input := { amt := utxo.out.out.amt, input := { sigIndices } } } }

/-- An output of the asset of a UTXO. -/
def outputOf (utxo : UTXO) (locktime : Option Nat) (amt : Nat) (owners : OutputOwners) :
    TransferableOutput :=
  { assetID := utxo.assetID, out := { locktime, out := { amt, owners } } }

/-- What `spend` has selected so far, and what it still needs. -/
structure Spending where
  toBurn : IDMap Nat
  toStake : IDMap Nat
  inputs : List TransferableInput
  changeOutputs : List TransferableOutput
  stakeOutputs : List TransferableOutput

/-- The loop body of `spend` over the locked UTXOs, which can only be staked. -/
def spendLocked (addrs : Finset ShortID) (minIssuanceTime : Nat) (s : Spending) (utxo : UTXO) :
    Spending :=
  let remainingAmountToStake := amount s.toStake utxo.assetID
  if remainingAmountToStake = 0 then s
  else
    match utxo.out.locktime with
    | none => s
    | some locktime =>
      if minIssuanceTime ≥ locktime then s
      else
        let out := utxo.out.out
        match matchOwners out.owners addrs minIssuanceTime with
        | none => s
        | some inputSigIndices =>
          let amountToStake := min remainingAmountToStake out.amt
          let remainingAmount := out.amt - amountToStake
          { s with
            inputs := s.inputs ++ [inputOf utxo (some locktime) inputSigIndices]
            stakeOutputs := s.stakeOutputs ++ [outputOf utxo (some locktime) amountToStake out.owners]
            toStake := s.toStake.insert utxo.assetID (remainingAmountToStake - amountToStake)
            -- extra value must be returned
            changeOutputs := s.changeOutputs ++
              if remainingAmount > 0 then [outputOf utxo (some locktime) remainingAmount out.owners]
              else [] }

/-- The loop body of `spend` over the unlocked UTXOs. -/
def spendUnlocked (addrs : Finset ShortID) (minIssuanceTime : Nat) (changeOwner : OutputOwners)
    (s : Spending) (utxo : UTXO) : Spending :=
  let remainingAmountToStake := amount s.toStake utxo.assetID
  let remainingAmountToBurn := amount s.toBurn utxo.assetID
  if remainingAmountToStake = 0 ∧ remainingAmountToBurn = 0 then s
  else if utxo.out.locktime.getD 0 > minIssuanceTime then s
  else
    let out := utxo.out.out
    match matchOwners out.owners addrs minIssuanceTime with
    | none => s
    | some inputSigIndices =>
      let amountToBurn := min remainingAmountToBurn out.amt
      let amountAvailableToStake := out.amt - amountToBurn
      let amountToStake := min remainingAmountToStake amountAvailableToStake
      let remainingAmount := amountAvailableToStake - amountToStake
      { inputs := s.inputs ++ [inputOf utxo none inputSigIndices]
        toBurn := s.toBurn.insert utxo.assetID (remainingAmountToBurn - amountToBurn)
        toStake := s.toStake.insert utxo.assetID (remainingAmountToStake - amountToStake)
        stakeOutputs := s.stakeOutputs ++
          if amountToStake > 0 then [outputOf utxo none amountToStake changeOwner] else []
        changeOutputs := s.changeOutputs ++
          if remainingAmount > 0 then [outputOf utxo none remainingAmount changeOwner] else [] }

/-- `builder`. -/
structure Builder where
  addrs : Finset ShortID
  backend : Backend

namespace Builder

variable (b : Builder) (r : Ranges) (ops : Options)

/-- `options.Addresses(b.addrs)`. -/
def addresses : Finset ShortID := ops.customAddresses.getD b.addrs

/-- The loops of `spend` over the UTXOs. -/
def select (changeOwner : OutputOwners) (toBurn toStake : IDMap Nat) : Spending :=
  let addrs := b.addresses ops
  let utxos := (b.backend.utxos platformChainID).all r.spends
  let s := utxos.foldl (spendLocked addrs ops.minIssuanceTime)
    { toBurn, toStake, inputs := [], changeOutputs := [], stakeOutputs := [] }
  utxos.foldl (spendUnlocked addrs ops.minIssuanceTime changeOwner) s

/-- `spend`: the inputs, the change outputs and the stake outputs. -/
def spend (toBurn toStake : IDMap Nat) :
    Except Err (List TransferableInput × List TransferableOutput × List TransferableOutput) := do
  let addr ← ofOption .noChangeAddress (r.addrs.list (b.addresses ops)).head?
  let changeOwner := ops.changeOwner.getD { locktime := 0, threshold := 1, addrs := [addr] }
  let s := b.select r ops changeOwner toBurn toStake
  (RangeOrder.entries r.assets s.toStake).forM fun p =>
    failIf (p.2 ≠ 0) (.insufficientStake p.2 p.1)
  (RangeOrder.entries r.assets s.toBurn).forM fun p =>
    failIf (p.2 ≠ 0) (.insufficientFunds p.2 p.1)
  .ok (sortInputs s.inputs, sortOutputs b.backend.marshalledLess s.changeOutputs,
    sortOutputs b.backend.marshalledLess s.stakeOutputs)

/-- `authorizeSubnet`. -/
def authorizeSubnet (subnetID : ID) : Except Err SigInput := do
  let subnet ← ofOption .unknownTx (b.backend.tx subnetID)
  match subnet with
  | .createSubnet tx =>
    let sigIndices ← ofOption .insufficientAuthorization
      (matchOwners tx.owner (b.addresses ops) ops.minIssuanceTime)
    .ok { sigIndices }
  | _ => .error .wrongTxType

/-! ## The transactions -/

/-- The base of a transaction. -/
def baseTx (ins : List TransferableInput) (outs : List TransferableOutput) : BaseTx :=
  { networkID := b.backend.ctx.networkID
    blockchainID := platformChainID
    outs
    ins
    memo := ops.memo }

/-- The amounts to burn for a fee and for outputs that are made elsewhere. -/
def burnFor (fee : Nat) (outputs : List TransferableOutput) : Except Err (IDMap Nat) :=
  outputs.foldlM (fun toBurn out => do
    let amountToBurn ← ofOption .overflow (add64 (amount toBurn out.assetID) out.out.amount)
    .ok (toBurn.insert out.assetID amountToBurn))
    (Finmap.singleton b.backend.ctx.avaxAssetID fee)

/-- `NewBaseTx`: a subnet without an owner is created on the way. -/
def newBaseTx (outputs : List TransferableOutput) : Except Err UnsignedTx := do
  let toBurn ← b.burnFor b.backend.ctx.createSubnetTxFee outputs
  let (inputs, changeOutputs, _) ← b.spend r ops toBurn ∅
  .ok (.createSubnet
    { base := b.baseTx ops inputs (sortOutputs b.backend.marshalledLess (outputs ++ changeOutputs))
      owner := { locktime := 0, threshold := 0, addrs := [] } })

/-- `NewAddValidatorTx`. -/
def newAddValidatorTx (vdr : Validator) (rewardsOwner : OutputOwners) (shares : Nat) :
    Except Err UnsignedTx := do
  let (inputs, baseOutputs, stakeOutputs) ←
    b.spend r ops ∅ (Finmap.singleton b.backend.ctx.avaxAssetID vdr.wght)
  .ok (.addValidator
    { base := b.baseTx ops inputs baseOutputs
      validator := vdr
      stake := stakeOutputs
      rewardsOwner := sortAddrs rewardsOwner
      shares })

/-- `NewAddSubnetValidatorTx`. -/
def newAddSubnetValidatorTx (vdr : Validator) (subnet : ID) : Except Err UnsignedTx := do
  let (inputs, outputs, _) ←
    b.spend r ops (Finmap.singleton b.backend.ctx.avaxAssetID b.backend.ctx.createSubnetTxFee) ∅
  let subnetAuth ← b.authorizeSubnet ops subnet
  .ok (.addSubnetValidator
    { base := b.baseTx ops inputs outputs, validator := vdr, subnet, subnetAuth })

/-- `NewAddDelegatorTx`. -/
def newAddDelegatorTx (vdr : Validator) (rewardsOwner : OutputOwners) : Except Err UnsignedTx := do
  let (inputs, baseOutputs, stakeOutputs) ←
    b.spend r ops ∅ (Finmap.singleton b.backend.ctx.avaxAssetID vdr.wght)
  .ok (.addDelegator
    { base := b.baseTx ops inputs baseOutputs
      validator := vdr
      stake := stakeOutputs
      rewardsOwner := sortAddrs rewardsOwner })

/-- `NewCreateChainTx`. It pays the fee of a subnet, as the source does. -/
def newCreateChainTx (subnetID : ID) (genesis : List UInt8) (vmID : ID) (fxIDs : List ID)
    (chainName : String) : Except Err UnsignedTx := do
  let (inputs, outputs, _) ←
    b.spend r ops (Finmap.singleton b.backend.ctx.avaxAssetID b.backend.ctx.createSubnetTxFee) ∅
  let subnetAuth ← b.authorizeSubnet ops subnetID
  .ok (.createChain
    { base := b.baseTx ops inputs outputs
      subnetID
      chainName
      vmID
      fxIDs := sortIDs fxIDs
      genesisData := genesis
      subnetAuth })

/-- `NewCreateSubnetTx`. -/
def newCreateSubnetTx (owner : OutputOwners) : Except Err UnsignedTx := do
  let (inputs, outputs, _) ←
    b.spend r ops (Finmap.singleton b.backend.ctx.avaxAssetID b.backend.ctx.createSubnetTxFee) ∅
  .ok (.createSubnet { base := b.baseTx ops inputs outputs, owner := sortAddrs owner })

/-- What `NewImportTx` has found to import. -/
structure Importing where
  inputs : List TransferableInput
  amounts : IDMap Nat

/-- The loop body of `NewImportTx`. -/
def importUTXO (i : Importing) (utxo : UTXO) : Except Err Importing :=
  match utxo.out.locktime with
  | some _ => .ok i
  | none =>
    match matchOwners utxo.out.out.owners (b.addresses ops) ops.minIssuanceTime with
    | none => .ok i
    | some inputSigIndices => do
      let newImportedAmount ← ofOption .overflow
        (add64 (amount i.amounts utxo.assetID) utxo.out.out.amt)
      .ok
        { inputs := i.inputs ++ [inputOf utxo none inputSigIndices]
          amounts := i.amounts.insert utxo.assetID newImportedAmount }

/-- The part of `NewImportTx` that pays the fee: the inputs and outputs for what the imported
    AVAX does not pay, and the imported amounts that are left. -/
def payImport (amounts : IDMap Nat) :
    Except Err (List TransferableInput × List TransferableOutput × IDMap Nat) := do
  let avaxAssetID := b.backend.ctx.avaxAssetID
  let txFee := b.backend.ctx.baseTxFee
  let importedAVAX := amount amounts avaxAssetID
  if importedAVAX > txFee then .ok ([], [], amounts.insert avaxAssetID (importedAVAX - txFee))
  else if importedAVAX < txFee then do
    let (inputs, outputs, _) ← b.spend r ops (Finmap.singleton avaxAssetID (txFee - importedAVAX)) ∅
    .ok (inputs, outputs, amounts.erase avaxAssetID)
  else .ok ([], [], amounts.erase avaxAssetID)

/-- `NewImportTx`. What is imported goes to `owners`, `to` in the source. -/
def newImportTx (sourceChainID : ID) (owners : OutputOwners) : Except Err UnsignedTx := do
  let imported ← ((b.backend.utxos sourceChainID).all r.imports).foldlM (b.importUTXO ops)
    { inputs := [], amounts := ∅ }
  failIf (imported.inputs.length = 0) .noImportableFunds
  let (inputs, outputs, amounts) ← b.payImport r ops imported.amounts
  let outputs := outputs ++ (RangeOrder.entries r.assets amounts).map fun p =>
    { assetID := p.1, out := { locktime := none, out := { amt := p.2, owners } } }
  .ok (.importTx
    { base := b.baseTx ops inputs (sortOutputs b.backend.marshalledLess outputs)
      sourceChain := sourceChainID
      importedInputs := sortInputs imported.inputs })

/-- `NewExportTx`. -/
def newExportTx (chainID : ID) (outputs : List TransferableOutput) : Except Err UnsignedTx := do
  let toBurn ← b.burnFor b.backend.ctx.baseTxFee outputs
  let (inputs, changeOutputs, _) ← b.spend r ops toBurn ∅
  .ok (.exportTx
    { base := b.baseTx ops inputs changeOutputs
      destinationChain := chainID
      exportedOutputs := sortOutputs b.backend.marshalledLess outputs })

end Builder

/-- A call of a method of the `Builder` interface that makes a transaction. -/
inductive Call where
  | baseTx (outputs : List TransferableOutput)
  | addValidatorTx (vdr : Validator) (rewardsOwner : OutputOwners) (shares : Nat)
  | addSubnetValidatorTx (vdr : Validator) (subnet : ID)
  | addDelegatorTx (vdr : Validator) (rewardsOwner : OutputOwners)
  | createChainTx (subnetID : ID) (genesis : List UInt8) (vmID : ID) (fxIDs : List ID)
      (chainName : String)
  | createSubnetTx (owner : OutputOwners)
  | importTx (sourceChainID : ID) (owners : OutputOwners)
  | exportTx (chainID : ID) (outputs : List TransferableOutput)

/-- What a call returns. -/
def Builder.build (b : Builder) (r : Ranges) (ops : Options) : Call → Except Err UnsignedTx
  | .baseTx outputs => b.newBaseTx r ops outputs
  | .addValidatorTx vdr rewardsOwner shares => b.newAddValidatorTx r ops vdr rewardsOwner shares
  | .addSubnetValidatorTx vdr subnet => b.newAddSubnetValidatorTx r ops vdr subnet
  | .addDelegatorTx vdr rewardsOwner => b.newAddDelegatorTx r ops vdr rewardsOwner
  | .createChainTx subnetID genesis vmID fxIDs chainName =>
    b.newCreateChainTx r ops subnetID genesis vmID fxIDs chainName
  | .createSubnetTx owner => b.newCreateSubnetTx r ops owner
  | .importTx sourceChainID owners => b.newImportTx r ops sourceChainID owners
  | .exportTx chainID outputs => b.newExportTx r ops chainID outputs

/-! ## Signing -/

/-- `emptySig`. -/
def emptySig : Sig := 0

/-- What the wallet needs of `crypto.PrivateKeySECP256K1R`. -/
structure Keys (Key : Type) where
  address : Key → ShortID
  /-- `SignHash` of the hash of an unsigned transaction. -/
  signHash : Key → UnsignedTx → Sig

/-- `signer`: a keychain and a backend. A keychain keeps the first key of an address. -/
structure Signer (Key : Type) where
  kc : List Key
  backend : Backend

namespace Signer

variable {Key : Type} (K : Keys Key) (s : Signer Key)

/-- `Keychain.Get`. -/
def getKey (addr : ShortID) : Option Key := s.kc.find? fun key => K.address key = addr

/-- The keys for the signature indices of an input. -/
def keysFor (owners : OutputOwners) (sigIndices : List Nat) : Except Err (List (Option Key)) :=
  sigIndices.mapM fun addrIndex => do
    let addr ← ofOption .invalidUTXOSigIndex (owners.addrs[addrIndex]?)
    -- without the key, the transaction can still be signed in part
    .ok (s.getKey K addr)

/-- `getSigners`. Only transfer inputs that are not locked can be signed. -/
def getSigners (sourceChainID : ID) (ins : List TransferableInput) :
    Except Err (List (List (Option Key))) :=
  ins.mapM fun transferInput =>
    match transferInput.input.locktime with
    | some _ => .error .unknownInputType
    | none =>
      let sigIndices := transferInput.input.input.input.sigIndices
      match (s.backend.utxos sourceChainID).get transferInput.utxoID with
      | none => .ok (List.replicate sigIndices.length none)
      | some utxo => s.keysFor K utxo.out.out.owners sigIndices

/-- `getSubnetSigners`. -/
def getSubnetSigners (subnetID : ID) (subnetAuth : SigInput) : Except Err (List (Option Key)) := do
  let subnet ← ofOption .unknownTx (s.backend.tx subnetID)
  match subnet with
  | .createSubnet tx => s.keysFor K tx.owner subnetAuth.sigIndices
  | _ => .error .wrongTxType

/-- The keys that the visitor looks up for a transaction. -/
def txSigners : UnsignedTx → Except Err (List (List (Option Key)))
  | .addValidator tx => s.getSigners K platformChainID tx.base.ins
  | .addSubnetValidator tx => do
    let txSigners ← s.getSigners K platformChainID tx.base.ins
    let subnetAuthSigners ← s.getSubnetSigners K tx.subnet tx.subnetAuth
    .ok (txSigners ++ [subnetAuthSigners])
  | .addDelegator tx => s.getSigners K platformChainID tx.base.ins
  | .createChain tx => do
    let txSigners ← s.getSigners K platformChainID tx.base.ins
    let subnetAuthSigners ← s.getSubnetSigners K tx.subnetID tx.subnetAuth
    .ok (txSigners ++ [subnetAuthSigners])
  | .createSubnet tx => s.getSigners K platformChainID tx.base.ins
  | .importTx tx => do
    let txSigners ← s.getSigners K platformChainID tx.base.ins
    let txImportSigners ← s.getSigners K tx.sourceChain tx.importedInputs
    .ok (txSigners ++ txImportSigners)
  | .exportTx tx => s.getSigners K platformChainID tx.base.ins
  | .advanceTime _ => .error .unsupportedTxType
  | .rewardValidator _ => .error .unsupportedTxType

end Signer

/-- `sigCache`. -/
abbrev SigCache := ShortID → Option Sig

section

variable {Key : Type} (K : Keys Key) (utx : UnsignedTx)

/-- The loop of `sign` over the signatures of one credential. -/
def signSigs : SigCache → List (Sig × Option Key) → SigCache × List Sig
  | cache, [] => (cache, [])
  | cache, (sig, none) :: rest =>
    let (cache, sigs) := signSigs cache rest
    (cache, sig :: sigs)
  | cache, (sig, some key) :: rest =>
    let addr := K.address key
    let new :=
      if sig ≠ emptySig then sig
      else (cache addr).getD (K.signHash key utx)
    let (cache, sigs) := signSigs (Function.update cache addr (some new)) rest
    (cache, new :: sigs)

/-- The loop of `sign` over the credentials. -/
def signCreds : SigCache → List (Credential × List (Option Key)) → List Credential
  | _, [] => []
  | cache, (cred, signers) :: rest =>
    let sigs := if signers.length ≠ cred.sigs.length then
        List.replicate signers.length emptySig
      else cred.sigs
    let (cache, sigs) := signSigs K utx cache (sigs.zip signers)
    { sigs } :: signCreds cache rest

/-- `sign`. -/
def sign (creds : List Credential) (txSigners : List (List (Option Key))) : List Credential :=
  let creds := if txSigners.length ≠ creds.length then
      List.replicate txSigners.length { sigs := [] }
    else creds
  signCreds K utx (fun _ => none) (creds.zip txSigners)

/-- `Signer.Sign`: one round, on the credentials so far. -/
def Signer.sign (s : Signer Key) (creds : List Credential) : Except Err (List Credential) := do
  let txSigners ← s.txSigners K utx
  .ok (Wallet.sign K utx creds txSigners)

/-- Rounds by different signers, the first of which starts without credentials. -/
def signRounds (rounds : List (Signer Key)) : Except Err (List Credential) :=
  rounds.foldlM (fun creds s => s.sign K utx creds) []

end

end Wallet

end SavannahNode
