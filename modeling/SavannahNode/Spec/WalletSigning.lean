import SavannahNode.Spec.WalletFees

/-!
# Signing what the wallet builds

Each credential of a transaction stands for an input with the owners of the UTXO it spends, or
for the authorization of a subnet with the owners of the subnet. The builder only selects what
its addresses can sign for, so signers that hold the keys of these addresses together fill all
signatures, in as many rounds as there are signers. The signer does not know locked inputs,
which the builder makes whenever it stakes and the wallet holds locked AVAX.

## Key results

- `Builder.build_signers`: the keys that a signer looks up belong to the owners
- `signRounds_spec`: what has been signed after some rounds
- `Builder.build_signed`: exactly when a transaction is signed completely
-/

namespace SavannahNode.Wallet

open Except List PlatformVM SmallWallet

/-! ## Matching owners -/

private theorem mem_matchLoop {addrs : Finset ShortID} {threshold : Nat} {l : List ShortID}
    {i : Nat} {sigs : List Nat} {j : Nat} (h : j ∈ matchLoop addrs threshold l i sigs) :
    j ∈ sigs ∨ ∃ k addr, j = i + k ∧ l[k]? = some addr ∧ addr ∈ addrs := by
  induction l generalizing i sigs with
  | nil => exact .inl h
  | cons addr l ih =>
    rw [matchLoop] at h
    split at h
    · rcases ih h with hmem | ⟨k, x, rfl, hx, hmem⟩
      · split at hmem
        · rename_i haddr
          rcases mem_append.mp hmem with hmem | hmem
          · exact .inl hmem
          rw [mem_singleton] at hmem
          exact .inr ⟨0, addr, hmem, rfl, haddr⟩
        · exact .inl hmem
      · exact .inr ⟨k + 1, x, by omega, hx, hmem⟩
    · exact .inl h

/-- What one credential stands for. -/
structure Owed where
  input : SigInput
  owners : OutputOwners

namespace Owed

/-- The addresses whose signatures the credential has. -/
def signers (o : Owed) : List ShortID := o.input.sigIndices.filterMap fun i => o.owners.addrs[i]?

/-- The indices are those that `MatchOwners` selects. -/
def Matched (o : Owed) (addrs : Finset ShortID) (minIssuanceTime : Nat) : Prop :=
  matchOwners o.owners addrs minIssuanceTime = some o.input.sigIndices

variable {o : Owed} {addrs : Finset ShortID} {minIssuanceTime : Nat} {owners : OutputOwners}
  {addr : ShortID}

theorem Matched.locktime_le (h : o.Matched addrs minIssuanceTime) :
    o.owners.locktime ≤ minIssuanceTime := by
  rw [Matched, matchOwners] at h
  split at h
  · cases h
  · omega

theorem Matched.length_eq (h : o.Matched addrs minIssuanceTime) :
    o.input.sigIndices.length = o.owners.threshold := by
  rw [Matched, matchOwners] at h
  split at h
  · cases h
  dsimp only at h
  split at h
  · rename_i hlen
    rw [← Option.some.inj h]
    exact hlen
  · cases h

/-- The selected indices are those of addresses that were given. -/
theorem Matched.exists_addr (h : o.Matched addrs minIssuanceTime) {i : Nat}
    (hi : i ∈ o.input.sigIndices) : ∃ addr, o.owners.addrs[i]? = some addr ∧ addr ∈ addrs := by
  rw [Matched, matchOwners] at h
  split at h
  · cases h
  dsimp only at h
  split at h
  · rw [← Option.some.inj h] at hi
    rcases mem_matchLoop hi with hi | ⟨k, addr, rfl, haddr, hmem⟩
    · cases hi
    rw [Nat.zero_add]
    exact ⟨addr, haddr, hmem⟩
  · cases h

theorem forall₂_signers {l : List Nat} (h : ∀ i ∈ l, ∃ addr, owners.addrs[i]? = some addr) :
    List.Forall₂ (fun i addr => owners.addrs[i]? = some addr) l
      (l.filterMap fun i => owners.addrs[i]?) := by
  induction l with
  | nil => exact .nil
  | cons i l ih =>
    rw [forall_mem_cons] at h
    obtain ⟨⟨addr, haddr⟩, hrest⟩ := h
    rw [filterMap_cons_some haddr]
    exact .cons haddr (ih hrest)

theorem Matched.forall₂ (h : o.Matched addrs minIssuanceTime) :
    List.Forall₂ (fun i addr => o.owners.addrs[i]? = some addr) o.input.sigIndices o.signers :=
  forall₂_signers fun _ hi => (h.exists_addr hi).imp fun _ haddr => haddr.1

theorem Matched.mem_addrs (h : o.Matched addrs minIssuanceTime)
    (haddr : addr ∈ o.signers) : addr ∈ addrs := by
  obtain ⟨i, hi, hget⟩ := mem_filterMap.mp haddr
  obtain ⟨addr', hget', hmem⟩ := h.exists_addr hi
  rw [Option.some.inj (hget.symm.trans hget')]
  exact hmem

end Owed

namespace Backend

/-- What the credentials of inputs stand for. -/
def owedInputs (b : Backend) (chainID : ID) (ins : List TransferableInput) : Option (List Owed) :=
  ins.mapM fun i => ((b.utxos chainID).get i.utxoID).map fun utxo =>
    { input := i.input.input.input, owners := utxo.out.out.owners }

/-- What the credential of a subnet stands for. -/
def owedSubnet (b : Backend) (subnetID : ID) (subnetAuth : SigInput) : Option Owed :=
  match b.tx subnetID with
  | some (.createSubnet tx) => some { input := subnetAuth, owners := tx.owner }
  | _ => none

/-- What the credentials of a transaction stand for. -/
def owed (b : Backend) : UnsignedTx → Option (List Owed)
  | .addSubnetValidator tx => do
    let ins ← b.owedInputs platformChainID tx.base.ins
    let auth ← b.owedSubnet tx.subnet tx.subnetAuth
    some (ins ++ [auth])
  | .createChain tx => do
    let ins ← b.owedInputs platformChainID tx.base.ins
    let auth ← b.owedSubnet tx.subnetID tx.subnetAuth
    some (ins ++ [auth])
  | .importTx tx => do
    let ins ← b.owedInputs platformChainID tx.base.ins
    let imported ← b.owedInputs tx.sourceChain tx.importedInputs
    some (ins ++ imported)
  | utx => b.owedInputs platformChainID utx.ins

end Backend

/-! ## The keys of a signer -/

section

variable {Key : Type} {K : Keys Key} {s : Signer Key} {b : Builder} {r : Ranges} {ops : Options}

/-- The signer knows the UTXOs and the transactions of a backend. -/
structure Signer.Knows (s : Signer Key) (b : Backend) : Prop where
  utxos : ∀ chainID id utxo, (b.utxos chainID).get id = some utxo →
    (s.backend.utxos chainID).get id = some utxo
  tx : ∀ txID tx, b.tx txID = some tx → s.backend.tx txID = some tx

theorem Signer.address_getKey {key : Key} (h : s.getKey K addr = some key) :
    K.address key = addr := by
  have := find?_some h
  simpa using this

/-- The keys that a signer has for a credential. -/
def Signer.keysOf (K : Keys Key) (s : Signer Key) (o : Owed) : List (Option Key) :=
  o.signers.map (s.getKey K)

theorem Signer.keysFor_eq {l : List Nat} {addrs : List ShortID}
    (h : List.Forall₂ (fun i addr => owners.addrs[i]? = some addr) l addrs) :
    s.keysFor K owners l = .ok (addrs.map (s.getKey K)) := by
  induction h with
  | nil => rfl
  | cons haddr _ ih =>
    rw [Signer.keysFor] at ih ⊢
    rw [mapM_cons, haddr, ih]
    rfl

/-- Every input of the list is signed for by the addresses of the builder. -/
def Builder.AllMatched (b : Builder) (ops : Options) (os : List Owed) : Prop :=
  ∀ o ∈ os, o.Matched (b.addresses ops) ops.minIssuanceTime

theorem Builder.AllMatched.append {os os' : List Owed} (h : b.AllMatched ops os)
    (h' : b.AllMatched ops os') : b.AllMatched ops (os ++ os') := by
  intro o ho
  rcases mem_append.mp ho with ho | ho
  · exact h o ho
  · exact h' o ho

/-- Funded inputs are matched, and a signer that knows their UTXOs finds the keys. -/
theorem Builder.getSigners_of_funded {chainID : ID} {ins : List TransferableInput}
    (hfunded : ∀ i ∈ ins, b.Funded ops chainID i) (hunlocked : ∀ i ∈ ins, i.input.locktime = none) :
    ∃ os, b.backend.owedInputs chainID ins = some os ∧ b.AllMatched ops os ∧
      ∀ s : Signer Key, s.Knows b.backend →
        s.getSigners K chainID ins = .ok (os.map (s.keysOf K)) := by
  induction ins with
  | nil => exact ⟨[], rfl, by simp [AllMatched], fun s _ => rfl⟩
  | cons i ins ih =>
    rw [forall_mem_cons] at hfunded hunlocked
    obtain ⟨os, hos, hmatched, hsigners⟩ := ih hfunded.2 hunlocked.2
    obtain ⟨utxo, locktime, sigIndices, hget, hi, hmatch⟩ := hfunded.1
    have hlock := hunlocked.1
    have hsigs : i.input.input.input.sigIndices = sigIndices := by
      rw [hi]
      rfl
    have ho : Owed.Matched { input := i.input.input.input, owners := utxo.out.out.owners }
        (b.addresses ops) ops.minIssuanceTime := by
      rw [Owed.Matched, hsigs]
      exact hmatch
    refine ⟨{ input := i.input.input.input, owners := utxo.out.out.owners } :: os, ?_, ?_, ?_⟩
    · rw [Backend.owedInputs] at hos ⊢
      rw [mapM_cons, hget, hos]
      rfl
    · intro o hmem
      rcases mem_cons.mp hmem with rfl | hmem
      · exact ho
      · exact hmatched o hmem
    intro s hknows
    have hrest := hsigners s hknows
    rw [Signer.getSigners] at hrest ⊢
    rw [mapM_cons, hrest, hlock]
    rw [hknows.utxos chainID i.utxoID utxo hget]
    dsimp only
    rw [Signer.keysFor_eq ho.forall₂]
    rfl

/-- A signer that finds its keys was given no locked input. -/
theorem Signer.locktime_of_getSigners {chainID : ID} {ins : List TransferableInput}
    {signers : List (List (Option Key))} (h : s.getSigners K chainID ins = .ok signers) :
    ∀ i ∈ ins, i.input.locktime = none := by
  induction ins generalizing signers with
  | nil => simp
  | cons i ins ih =>
    rw [Signer.getSigners, mapM_cons] at h
    obtain ⟨keys, hkeys, h⟩ := bind_eq_ok.mp h
    obtain ⟨rest, hrest, -⟩ := bind_eq_ok.mp h
    rw [forall_mem_cons]
    refine ⟨?_, ih hrest⟩
    split at hkeys
    · cases hkeys
    · assumption

/-- Every visit looks up the keys of the inputs first. -/
theorem Signer.getSigners_of_txSigners {utx : UnsignedTx} {signers : List (List (Option Key))}
    (h : s.txSigners K utx = .ok signers) :
    ∃ signers, s.getSigners K platformChainID utx.ins = .ok signers := by
  cases utx with
  | addValidator tx => exact ⟨_, h⟩
  | addSubnetValidator tx => exact (bind_eq_ok.mp h).imp fun _ h => h.1
  | addDelegator tx => exact ⟨_, h⟩
  | createChain tx => exact (bind_eq_ok.mp h).imp fun _ h => h.1
  | createSubnet tx => exact ⟨_, h⟩
  | importTx tx => exact (bind_eq_ok.mp h).imp fun _ h => h.1
  | exportTx tx => exact ⟨_, h⟩
  | advanceTime time => exact ⟨_, rfl⟩
  | rewardValidator txID => exact ⟨_, rfl⟩

/-- A subnet that the builder could authorize is matched, and its keys are found. -/
theorem Builder.getSubnetSigners_of_authorized {subnetID : ID} {subnetAuth : SigInput}
    (h : b.authorizeSubnet ops subnetID = .ok subnetAuth) :
    ∃ o, b.backend.owedSubnet subnetID subnetAuth = some o ∧
      o.Matched (b.addresses ops) ops.minIssuanceTime ∧
      ∀ s : Signer Key, s.Knows b.backend →
        s.getSubnetSigners K subnetID subnetAuth = .ok (s.keysOf K o) := by
  obtain ⟨subnet, hsubnet, h⟩ := bind_eq_ok.mp h
  rw [ofOption_eq_ok] at hsubnet
  split at h
  · rename_i tx
    obtain ⟨sigIndices, hmatch, h⟩ := bind_eq_ok.mp h
    rw [ofOption_eq_ok] at hmatch
    cases h
    have ho : Owed.Matched { input := { sigIndices }, owners := tx.owner } (b.addresses ops)
        ops.minIssuanceTime := hmatch
    refine ⟨{ input := { sigIndices }, owners := tx.owner }, ?_, ho, ?_⟩
    · rw [Backend.owedSubnet, hsubnet]
    intro s hknows
    rw [Signer.getSubnetSigners, hknows.tx _ _ hsubnet]
    exact Signer.keysFor_eq ho.forall₂
  · cases h

/-- What a transaction without locked inputs owes, and the keys that a signer looks up. -/
def Builder.Signable (K : Keys Key) (b : Builder) (ops : Options) (utx : UnsignedTx) : Prop :=
  ∃ os, b.backend.owed utx = some os ∧ b.AllMatched ops os ∧
    ∀ s : Signer Key, s.Knows b.backend → s.txSigners K utx = .ok (os.map (s.keysOf K))

/-- The inputs and the authorization of a subnet. -/
theorem Builder.signers_append {ins : List TransferableInput} {subnetID : ID}
    {subnetAuth : SigInput} (hfunded : ∀ i ∈ ins, b.Funded ops platformChainID i)
    (hunlocked : ∀ i ∈ ins, i.input.locktime = none)
    (hauth : b.authorizeSubnet ops subnetID = .ok subnetAuth) :
    ∃ os, ((b.backend.owedInputs platformChainID ins).bind fun ins =>
        (b.backend.owedSubnet subnetID subnetAuth).bind fun auth => some (ins ++ [auth])) = some os ∧
      b.AllMatched ops os ∧ ∀ s : Signer Key, s.Knows b.backend →
        (s.getSigners K platformChainID ins >>= fun a =>
          s.getSubnetSigners K subnetID subnetAuth >>= fun c => ok (a ++ [c])) =
            .ok (os.map (s.keysOf K)) := by
  obtain ⟨os, hos, hmatched, hsigners⟩ := getSigners_of_funded (K := K) hfunded hunlocked
  obtain ⟨o, ho, hmatched', hsigners'⟩ := getSubnetSigners_of_authorized (K := K) hauth
  refine ⟨os ++ [o], by rw [hos, ho]; rfl, hmatched.append ?_, fun s hs => ?_⟩
  · intro o' ho'
    rw [mem_singleton.mp ho']
    exact hmatched'
  · rw [hsigners s hs, hsigners' s hs, map_append]
    rfl

/-- Every call makes a transaction whose credentials the addresses of the builder can sign. -/
theorem Builder.build_signers {call : Call} {utx : UnsignedTx} (h : b.build r ops call = .ok utx)
    (hunlocked : ∀ i ∈ utx.ins, i.input.locktime = none) : b.Signable K ops utx := by
  obtain ⟨hfunded, hauth, -⟩ := build_made h
  have hins := getSigners_of_funded (K := K) hfunded hunlocked
  cases utx with
  | addValidator tx => exact hins
  | addSubnetValidator tx => exact signers_append hfunded hunlocked hauth
  | addDelegator tx => exact hins
  | createChain tx => exact signers_append hfunded hunlocked hauth
  | createSubnet tx => exact hins
  | importTx tx =>
    obtain ⟨os, hos, hmatched, hsigners⟩ := hins
    obtain ⟨os', hos', hmatched', hsigners'⟩ := getSigners_of_funded (K := K)
      (fun i hi => (hauth i hi).1) fun i hi => (hauth i hi).2
    refine ⟨os ++ os', ?_, hmatched.append hmatched', fun s hs => ?_⟩
    · show ((b.backend.owedInputs platformChainID tx.base.ins).bind fun ins =>
        (b.backend.owedInputs tx.sourceChain tx.importedInputs).bind fun imported =>
          some (ins ++ imported)) = _
      rw [show b.backend.owedInputs platformChainID tx.base.ins = some os from hos, hos']
      rfl
    show (s.getSigners K platformChainID tx.base.ins >>= fun a =>
      s.getSigners K tx.sourceChain tx.importedInputs >>= fun c => ok (a ++ c)) = _
    rw [show s.getSigners K platformChainID tx.base.ins = _ from hsigners s hs, hsigners' s hs,
      map_append]
    rfl
  | exportTx tx => exact hins
  | advanceTime time => exact hauth.elim
  | rewardValidator txID => exact hauth.elim

end

/-! ## Rounds -/

section

variable {Key : Type} (K : Keys Key) (fx : Fx) (utx : UnsignedTx)

/-- Signing and recovery are inverse: a signature is not empty, and its signer is recovered. -/
structure Keys.Inverse : Prop where
  sign_ne : ∀ key, K.signHash key utx ≠ emptySig
  recover_sign : ∀ key, fx.recover utx (K.signHash key utx) = some (K.address key)

/-- A signature of this address. -/
def Signed (addr : ShortID) (sig : Sig) : Prop := sig ≠ emptySig ∧ fx.recover utx sig = some addr

/-- The signature of an address after rounds by the signers `done`: it is there, or none of them
    had the key. -/
def Slot (done : List (Signer Key)) (addr : ShortID) (sig : Sig) : Prop :=
  Signed fx utx addr sig ∨ sig = emptySig ∧ ∀ s ∈ done, s.getKey K addr = none

/-- A cache of signatures. -/
def CacheOK (cache : SigCache) : Prop := ∀ addr sig, cache addr = some sig → Signed fx utx addr sig

variable {K fx utx} {done : List (Signer Key)} {s : Signer Key}

variable {cache : SigCache} {os : List Owed} {creds : List Credential}

theorem CacheOK.update (h : CacheOK fx utx cache) {sig : Sig}
    (hsig : Signed fx utx addr sig) : CacheOK fx utx (Function.update cache addr (some sig)) := by
  intro x sig' hx
  by_cases hxa : x = addr
  · subst hxa
    rw [Function.update_self] at hx
    rw [← Option.some.inj hx]
    exact hsig
  rw [Function.update_of_ne hxa] at hx
  exact h x sig' hx

/-- The signatures of one credential after one more round. -/
theorem signSigs_spec (hinv : K.Inverse fx utx) {addrs : List ShortID} {sigs : List Sig}
    (hslots : List.Forall₂ (Slot K fx utx done) addrs sigs) (hcache : CacheOK fx utx cache) :
    CacheOK fx utx (signSigs K utx cache (sigs.zip (addrs.map (s.getKey K)))).1 ∧
      List.Forall₂ (Slot K fx utx (done ++ [s])) addrs
        (signSigs K utx cache (sigs.zip (addrs.map (s.getKey K)))).2 := by
  induction hslots generalizing cache with
  | nil => exact ⟨hcache, .nil⟩
  | @cons addr sig addrs sigs hslot _ ih =>
    rw [map_cons, zip_cons_cons]
    cases hkey : s.getKey K addr with
    | none =>
      obtain ⟨hc, hs⟩ := ih hcache
      refine ⟨hc, .cons ?_ hs⟩
      rcases hslot with hsigned | ⟨hempty, hnone⟩
      · exact .inl hsigned
      refine .inr ⟨hempty, ?_⟩
      intro s' hs'
      rcases mem_append.mp hs' with hs' | hs'
      · exact hnone s' hs'
      rw [mem_singleton.mp hs']
      exact hkey
    | some key =>
      have haddr := Signer.address_getKey hkey
      rw [signSigs, haddr]
      -- whether it was there, cached or just made, the signature is one of this address
      have hnew : Signed fx utx addr (if sig ≠ emptySig then sig
          else (cache addr).getD (K.signHash key utx)) := by
        split
        · rename_i hne
          rcases hslot with hsigned | ⟨hempty, -⟩
          · exact hsigned
          · exact absurd hempty hne
        cases hc : cache addr with
        | some sig' => exact hcache addr sig' hc
        | none => exact ⟨hinv.sign_ne key, haddr ▸ hinv.recover_sign key⟩
      obtain ⟨hc, hs⟩ := ih (hcache.update hnew)
      exact ⟨hc, .cons (.inl hnew) hs⟩

/-- The signatures that `sign` finds in a credential, or empty ones. -/
def sigsOf (cred : Credential) (o : Owed) : List Sig :=
  if o.signers.length ≠ cred.sigs.length then List.replicate o.signers.length emptySig
  else cred.sigs

theorem signCreds_spec (hinv : K.Inverse fx utx) (hslots : List.Forall₂
      (fun o cred => List.Forall₂ (Slot K fx utx done) o.signers (sigsOf cred o)) os creds)
    (hcache : CacheOK fx utx cache) :
    List.Forall₂ (fun o cred => List.Forall₂ (Slot K fx utx (done ++ [s])) o.signers cred.sigs) os
      (signCreds K utx cache (creds.zip (os.map (s.keysOf K)))) := by
  induction hslots generalizing cache with
  | nil => exact .nil
  | @cons o cred os creds hslot _ ih =>
    rw [map_cons, zip_cons_cons, signCreds]
    have hlen : (s.keysOf K o).length = o.signers.length := length_map _
    rw [hlen]
    obtain ⟨hc, hs⟩ := signSigs_spec (s := s) hinv hslot hcache
    exact .cons hs (ih hc)

/-- The credentials that `sign` starts from. -/
def credsOf (creds : List Credential) (os : List Owed) : List Credential :=
  if os.length ≠ creds.length then List.replicate os.length { sigs := [] } else creds

/-- What has been signed after rounds by the signers `done`. -/
def Progress (K : Keys Key) (fx : Fx) (utx : UnsignedTx) (os : List Owed)
    (done : List (Signer Key)) (creds : List Credential) : Prop :=
  List.Forall₂ (fun o cred => List.Forall₂ (Slot K fx utx done) o.signers (sigsOf cred o)) os
    (credsOf creds os)

theorem slot_emptySig (addrs : List ShortID) :
    List.Forall₂ (Slot K fx utx []) addrs (replicate addrs.length emptySig) := by
  induction addrs with
  | nil => exact .nil
  | cons addr addrs ih => exact .cons (.inr ⟨rfl, by simp⟩) ih

/-- Before the first round nothing is signed. -/
theorem progress_nil (os : List Owed) : Progress K fx utx os [] [] := by
  have hempty : ∀ o : Owed, sigsOf { sigs := [] } o = replicate o.signers.length emptySig := by
    intro o
    rw [sigsOf]
    split
    · rfl
    rename_i hlen
    rw [length_nil, not_not] at hlen
    rw [hlen]
    rfl
  have hall : ∀ os : List Owed, List.Forall₂
      (fun o cred => List.Forall₂ (Slot K fx utx []) o.signers (sigsOf cred o)) os
      (replicate os.length { sigs := [] }) := by
    intro os
    induction os with
    | nil => exact .nil
    | cons o os ih =>
      refine .cons ?_ ih
      rw [hempty]
      exact slot_emptySig o.signers
  rw [Progress, credsOf]
  split
  · exact hall os
  rename_i hlen
  rw [length_nil, not_not, length_eq_zero_iff] at hlen
  subst hlen
  exact .nil

/-- The signatures after at least one round by the signers `done`. -/
def Filled (K : Keys Key) (fx : Fx) (utx : UnsignedTx) (os : List Owed)
    (done : List (Signer Key)) (creds : List Credential) : Prop :=
  List.Forall₂ (fun o cred => List.Forall₂ (Slot K fx utx done) o.signers cred.sigs) os creds

theorem Filled.progress (h : Filled K fx utx os done creds) : Progress K fx utx os done creds := by
  rw [Progress, credsOf, if_neg (not_not_intro h.length_eq)]
  refine List.Forall₂.imp ?_ h
  intro o cred hslots
  rw [sigsOf, if_neg (not_not_intro hslots.length_eq)]
  exact hslots

/-- One round, by a signer that finds its keys. -/
theorem Progress.sign (hinv : K.Inverse fx utx) (h : Progress K fx utx os done creds)
    (hsigners : s.txSigners K utx = .ok (os.map (s.keysOf K))) :
    ∃ creds', s.sign K utx creds = .ok creds' ∧ Filled K fx utx os (done ++ [s]) creds' := by
  refine ⟨Wallet.sign K utx creds (os.map (s.keysOf K)), ?_, ?_⟩
  · rw [Signer.sign, hsigners]
    rfl
  have hlen : (os.map (s.keysOf K)).length = os.length := length_map _
  rw [Wallet.sign, hlen]
  exact signCreds_spec hinv h (fun _ _ h => by cases h)

/-- All rounds. -/
theorem signRounds_spec (hinv : K.Inverse fx utx) (first : Signer Key) (rest : List (Signer Key))
    (hsigners : ∀ s ∈ first :: rest, s.txSigners K utx = .ok (os.map (s.keysOf K))) :
    ∃ creds, signRounds K utx (first :: rest) = .ok creds ∧
      Filled K fx utx os (first :: rest) creds := by
  have hrest : ∀ (rest done : List (Signer Key)) (creds : List Credential),
      Filled K fx utx os done creds →
      (∀ s ∈ rest, s.txSigners K utx = .ok (os.map (s.keysOf K))) →
      ∃ creds', rest.foldlM (fun creds s => s.sign K utx creds) creds = .ok creds' ∧
        Filled K fx utx os (done ++ rest) creds' := by
    intro rest
    induction rest with
    | nil =>
      intro done creds hfilled _
      rw [append_nil]
      exact ⟨creds, rfl, hfilled⟩
    | cons s rest ih =>
      intro done creds hfilled hall
      rw [forall_mem_cons] at hall
      obtain ⟨creds₁, hcreds1, hfilled1⟩ := hfilled.progress.sign hinv hall.1
      obtain ⟨creds', hcreds', hfilled'⟩ := ih (done ++ [s]) creds₁ hfilled1 hall.2
      rw [append_assoc] at hfilled'
      exact ⟨creds', by rw [foldlM_cons, hcreds1]; exact hcreds', hfilled'⟩
  rw [forall_mem_cons] at hsigners
  obtain ⟨creds₁, hcreds1, hfilled1⟩ := (progress_nil os).sign hinv hsigners.1
  obtain ⟨creds, hcreds, hfilled⟩ := hrest rest [first] creds₁ hfilled1 hsigners.2
  exact ⟨creds, by rw [signRounds, foldlM_cons, hcreds1]; exact hcreds, hfilled⟩

/-- Every signature is one of the address at its index. -/
theorem forM_verifySig {indices : List Nat} {signers : List ShortID} {sigs : List Sig}
    (haddrs : List.Forall₂ (fun i addr => owners.addrs[i]? = some addr) indices signers)
    (hsigned : List.Forall₂ (Signed fx utx) signers sigs) :
    (indices.zip sigs).forM (fun p => fx.verifySig utx owners p.1 p.2) = .ok () := by
  induction haddrs generalizing sigs with
  | nil => rfl
  | @cons i addr indices signers haddr _ ih =>
    cases hsigned with
    | @cons _ sig _ sigs hsig hrest =>
      have hone : fx.verifySig utx owners i sig = .ok () := by
        rw [Fx.verifySig, haddr]
        exact failIf_of_not (not_not_intro hsig.2)
      show (fx.verifySig utx owners i sig >>= fun _ =>
        (indices.zip sigs).forM fun p => fx.verifySig utx owners p.1 p.2) = _
      rw [hone]
      exact ih hrest

/-- A credential with all its signatures passes from the minimum issuance time on. -/
theorem verifyCredentials_of_signed {o : Owed} {addrs : Finset ShortID} {minIssuanceTime : Nat}
    (hmatched : o.Matched addrs minIssuanceTime) {cred : Credential}
    (hsigned : List.Forall₂ (Signed fx utx) o.signers cred.sigs) {clk : Time}
    (hclk : minIssuanceTime ≤ (clk / Time.second - Time.unixToInternal).toNat) :
    fx.verifyCredentials clk utx o.input cred o.owners = .ok () := by
  have hlock := hmatched.locktime_le
  have hlen := hmatched.length_eq
  have hsigs : o.input.sigIndices.length = cred.sigs.length :=
    hmatched.forall₂.length_eq.trans hsigned.length_eq
  rw [Fx.verifyCredentials, failIf_of_not (by omega), failIf_of_not (by omega),
    failIf_of_not (by omega), failIf_of_not (by omega)]
  rw [forM_verifySig hmatched.forall₂ hsigned]
  cases fx.bootstrapped <;> rfl

/-- What the builder returns without a locked input can be signed: every signature is filled, and
    every credential passes for what it stands for from the minimum issuance time on. -/
theorem Builder.signed_of_unlocked {b : Builder} {r : Ranges} {ops : Options} {call : Call}
    (h : b.build r ops call = .ok utx) (hunlocked : ∀ i ∈ utx.ins, i.input.locktime = none)
    (hinv : K.Inverse fx utx) (first : Signer Key) (rest : List (Signer Key))
    (hknows : ∀ s ∈ first :: rest, s.Knows b.backend)
    (hkeys : ∀ addr ∈ b.addresses ops, ∃ s ∈ first :: rest, ∃ key ∈ s.kc, K.address key = addr) :
    ∃ os creds, b.backend.owed utx = some os ∧ signRounds K utx (first :: rest) = .ok creds ∧
      (∀ cred ∈ creds, ∀ sig ∈ cred.sigs, sig ≠ emptySig) ∧
      List.Forall₂ (fun o cred => cred.sigs.length = o.owners.threshold ∧
        ∀ clk : Time, ops.minIssuanceTime ≤ (clk / Time.second - Time.unixToInternal).toNat →
          fx.verifyCredentials clk utx o.input cred o.owners = .ok ()) os creds := by
  obtain ⟨os, hos, hmatched, hsigners⟩ := build_signers (K := K) h hunlocked
  obtain ⟨creds, hcreds, hfilled⟩ := signRounds_spec hinv first rest
    fun s hs => hsigners s (hknows s hs)
  -- somebody had the key of every address
  have hsigned : List.Forall₂ (fun o cred => o.Matched (b.addresses ops) ops.minIssuanceTime ∧
      List.Forall₂ (Signed fx utx) o.signers cred.sigs) os creds := by
    have hall := forall₂_iff_zip.mp hfilled
    refine forall₂_iff_zip.mpr ⟨hall.1, fun {o cred} hmem => ?_⟩
    have ho := hmatched o (of_mem_zip hmem).1
    refine ⟨ho, ?_⟩
    have hslots := forall₂_iff_zip.mp (hall.2 hmem)
    refine forall₂_iff_zip.mpr ⟨hslots.1, fun {addr sig} hsig => ?_⟩
    rcases hslots.2 hsig with hdone | ⟨-, hnone⟩
    · exact hdone
    obtain ⟨s, hs, key, hkey, haddr⟩ := hkeys addr (ho.mem_addrs (of_mem_zip hsig).1)
    have hfind := find?_eq_none.mp (hnone s hs) key hkey
    exact absurd (decide_eq_true haddr) hfind
  refine ⟨os, creds, hos, hcreds, ?_, ?_⟩
  · intro cred hcred sig hsig
    obtain ⟨o, -, -, hsigs⟩ := hsigned.exists_left hcred
    obtain ⟨addr, -, hne⟩ := hsigs.exists_left hsig
    exact hne.1
  refine List.Forall₂.imp ?_ hsigned
  rintro o cred ⟨ho, hsigs⟩
  refine ⟨?_, fun clk hclk => verifyCredentials_of_signed ho hsigs hclk⟩
  rw [← hsigs.length_eq, ← ho.forall₂.length_eq, ho.length_eq]

/-- **Signing**: what the builder returns is signed by signers that know the UTXOs and hold the
    keys of the addresses together, with every signature filled and every credential passing for
    what it stands for from the minimum issuance time on, exactly when the call does not stake or
    the wallet holds no AVAX that is locked beyond that time. -/
theorem Builder.build_signed {b : Builder} {r : Ranges} {ops : Options} {call : Call}
    (h : b.build r ops call = .ok utx) (hinv : K.Inverse fx utx) (first : Signer Key)
    (rest : List (Signer Key)) (hknows : ∀ s ∈ first :: rest, s.Knows b.backend)
    (hkeys : ∀ addr ∈ b.addresses ops, ∃ s ∈ first :: rest, ∃ key ∈ s.kc, K.address key = addr) :
    (∃ os creds, b.backend.owed utx = some os ∧ signRounds K utx (first :: rest) = .ok creds ∧
      (∀ cred ∈ creds, ∀ sig ∈ cred.sigs, sig ≠ emptySig) ∧
      List.Forall₂ (fun o cred => cred.sigs.length = o.owners.threshold ∧
        ∀ clk : Time, ops.minIssuanceTime ≤ (clk / Time.second - Time.unixToInternal).toNat →
          fx.verifyCredentials clk utx o.input cred o.owners = .ok ()) os creds) ↔
    ¬ (0 < call.staked ∧ b.HoldsLocked ops b.backend.ctx.avaxAssetID) := by
  rw [← (build_made h).locked_iff]
  constructor
  · -- the first round fails on a locked input
    rintro ⟨os, creds, -, hcreds, -⟩ ⟨i, hi, hlock⟩
    rw [signRounds, foldlM_cons] at hcreds
    obtain ⟨creds₁, hfirst, -⟩ := bind_eq_ok.mp hcreds
    obtain ⟨signers, hsigners, -⟩ := bind_eq_ok.mp hfirst
    obtain ⟨signers', hsigners'⟩ := Signer.getSigners_of_txSigners hsigners
    exact hlock (Signer.locktime_of_getSigners hsigners' i hi)
  · intro hnone
    refine signed_of_unlocked h (fun i hi => ?_) hinv first rest hknows hkeys
    by_contra hlock
    exact hnone ⟨i, hi, hlock⟩

end

/-! ## The wallet with one UTXO -/

namespace SmallWallet

/-- The key of the owner. -/
def keys : Keys Unit := { address := fun _ => ⟨7⟩, signHash := fun _ _ => 1 }

def fx : Fx := { bootstrapped := true, recover := fun _ _ => some ⟨7⟩ }

theorem inverse (utx : UnsignedTx) : keys.Inverse fx utx := by
  have hne : (1 : Sig) ≠ emptySig := by decide +kernel
  exact ⟨fun _ => hne, fun _ => rfl⟩

def signer (locktime : Option Nat) : Signer Unit := { kc := [()], backend := backend locktime }

theorem knows (locktime : Option Nat) : (signer locktime).Knows (builder locktime).backend :=
  ⟨fun _ _ _ h => h, fun _ _ h => h⟩

theorem mem_addresses {locktime : Option Nat} (h : addr ∈ (builder locktime).addresses options) :
    ∃ s ∈ [signer locktime], ∃ key ∈ s.kc, keys.address key = addr :=
  ⟨signer locktime, mem_singleton_self _, (), mem_singleton_self _,
    (Finset.mem_singleton.mp h).symm⟩

/-- The thresholds of the credentials, and how signing ends. -/
def outcome (locktime : Option Nat) (utx : UnsignedTx) : Option (List Nat) × Option Err :=
  (((backend locktime).owed utx).map (·.map (·.owners.threshold)),
    (signRounds keys utx [signer locktime]).failure)

theorem outcome_unlocked :
    ((builder none).build .ascending options (.addValidatorTx validator owner 20000)).toOption.map
      (outcome none) = some (some [1], none) := by
  decide +kernel

theorem outcome_locked :
    ((builder (some 60)).build .ascending options (.addValidatorTx validator owner 20000)).toOption.map
      (outcome (some 60)) = some (some [1], some .unknownInputType) := by
  decide +kernel

theorem not_holdsLocked : ¬ (builder none).HoldsLocked options ⟨42⟩ := by
  rintro ⟨id, utxo, hget, -, ⟨locktime, hlock, -⟩, -⟩
  obtain ⟨out, hout, rfl⟩ := Option.map_eq_some_iff.mp hget
  have hout : (Finmap.singleton { txID := ⟨3⟩, outputIndex := 0 } (SmallWallet.utxo none) :
      UTXOs).lookup id = some out := hout
  have hmem : id ∈ (Finmap.singleton { txID := ⟨3⟩, outputIndex := 0 } (SmallWallet.utxo none) :
      UTXOs) := by
    rw [← Finmap.lookup_isSome, hout]
    rfl
  obtain rfl := (Finmap.mem_singleton _ _ _).mp hmem
  rw [Finmap.lookup_singleton_eq] at hout
  cases hout
  cases hlock

end SmallWallet

/-- The UTXO is unlocked, so a staking transaction is signed, and its credential passes. -/
theorem Builder.build_signed_unlocked :
    ∃ utx os creds, (builder none).build .ascending options
        (.addValidatorTx validator owner 20000) = .ok utx ∧
      (builder none).backend.owed utx = some os ∧ os.map (·.owners.threshold) = [1] ∧
      signRounds keys utx [signer none] = .ok creds ∧
      (∀ cred ∈ creds, ∀ sig ∈ cred.sigs, sig ≠ emptySig) ∧
      List.Forall₂ (fun o cred => cred.sigs.length = o.owners.threshold ∧
        fx.verifyCredentials (.unix 60) utx o.input cred o.owners = .ok ()) os creds := by
  obtain ⟨utx, hutx, hout⟩ := exists_of_observed outcome_unlocked
  have hknows : ∀ s ∈ [signer none], s.Knows (builder none).backend := by
    intro s hs
    rw [mem_singleton.mp hs]
    exact knows none
  obtain ⟨os, creds, hos, hcreds, hfull, hpass⟩ := (build_signed hutx (inverse utx)
    (signer none) [] hknows fun addr haddr => mem_addresses haddr).mpr fun h => not_holdsLocked h.2
  refine ⟨utx, os, creds, hutx, hos, ?_, hcreds, hfull, ?_⟩
  · have hone := (Prod.mk.inj hout).1
    rw [show (SmallWallet.backend none).owed utx = some os from hos] at hone
    exact Option.some.inj hone
  · refine List.Forall₂.imp ?_ hpass
    intro o cred h
    exact ⟨h.1, h.2 (.unix 60) (by decide)⟩

/-- A locked UTXO is staked, and the signer does not know the locked input. -/
theorem exists_not_signed :
    ∃ utx, (builder (some 60)).build .ascending options
        (.addValidatorTx validator owner 20000) = .ok utx ∧
      keys.Inverse fx utx ∧
      (signer (some 60)).Knows (builder (some 60)).backend ∧
      (∀ addr ∈ (builder (some 60)).addresses options,
        ∃ s ∈ [signer (some 60)], ∃ key ∈ s.kc, keys.address key = addr) ∧
      signRounds keys utx [signer (some 60)] = .error .unknownInputType := by
  obtain ⟨utx, hutx, hout⟩ := exists_of_observed outcome_locked
  exact ⟨utx, hutx, inverse utx, knows _,
    fun addr haddr => mem_addresses haddr,
    failure_eq_some.mp (Prod.mk.inj hout).2⟩

end SavannahNode.Wallet
