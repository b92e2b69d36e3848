import QuaiSdk.Storage.Backup

/-!
# Validation of a backup

`WalletBackup::validate` and `payment_proof`: every public record is proved against the secret
origins, and every operation is consistent with its claims, before a restore writes anything.  Sets
of the source are lists here; their order only decides which of several errors is reported.
-/

namespace QuaiSdk.Storage

open Result Wallet WalletBackupError

variable {B : Backend}

def maxRecords : ℕ := 100000

structure ChannelKey where
  network : Network
  localCode : Bytes
  peerCode : Bytes
  account : ℕ
  deriving DecidableEq

def StoredPaymentChannel.key (c : StoredPaymentChannel) : ChannelKey :=
  ⟨c.network, c.localCode, c.peerCode, c.account⟩

def StoredPaymentExposure.key (e : StoredPaymentExposure) : ChannelKey :=
  ⟨e.network, e.localCode, e.peerCode, e.account⟩

def findOwner (stored : StoredPaymentChannel) :
    List B.Origin → Except WalletBackupError B.PrivateCode
  | [] => .error .ownership
  | origin :: rest =>
    if B.originKind origin = .hd ∨ B.originKind origin = .paymentAccount stored.account then do
      let owner ← okOr (B.paymentCode origin stored.account) invalidInput
      if B.publicCode owner = stored.localCode then .ok owner else findOwner stored rest
    else findOwner stored rest

abbrev OwnedChannel (B : Backend) := ChannelKey × B.PrivateCode × PaymentChannel

def proveChannel (origins : List B.Origin) (networks : List Network)
    (proved : List (OwnedChannel B)) (stored : StoredPaymentChannel) :
    Except WalletBackupError (List (OwnedChannel B)) :=
  if stored.network ∉ networks then .error .invalidInput
  else do
    let owner ← findOwner stored origins
    let channel ← (stored.checked owner).mapError storage
    if stored.key ∈ proved.map Prod.fst then .error .invalidInput
    else .ok (proved ++ [(stored.key, owner, channel)])

/-- Exposures seen so far and the keys that receiving exposures own. -/
structure ExposureProof where
  seen : List (ChannelKey × PaymentDirection × Zone × ℕ)
  owned : List (NetworkScope × Bytes)

def ownExposure (imported : List (NetworkScope × Address × Bytes)) (exposure : StoredPaymentExposure)
    (owned : List (NetworkScope × Bytes)) :
    Except WalletBackupError (List (NetworkScope × Bytes)) :=
  let record := exposure.record
  let scope : NetworkScope := ⟨exposure.network.chainId, exposure.network.genesis, record.zone⟩
  if record.direction = .send then .ok owned
  else if (scope, record.address.address, record.publicKey) ∉ imported then .error .ownership
  else .ok ((scope, record.publicKey) :: owned)

def proveExposure (channels : List (OwnedChannel B))
    (imported : List (NetworkScope × Address × Bytes)) (proof : ExposureProof)
    (exposure : StoredPaymentExposure) : Except WalletBackupError ExposureProof := do
  let record := exposure.record
  let (owner, channel) ← okOr (channels.lookup exposure.key) ownership
  let entry := (exposure.key, record.direction, record.zone, record.index)
  if entry ∈ proof.seen ∨
      cursorValue (channel.nextIndex record.direction record.zone) < record.burned.stop then
    .error .invalidInput
  else do
    (validateExposure owner channel.peerCode record).mapError storage
    let owned ← ownExposure imported exposure proof.owned
    .ok ⟨entry :: proof.seen, owned⟩

def PublicWalletState.importedAddresses (state : PublicWalletState) :
    List (NetworkScope × Address × Bytes) :=
  state.scopes.flatMap fun s =>
    (s.addresses.filter fun a => a.origin = .importedPublic).map fun a =>
      (s.scope, a.address, a.publicKey)

namespace WalletBackup

def paymentProof (b : WalletBackup B) :
    Except WalletBackupError (List B.PrivateCode × List (NetworkScope × Bytes)) :=
  if 1024 < b.state.channels.length ∨ 8192 < b.state.channels.length * b.origins.length ∨
      maxRecords < b.state.exposures.length then .error .invalidInput
  else do
    let networks := b.state.scopes.map fun s => s.scope.network
    let channels ← b.state.channels.foldlM (proveChannel b.origins networks) []
    let proof ← b.state.exposures.foldlM (proveExposure channels b.state.importedAddresses) ⟨[], []⟩
    .ok (channels.map fun c => c.2.1, proof.owned)

def accounts (b : WalletBackup B) : List (CoinType × ℕ) :=
  (b.state.scopes.flatMap fun s =>
    (s.addresses.filterMap fun a =>
      match a.origin with
      | .bip44 coin account _ _ => some (coin, account)
      | .importedPublic => none) ++ s.derivation.map fun d => (d.coin, d.account)).dedup

/-- Everything the origins derive: account keys of the named accounts, and imported keys. -/
structure Proof (B : Backend) where
  nodes : List ((CoinType × ℕ) × AccountPublic B.toHdCrypto)
  imported : List Bytes
  paymentOwned : List (NetworkScope × Bytes)

def proveOrigin (accounts : List (CoinType × ℕ)) (proof : Proof B) (origin : B.Origin) :
    Except WalletBackupError (Proof B) :=
  match B.originKind origin with
  | .imported => do
    let key ← okOr (B.importedKey origin) ownership
    .ok { proof with imported := B.toCompressed key :: proof.imported }
  | .paymentAccount _ => .ok proof
  | .hd => do
    let nodes ← accounts.mapM fun a =>
      (okOr (B.accountPublic origin a.1 a.2) ownership).map fun node => (a, node)
    .ok { proof with nodes := proof.nodes ++ nodes }

def Proof.accountNodes (proof : Proof B) (coin : CoinType) (account : ℕ) :
    List (AccountPublic B.toHdCrypto) :=
  (proof.nodes.filter fun n => n.1 = (coin, account)).map Prod.snd

def derivedBy (a : PublicAddress) (change : Bool) (index : ℕ) :
    List (AccountPublic B.toHdCrypto) → ℕ → Except WalletBackupError (Bool × ℕ)
  | [], checks => .ok (false, checks)
  | node :: rest, checks =>
    if 200000 < checks + 1 then .error .invalidInput
    else
      match node.deriveAddress change index with
      | .ok d =>
        if d.address = a.address ∧ d.publicKey = a.publicKey then .ok (true, checks + 1)
        else derivedBy a change index rest (checks + 1)
      | .error _ => derivedBy a change index rest (checks + 1)

def ownsAddress (proof : Proof B) (scope : NetworkScope) (seen : List KeyOrigin) (a : PublicAddress)
    (checks : ℕ) : Except WalletBackupError (Bool × ℕ) :=
  match a.origin with
  | .importedPublic =>
    .ok (decide (a.publicKey ∈ proof.imported ∨ (scope, a.publicKey) ∈ proof.paymentOwned), checks)
  | .bip44 coin account change index =>
    if hardened ≤ index ∨ hardened ≤ account ∨ a.origin ∈ seen then .error .invalidInput
    else derivedBy a change index (proof.accountNodes coin account) checks

def checkAddress (proof : Proof B) (scope : NetworkScope) (state : List PublicAddress × ℕ)
    (a : PublicAddress) : Except WalletBackupError (List PublicAddress × ℕ) := do
  let (seen, checks) := state
  match a.address.zone with
  | .error _ => .error .invalidInput
  | .ok zone =>
    if zone ≠ scope.zone ∨ a.address ∈ seen.map PublicAddress.address then .error .invalidInput
    else do
      let (owned, checks) ← ownsAddress proof scope (seen.map PublicAddress.origin) a checks
      if owned then .ok (a :: seen, checks) else .error .ownership

def checkCursor (proof : Proof B) (addresses : List PublicAddress) (seen : List DerivationState)
    (cursor : DerivationState) : Except WalletBackupError (List DerivationState) :=
  if hardened ≤ cursor.account ∨ hardened < cursor.nextIndex ∨
      ∃ s ∈ seen, s.coin = cursor.coin ∧ s.account = cursor.account ∧ s.change = cursor.change then
    .error .invalidInput
  else if ∃ s ∈ seen, s.coin = cursor.coin ∧ s.account = cursor.account ∧ s.xpub ≠ cursor.xpub then
    .error .ownership
  else if ¬∃ node ∈ proof.accountNodes cursor.coin cursor.account, node.exportXpub = cursor.xpub then
    .error .ownership
  else if ∃ a ∈ addresses, ∃ index ∈ (match a.origin with
      | .bip44 coin account change index =>
        if coin = cursor.coin ∧ account = cursor.account ∧ change = cursor.change then some index
        else none
      | .importedPublic => none), cursor.nextIndex ≤ index then .error .invalidInput
  else .ok (cursor :: seen)

def checkNonce (scope : NetworkScope) (addresses : List PublicAddress) (seen : List NonceState)
    (nonce : NonceState) : Except WalletBackupError (List NonceState) :=
  if nonce.address.zone ≠ scope.zone ∨
      nonce.address.address ∉ addresses.map PublicAddress.address ∨
      nonce.address ∈ seen.map NonceState.address then .error .invalidInput
  else .ok (nonce :: seen)

structure Used where
  ids : List ReservationId
  outpoints : List OutPoint
  nonceClaims : List (QuaiAddress × UInt64)
  total : ℕ

def checkOutpoint (scope : NetworkScope) (addresses : List PublicAddress) (seen : List OutPoint)
    (claim : OutPoint × Address) : Except WalletBackupError (List OutPoint) := do
  let owner ← (LedgerAddress.tryFrom .qi claim.2).mapError fun _ => invalidInput
  if owner.zone ≠ scope.zone ∨ claim.2 ∉ addresses.map PublicAddress.address ∨
      claim.1.transactionHash.byte 2 ≠ scope.zone.byte ∨
      claim.1.transactionHash = Hash32.zero ∨ claim.1 ∈ seen then .error .invalidInput
  else .ok (claim.1 :: seen)

def checkClaims (scope : ScopeState) (operation : OperationState) (used : Used) :
    Except WalletBackupError Used :=
  if operation.kind = 0 then
    if operation.nonce ≠ none ∨
        (operation.record.state = .released) ≠ (operation.qi = []) then .error .invalidInput
    else do
      let outpoints ← operation.qi.foldlM (checkOutpoint scope.scope scope.addresses) used.outpoints
      .ok { used with outpoints }
  else if operation.qi ≠ [] then .error .invalidInput
  else
    match operation.nonce with
    | none => .error .invalidInput
    | some (address, nonce) =>
      if (¬∃ s ∈ scope.nonces, s.address = address ∧ nonce < s.nextNonce) ∨
          (address, nonce) ∈ used.nonceClaims then .error .invalidInput
      else .ok { used with nonceClaims := (address, nonce) :: used.nonceClaims }

def checkPayload (C : Crypto) (scope : NetworkScope) (operation : OperationState) (payload : Bytes) :
    Except WalletBackupError Unit :=
  if payload = [] ∨ maxTransactionBytes < payload.length then .error .invalidInput
  else if operation.kind = 1 then do
    let signed ← (SignedQuaiTransaction.decode C payload).mapError fun _ =>
      invalidInput
    if signed.transaction.chainId ≠ scope.chainId ∨ signed.sender.zone ≠ scope.zone ∨
        some (signed.sender, signed.transaction.nonce) ≠ operation.nonce ∨
        signed.hash.toOption ≠ operation.record.transaction then .error .invalidInput
    else .ok ()
  else do
    let signed ← (SignedQiOperation.decode C payload).mapError fun _ =>
      invalidInput
    let inputs := signed.transaction.inputs.map fun i => (i.previousOutput, C.address i.publicKey)
    -- equality of sets
    if signed.transaction.chainId ≠ scope.chainId ∨ ¬inputs ⊆ operation.qi ∨
        ¬operation.qi ⊆ inputs ∨ signed.hash.toOption ≠ operation.record.transaction then
      .error .invalidInput
    else .ok ()

def checkReplacements (C : Crypto) (operation : OperationState) : Except WalletBackupError Unit :=
  if operation.replacements = [] then .ok ()
  else do
    let payload ← okOr operation.payload invalidInput
    (validateFamily C payload operation.replacements).mapError fun _ => invalidInput

def unsigned (record : Reservation) : Prop := record.state = .reserved ∨ record.state = .released

instance (record : Reservation) : Decidable (unsigned record) := inferInstanceAs (Decidable (_ ∨ _))

def checkOperation (C : Crypto) (scope : ScopeState) (used : Used) (operation : OperationState) :
    Except WalletBackupError Used :=
  let total := used.total + operation.qi.length
  let record := operation.record
  if maxRecords < total ∨ record.id ∈ used.ids ∨ 1 < operation.kind ∨ 4096 < operation.qi.length then
    .error .invalidInput
  else do
    checkReplacements C operation
    if unsigned record ≠ (record.transaction = none) ∨
        (record.state = .confirmed) ≠ (record.inclusion ≠ none) ∨
        (unsigned record ∧ operation.payload ≠ none) then .error .invalidInput
    else do
      let used ← checkClaims scope operation { used with ids := record.id :: used.ids, total }
      match operation.payload with
      | none => .ok used
      | some payload => do
        checkPayload C scope.scope operation payload
        .ok used

/-- One scope of `validate`; the state is the derivation budget and the record total. -/
def checkScope (proof : Proof B) (state : ℕ × ℕ) (scope : ScopeState) :
    Except WalletBackupError (ℕ × ℕ) := do
  let (_, checks) ← scope.addresses.foldlM (checkAddress proof scope.scope) ([], state.1)
  let _ ← scope.derivation.foldlM (checkCursor proof scope.addresses) []
  let _ ← scope.nonces.foldlM (checkNonce scope.scope scope.addresses) []
  let used ← scope.operations.foldlM (checkOperation B.toCrypto scope) ⟨[], [], [], state.2⟩
  .ok (checks, used.total)

def recordTotal (state : PublicWalletState) : ℕ :=
  state.channels.length + state.exposures.length +
    (state.scopes.map fun s =>
      s.addresses.length + s.derivation.length + s.nonces.length + s.operations.length).sum

/-- The payment owners of the channels, once every record has been proved. -/
def validate (b : WalletBackup B) : Except WalletBackupError (List B.PrivateCode) :=
  if b.origins = [] ∨ 16 < b.origins.length ∨ b.state.scopes = [] ∨ 64 < b.state.scopes.length then
    .error .invalidInput
  else if (∃ s ∈ b.state.scopes, s.scope.genesis = Hash32.zero) ∨
      ¬(b.state.scopes.map ScopeState.scope).Nodup then .error .invalidInput
  else if maxRecords < recordTotal b.state ∨ 4096 < b.accounts.length ∨
      8192 < b.origins.length * b.accounts.length then .error .invalidInput
  else do
    let (owners, paymentOwned) ← b.paymentProof
    let proof ← b.origins.foldlM (proveOrigin b.accounts) ⟨[], [], paymentOwned⟩
    let _ ← b.state.scopes.foldlM (checkScope proof) (0, recordTotal b.state)
    .ok owners

end WalletBackup

end QuaiSdk.Storage
