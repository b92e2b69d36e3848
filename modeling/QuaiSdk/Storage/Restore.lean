import QuaiSdk.Storage.BackupValidation

/-!
# Restoring public state

`restore_public_state`: one transaction that merges every scope of a backup into the database and
then its payment channels.  Existing cursors never decrease, an existing operation must equal the
backed-up one, and every touched scope loses its snapshot.
-/

namespace QuaiSdk.Storage

open Result Wallet StorageError

structure ChannelRow where
  generation : ℕ
  metadata : Bytes
  deriving DecidableEq

structure ExposureKey where
  channel : ChannelKey
  direction : PaymentDirection
  zone : Zone
  index : ℕ
  deriving DecidableEq

structure ExposureRow where
  publicKey : Bytes
  address : Address
  burned : IndexRange
  deriving DecidableEq

/-- All scopes of one database file, and the channels that span them. -/
structure Database where
  scopes : Table NetworkScope ScopeTables
  channels : Table ChannelKey ChannelRow
  exposures : Table ExposureKey ExposureRow

def Database.empty : Database := ⟨∅, ∅, ∅⟩

def Database.tables (db : Database) (scope : NetworkScope) : ScopeTables :=
  (db.scopes.lookup scope).getD .empty

abbrev byOutPoint (a b : OutPoint × Address) : Prop := outPointKey a.1 ≤ outPointKey b.1

namespace ScopeTables

def operationClaims (id : ReservationId) (t : ScopeTables) : List (OutPoint × Address) :=
  ((t.custody.qiClaims.rows.filter fun r => r.2.operation = id).map fun r =>
    (r.1, r.2.address)).insertionSort byOutPoint

def operationNonce (id : ReservationId) (t : ScopeTables) :
    Except StorageError (Option (QuaiAddress × UInt64)) :=
  match t.custody.nonceClaims.rows.find? fun r => r.2 = id with
  | none => .ok none
  | some r => do
    let address ← (LedgerAddress.tryFrom .quai r.1.1).mapError fun _ => invalid
    .ok (some (address, r.1.2))

def checkStoredFamily (C : Crypto) (payload : Option Bytes) (variants : List QuaiReplacement) :
    Except StorageError Unit :=
  if variants = [] then .ok ()
  else do
    let root ← okOr payload invalid
    validateFamily C root variants

def kindColumn : OperationKind → ℕ
  | .qi => 0
  | .quai => 1

def readOperation (C : Crypto) (scope : NetworkScope) (id : ReservationId) (t : ScopeTables) :
    Except StorageError (Option OperationState) :=
  match t.custody.reservations.lookup id with
  | none => .ok none
  | some row =>
    let qi := t.operationClaims id
    if 4096 < qi.length then .error .invalid
    else do
      let nonce ← t.operationNonce id
      let payload ← t.signedPayloadRead C scope id
      let replacements ← t.readVariants id
      checkStoredFamily C payload replacements
      .ok (some
        { record := ⟨id, row.status.state, row.status.transaction, row.status.inclusion⟩
          kind := kindColumn row.kind
          qi, nonce, payload, replacements })

def checkAccountRows {W : HdCrypto} (account : AccountPublic W) :
    List (Address × AddressRow) → Except StorageError Unit
  | [] => .ok ()
  | (address, row) :: rest =>
    match row.origin with
    | .importedPublic => checkAccountRows account rest
    | .bip44 coin owner change index =>
      if coin = account.coin ∧ owner = account.account then do
        checkExposed account none change index address row
        checkAccountRows account rest
      else checkAccountRows account rest

/-- `INSERT .. ON CONFLICT .. DO UPDATE SET next_index=max(next_index,excluded.next_index)`. -/
def mergeCursor (b : Branch) (xpub : String) (next : ℕ) (t : ScopeTables) : ScopeTables :=
  match t.derivationCursors.lookup b with
  | none => t.setCursor b xpub next
  | some cursor => t.setCursor b xpub (max cursor.nextIndex next)

def checkBinding (W : HdCrypto) (cursor : DerivationState) (t : ScopeTables) :
    Except StorageError Unit :=
  match t.boundXpub cursor.coin cursor.account with
  | some xpub => if xpub ≠ cursor.xpub then .error .conflict else .ok ()
  | none => do
    let account ← (AccountPublic.importXpub W cursor.xpub cursor.coin cursor.account).mapError
      fun _ => invalid
    checkAccountRows account t.addresses.rows

def restoreCursor (W : HdCrypto) (t : ScopeTables) (cursor : DerivationState) :
    Except StorageError ScopeTables := do
  t.checkBinding W cursor
  .ok (t.mergeCursor ⟨cursor.coin, cursor.account, cursor.change⟩ cursor.xpub cursor.nextIndex)

def raisePast (t : ScopeTables) (row : Address × AddressRow) : ScopeTables :=
  match row.2.origin with
  | .importedPublic => t
  | .bip44 coin account change index => t.raiseCursor ⟨coin, account, change⟩ (index + 1)

def raiseAll (t : ScopeTables) : ScopeTables := t.addresses.rows.foldl raisePast t

def restoreNonce (t : ScopeTables) (nonce : NonceState) : Except StorageError ScopeTables :=
  t.setNonceCursor nonce.address.address (t.maxNonce nonce.address.address nonce.nextNonce)

/-- `INSERT INTO qi_claims`, with its primary and foreign keys. -/
def insertQiClaim (id : ReservationId) (t : ScopeTables) (claim : OutPoint × Address) :
    Except StorageError ScopeTables :=
  if id ∉ t.custody.reservations ∨ claim.2 ∉ t.addresses then .error .database
  else do
    let qiClaims ← t.custody.qiClaims.insertNew database claim.1 ⟨id, claim.2⟩
    .ok (t.withCustody fun c => { c with qiClaims })

def restoreNonceClaim (id : ReservationId) (nonce : Option (QuaiAddress × UInt64))
    (t : ScopeTables) : Except StorageError ScopeTables :=
  match nonce with
  | none => .ok t
  | some (address, nonce) => t.insertNonceClaim address.address nonce id

def restorePayload (C : Crypto) (scope : NetworkScope) (id : ReservationId) (kind : OperationKind)
    (payload : Option Bytes) (t : ScopeTables) : Except StorageError ScopeTables :=
  match payload with
  | none => .ok t
  | some payload =>
    if payload = [] ∨ maxTransactionBytes < payload.length then .error .database
    else do
      let signedPayloads ← t.custody.signedPayloads.insertNew database id ⟨kind, payload⟩
      let t := t.withCustody fun c => { c with signedPayloads }
      let stored ← t.signedPayloadRead C scope id
      let _ ← okOr stored invalid
      .ok t

def insertVariants (id : ReservationId) :
    ℕ → List QuaiReplacement → ScopeTables → Except StorageError ScopeTables
  | _, [], t => .ok t
  | sequence, variant :: rest, t => do
    let t ← t.insertVariant id sequence variant
    insertVariants id (sequence + 1) rest t

def insertOperation (C : Crypto) (scope : NetworkScope) (operation : OperationState)
    (t : ScopeTables) : Except StorageError ScopeTables := do
  let record := operation.record
  let kind ← okOr (OperationKind.fromColumn operation.kind) database
  let status ← okOr (Status.ofColumns record.state record.transaction record.inclusion)
    database
  let reservations ← t.custody.reservations.insertNew database record.id ⟨kind, status⟩
  let t := t.withCustody fun c => { c with reservations }
  let t ← operation.qi.foldlM (insertQiClaim record.id) t
  let t ← t.restoreNonceClaim record.id operation.nonce
  let t ← t.restorePayload C scope record.id kind operation.payload
  insertVariants record.id 0 operation.replacements t

def restoreOperation (C : Crypto) (scope : NetworkScope) (t : ScopeTables)
    (operation : OperationState) : Except StorageError ScopeTables := do
  let old ← t.readOperation C scope operation.record.id
  match old with
  | some old => if old ≠ operation then .error .conflict else .ok t
  | none => t.insertOperation C scope operation

def restoreScope (W : HdCrypto) (state : ScopeState) (t : ScopeTables) :
    Except StorageError (ℕ × ScopeTables) := do
  let t := { t with observationCache := ∅, releasedChange := ∅ }
  let next ← t.nextGeneration t.generation
  let t ← t.insertAddresses W state.scope state.addresses
  if maxRecords < t.addresses.entries.length then .error .invalid
  else do
    let t ← state.derivation.foldlM (restoreCursor W) t
    let t ← state.nonces.foldlM restoreNonce t.raiseAll
    let t ← state.operations.foldlM (restoreOperation W.toCrypto state.scope) t
    let t ← t.clearHead
    .ok (next, t.clearSnapshot next)

end ScopeTables

namespace Database

variable {B : Backend}

/-- `INSERT OR IGNORE INTO scopes` and then the merge of one scope. -/
def restoreScope (W : HdCrypto) (st : List (NetworkScope × ℕ) × Database) (state : ScopeState) :
    Except StorageError (List (NetworkScope × ℕ) × Database) := do
  let (generations, db) := st
  let (next, t) ← (db.tables state.scope).restoreScope W state
  .ok (generations ++ [(state.scope, next)], { db with scopes := db.scopes.insert state.scope t })

def readChannel (network : Network) (owner : B.PrivateCode) (peer : Bytes) (db : Database) :
    Except StorageError (Option (PaymentChannel × ℕ)) :=
  match db.channels.lookup ⟨network, B.publicCode owner, peer, B.codeAccount owner⟩ with
  | none => .ok none
  | some row => do
    let channel ← PaymentChannel.fromJson owner row.metadata
    if channel.peerCode ≠ peer then .error .invalid else .ok (some (channel, row.generation))

def writeChannel (B : Backend) (network : Network) (channel : PaymentChannel) (generation : ℕ)
    (db : Database) : Except StorageError Database := do
  let metadata ← okOr (B.channelToJson channel) invalid
  if maxInteger < generation then .error .overflow
  else
    let channels := db.channels.insert
      ⟨network, channel.localCode, channel.peerCode, channel.account⟩ ⟨generation, metadata⟩
    -- the bound is on the file, across networks and owners
    if 1024 < db.channels.entries.length ∨ 1024 < channels.entries.length then .error .limitReached
    else .ok { db with channels }

def insertExposure (allowIdentical : Bool) (db : Database) (exposure : StoredPaymentExposure) :
    Except StorageError Database :=
  let record := exposure.record
  let key : ExposureKey := ⟨exposure.key, record.direction, record.zone, record.index⟩
  let row : ExposureRow := ⟨record.publicKey, record.address.address, record.burned⟩
  match db.exposures.lookup key with
  | some old => if allowIdentical ∧ old = row then .ok db else .error .conflict
  | none =>
    if 100000 ≤ db.exposures.entries.length then .error .invalid
    else if exposure.key ∉ db.channels then .error .database
    else .ok { db with exposures := db.exposures.insert key row }

def mergeCursors (owner : B.PrivateCode) (incoming : PaymentChannel) (merged : PaymentChannel)
    (slot : PaymentDirection × Zone) : Except StorageError PaymentChannel :=
  let wanted := incoming.nextIndex slot.1 slot.2
  if cursorValue (merged.nextIndex slot.1 slot.2) < cursorValue wanted then
    merged.advanceCursor owner slot.1 slot.2 wanted
  else .ok merged

def cursorSlots : List (PaymentDirection × Zone) :=
  [PaymentDirection.send, .receive].flatMap fun d => allZones.map fun z => (d, z)

def restoreChannel (db : Database) (entry : StoredPaymentChannel × B.PrivateCode) :
    Except StorageError Database := do
  let (stored, owner) := entry
  let incoming ← stored.checked owner
  let existing ← readChannel stored.network owner incoming.peerCode db
  let (base, generation) := match existing with
    | some (channel, generation) => (channel, generation + 1)
    | none => (incoming, 0)
  let merged ← cursorSlots.foldlM (mergeCursors owner incoming) base
  db.writeChannel B stored.network merged generation

def invalidateScope (networks : List Network) (skip : List NetworkScope)
    (st : List (NetworkScope × ℕ) × Database) (scope : NetworkScope) :
    Except StorageError (List (NetworkScope × ℕ) × Database) :=
  let (generations, db) := st
  if scope.network ∈ networks ∧ scope ∉ skip then do
    let t := db.tables scope
    let next ← t.nextGeneration t.generation
    .ok (generations ++ [(scope, next)],
      { db with scopes := db.scopes.insert scope (t.clearSnapshot next) })
  else .ok (generations, db)

def restoreChannels (state : PublicWalletState) (owners : List B.PrivateCode)
    (generations : List (NetworkScope × ℕ)) (db : Database) :
    Except StorageError (List (NetworkScope × ℕ) × Database) :=
  if owners.length ≠ state.channels.length then .error .invalid
  else do
    let db ← (state.channels.zip owners).foldlM restoreChannel db
    let db ← state.exposures.foldlM (insertExposure true) db
    let networks := state.channels.map StoredPaymentChannel.network
    db.scopes.keys.foldlM (invalidateScope networks (generations.map Prod.fst)) (generations, db)

def restorePublicState (scope : NetworkScope) (state : PublicWalletState)
    (owners : List B.PrivateCode) (db : Database) :
    Except StorageError (List (NetworkScope × ℕ) × Database) :=
  if 64 < state.scopes.length ∨ scope ∉ state.scopes.map ScopeState.scope then .error .invalid
  else do
    let (generations, db) ← state.scopes.foldlM (restoreScope B.toHdCrypto) ([], db)
    db.restoreChannels state owners generations

/-- `WalletBackup::restore`: validated first, merged in one transaction. -/
def restore (scope : NetworkScope) (backup : WalletBackup B) (db : Database) :
    Except WalletBackupError (List (NetworkScope × ℕ) × Database) := do
  let owners ← backup.validate
  (db.restorePublicState scope backup.state owners).mapError WalletBackupError.storage

end Database

end QuaiSdk.Storage
