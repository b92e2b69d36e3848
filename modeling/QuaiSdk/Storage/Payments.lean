import QuaiSdk.Storage.Restore

/-!
# Payment channels

`storage/payment.rs`: a channel's eighteen cursors live in one metadata row with its own generation,
its exposed addresses in another table, and the addresses a wallet owns in the scope.  An ordinary
allocation burns its whole range in one transaction, searches without the write lock and records what
it found in a second one.
-/

namespace QuaiSdk.Storage

open Result Wallet

variable {B : Backend}

inductive PaymentError where
  | invalidIndex
  | limit
  | derivation
  | searchCancelled (attempts : ℕ) (nextIndex : Option ℕ)
  | searchExhausted (attempts : ℕ) (nextIndex : Option ℕ)
  deriving DecidableEq

structure PaymentSearchResult (B : Backend) where
  address : QiAddress
  publicKey : B.PublicKey
  index : ℕ
  attempts : ℕ
  nextIndex : Option ℕ

def paymentKey (owner : B.PrivateCode) (peer : Bytes) (direction : PaymentDirection) (index : ℕ) :
    Option B.PublicKey :=
  match direction with
  | .send => B.sendPublicKey owner peer index
  | .receive => B.receivePublicKey owner peer index

/-- The candidate loop; the fuel is `max_attempts` less the attempts made. -/
def paymentSearchLoop (owner : B.PrivateCode) (peer : Bytes) (direction : PaymentDirection)
    (zone : Zone) (cancelled : ℕ → Bool) :
    ℕ → ℕ → ℕ → ℕ → Except PaymentError (PaymentSearchResult B × ℕ)
  | 0, attempts, index, _ => .error (.searchExhausted attempts (some index))
  | fuel + 1, attempts, index, polls =>
    if cancelled polls then .error (.searchCancelled attempts (some index))
    else do
      let key ← okOr (paymentKey owner peer direction index) PaymentError.derivation
      let address := B.address key
      if address.ledger = .qi ∧ address.zone.toOption = some zone then do
        let address ← (LedgerAddress.tryFrom .qi address).mapError fun _ => PaymentError.derivation
        .ok (⟨address, key, index, attempts + 1, AccountPublic.nextChild index⟩, polls + 1)
      else
        match AccountPublic.nextChild index with
        | none => .error (.searchExhausted (attempts + 1) none)
        | some next =>
          paymentSearchLoop owner peer direction zone cancelled fuel (attempts + 1) next (polls + 1)

/-- `PrivatePaymentCode::search`, with the polls of the callback made so far. -/
def paymentSearch (owner : B.PrivateCode) (peer : Bytes) (direction : PaymentDirection)
    (search : Search) (cancelled : ℕ → Bool) (polls : ℕ) :
    Except PaymentError (PaymentSearchResult B × ℕ) :=
  if hardened ≤ search.startIndex then .error .invalidIndex
  else if search.maxAttempts = 0 ∨ 100000 < search.maxAttempts then .error .limit
  else paymentSearchLoop owner peer direction search.zone cancelled search.maxAttempts 0
    search.startIndex polls

def paymentSearchError : PaymentError → StorageError
  | .searchCancelled _ _ => .cancelled
  | .searchExhausted _ _ => .derivationExhausted
  | _ => .invalid

/-- The closure `derive` of an allocation. -/
def searchPayments (scope : NetworkScope) (owner : B.PrivateCode) (peer : Bytes)
    (direction : PaymentDirection) (range : IndexRange) (cancelled : ℕ → Bool) (polls : ℕ) :
    Except StorageError (PaymentSearchResult B × ℕ) :=
  (paymentSearch owner peer direction
    { zone := scope.zone, startIndex := range.start, maxAttempts := range.stop - range.start }
    cancelled polls).mapError paymentSearchError

structure PaymentAddressAllocation (B : Backend) where
  found : PaymentSearchResult B
  burned : IndexRange
  channelGeneration : ℕ
  snapshotGeneration : Option ℕ

structure PendingPayment (B : Backend) where
  owner : B.PrivateCode
  peer : Bytes
  direction : PaymentDirection
  start : ℕ
  limit : ℕ
  generation : ℕ
  cancelled : ℕ → Bool
  polls : ℕ

def ownedKey (network : Network) (owner : B.PrivateCode) (peer : Bytes) : ChannelKey :=
  ⟨network, B.publicCode owner, peer, B.codeAccount owner⟩

namespace Database

/-- `read_channel` of a channel that must exist. -/
def requireChannel (network : Network) (owner : B.PrivateCode) (peer : Bytes) (db : Database) :
    Except StorageError (PaymentChannel × ℕ) := do
  let stored ← db.readChannel network owner peer
  okOr stored StorageError.invalid

def cursorAt (stop : ℕ) : Option ℕ := if stop = hardened then none else some stop

def invalidateNetwork (network : Network) (db : Database) :
    Except StorageError (List (NetworkScope × ℕ) × Database) :=
  db.scopes.keys.foldlM (invalidateScope [network] []) ([], db)

def importGeneration (incoming : PaymentChannel) (expected : Option ℕ)
    (old : Option (PaymentChannel × ℕ)) : Except StorageError ℕ :=
  match old with
  | some (channel, generation) =>
    if expected ≠ some generation then .error .staleSnapshot
    else if ∃ slot ∈ cursorSlots,
        cursorValue (incoming.nextIndex slot.1 slot.2) <
          cursorValue (channel.nextIndex slot.1 slot.2) then .error .conflict
    else if maxInteger < generation + 1 then .error .overflow
    else .ok (generation + 1)
  | none => if expected.isSome then .error .staleSnapshot else .ok 0

def importPaymentChannel (scope : NetworkScope) (owner : B.PrivateCode) (channel : PaymentChannel)
    (expected : Option ℕ) (db : Database) : Except StorageError (ℕ × Database) := do
  let encoded ← okOr (B.channelToJson channel) StorageError.invalid
  let incoming ← PaymentChannel.fromJson owner encoded
  let old ← db.readChannel scope.network owner incoming.peerCode
  let generation ← importGeneration incoming expected old
  let db ← db.writeChannel B scope.network incoming generation
  let (_, db) ← db.invalidateNetwork scope.network
  .ok (generation, db)

def deriveReceive (scope : NetworkScope) (owner : B.PrivateCode) (peer : Bytes) (index : ℕ) :
    Except StorageError (ℕ × B.PublicKey × QiAddress) := do
  let key ← okOr (B.receivePublicKey owner peer index) StorageError.invalid
  let address ← (LedgerAddress.tryFrom .qi (B.address key)).mapError fun _ => StorageError.invalid
  if address.zone ≠ scope.zone then .error .invalid else .ok (index, key, address)

def exposureOf (scope : NetworkScope) (owner : B.PrivateCode) (peer : Bytes)
    (direction : PaymentDirection) (index : ℕ) (key : B.PublicKey) (address : QiAddress)
    (burned : IndexRange) : StoredPaymentExposure where
  network := scope.network
  localCode := B.publicCode owner
  peerCode := peer
  account := B.codeAccount owner
  record :=
    { direction, zone := scope.zone, index, address, publicKey := B.toCompressed key, burned }

def importReceiveIndex (scope : NetworkScope) (owner : B.PrivateCode) (peer : Bytes)
    (st : ℕ × Database) (child : ℕ × B.PublicKey × QiAddress) :
    Except StorageError (ℕ × Database) := do
  let (stop, db) := st
  let (index, key, address) := child
  let old := db.exposures.lookup ⟨ownedKey scope.network owner peer, .receive, scope.zone, index⟩
  let burned := (old.map ExposureRow.burned).getD ⟨index, index + 1⟩
  let db ← insertExposure true db (exposureOf scope owner peer .receive index key address burned)
  let imported ← PublicAddress.imported B.toHdCrypto key
  let t ← (db.tables scope).insertAddress B.toHdCrypto scope imported
  .ok (max stop (index + 1), { db with scopes := db.scopes.insert scope t })

def finishImport (scope : NetworkScope) (owner : B.PrivateCode) (stored : PaymentChannel × ℕ)
    (stop : ℕ) (db : Database) : Except StorageError Database :=
  if maxCoins < (db.tables scope).addresses.entries.length then .error .invalid
  else do
    let channel ← stored.1.advanceCursor owner .receive scope.zone (cursorAt stop)
    let db ← db.writeChannel B scope.network channel (stored.2 + 1)
    let t := db.tables scope
    let next ← t.nextGeneration t.generation
    .ok { db with scopes := db.scopes.insert scope (t.clearSnapshot next) }

def importPaymentReceiveIndexes (scope : NetworkScope) (owner : B.PrivateCode) (peer : Bytes)
    (indexes : List ℕ) (db : Database) : Except StorageError Database :=
  if 1024 < indexes.length ∨ ¬indexes.Nodup then .error .invalid
  else do
    let derived ← indexes.mapM (deriveReceive scope owner peer)
    let stored ← db.requireChannel scope.network owner peer
    let (stop, db) ← derived.foldlM (importReceiveIndex scope owner peer)
      (cursorValue (stored.1.nextIndex .receive scope.zone), db)
    db.finishImport scope owner stored stop

def paymentRange (scope : NetworkScope) (owner : B.PrivateCode) (peer : Bytes)
    (direction : PaymentDirection) (maxAttempts : ℕ) (cancelled : ℕ → Bool) (db : Database) :
    Except StorageError ((PaymentChannel × ℕ) × IndexRange) :=
  if maxAttempts = 0 ∨ 100000 < maxAttempts then .error .invalid
  else if cancelled 0 then .error .cancelled
  else do
    let stored ← db.requireChannel scope.network owner peer
    let start ← okOr (stored.1.nextIndex direction scope.zone) StorageError.derivationExhausted
    if hardened < start + maxAttempts then .error .overflow
    else .ok (stored, ⟨start, start + maxAttempts⟩)

def burnPayments (scope : NetworkScope) (owner : B.PrivateCode) (direction : PaymentDirection)
    (stored : PaymentChannel × ℕ) (stop : ℕ) (db : Database) : Except StorageError (ℕ × Database) :=
  do
    let channel ← stored.1.advanceCursor owner direction scope.zone (cursorAt stop)
    if maxInteger < stored.2 + 1 then .error .overflow
    else do
      let db ← db.writeChannel B scope.network channel (stored.2 + 1)
      .ok (stored.2 + 1, db)

def recordReceive (scope : NetworkScope) (key : B.PublicKey) (db : Database) :
    Except StorageError (ℕ × Database) := do
  let address ← PublicAddress.imported B.toHdCrypto key
  let t := db.tables scope
  if address.address ∈ t.addresses then .error .conflict
  else if maxCoins ≤ t.addresses.entries.length then .error .invalid
  else do
    let t ← t.insertAddress B.toHdCrypto scope address
    let next ← t.nextGeneration t.generation
    .ok (next, { db with scopes := db.scopes.insert scope (t.clearSnapshot next) })

def recordOwned (scope : NetworkScope) (direction : PaymentDirection) (key : B.PublicKey)
    (db : Database) : Except StorageError (Option ℕ × Database) :=
  match direction with
  | .send => .ok (none, db)
  | .receive => (db.recordReceive scope key).map fun r => (some r.1, r.2)

def finishPayment (scope : NetworkScope) (owner : B.PrivateCode) (peer : Bytes)
    (direction : PaymentDirection) (found : PaymentSearchResult B) (burned : IndexRange)
    (generation : ℕ) (cancelled : Bool) (db : Database) :
    Except StorageError (PaymentAddressAllocation B × Database) :=
  if cancelled then .error .cancelled
  else do
    let current ← db.requireChannel scope.network owner peer
    if cursorValue (current.1.nextIndex direction scope.zone) < burned.stop then .error .conflict
    else do
      let db ← insertExposure false db
        (exposureOf scope owner peer direction found.index found.publicKey found.address burned)
      let (snapshot, db) ← db.recordOwned scope direction found.publicKey
      .ok (⟨found, burned, generation, snapshot⟩, db)

/-- First transaction of `allocate_payment_address`: burn the full range. -/
def reservePayment (scope : NetworkScope) (owner : B.PrivateCode) (peer : Bytes)
    (direction : PaymentDirection) (maxAttempts : ℕ) (cancelled : ℕ → Bool) (db : Database) :
    Except StorageError (PendingPayment B × Database) := do
  let (stored, range) ← db.paymentRange scope owner peer direction maxAttempts cancelled
  let (generation, db) ← db.burnPayments scope owner direction stored range.stop
  .ok (⟨owner, peer, direction, range.start, range.stop, generation, cancelled, 1⟩, db)

def completePayment (scope : NetworkScope) (p : PendingPayment B) (db : Database) :
    Except StorageError (PaymentAddressAllocation B × Database) := do
  let (found, polls) ← searchPayments scope p.owner p.peer p.direction ⟨p.start, p.limit⟩ p.cancelled
    p.polls
  db.finishPayment scope p.owner p.peer p.direction found ⟨p.start, p.limit⟩ p.generation
    (p.cancelled polls)

/-- `allocate_payment_address_compact`: search under the write lock, burn what was examined. -/
def allocatePaymentCompact (scope : NetworkScope) (owner : B.PrivateCode) (peer : Bytes)
    (direction : PaymentDirection) (maxAttempts : ℕ) (cancelled : ℕ → Bool) (db : Database) :
    Except StorageError (PaymentAddressAllocation B × Database) := do
  let (stored, range) ← db.paymentRange scope owner peer direction maxAttempts cancelled
  let (found, polls) ← searchPayments scope owner peer direction range cancelled 1
  let stop := found.index + 1
  let (generation, db) ← db.burnPayments scope owner direction stored stop
  db.finishPayment scope owner peer direction found ⟨range.start, stop⟩ generation (cancelled polls)

end Database

end QuaiSdk.Storage
