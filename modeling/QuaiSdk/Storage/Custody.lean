import QuaiSdk.Storage.Family

/-!
# Operations and their claims

Reservation of Qi outputs and account nonces, the signed payload of an operation, and the state
changes between reservation and inclusion.
-/

namespace QuaiSdk.Storage

open Result Wallet StorageError

variable {C : Crypto}

namespace ScopeTables

def withCustody (f : Custody → Custody) (t : ScopeTables) : ScopeTables :=
  { t with custody := f t.custody }

def insertReservation (id : ReservationId) (kind : OperationKind) (t : ScopeTables) :
    Except StorageError ScopeTables := do
  let reservations ← t.custody.reservations.insertNew conflict id ⟨kind, .reserved⟩
  .ok (t.withCustody fun c => { c with reservations })

/-- `UPDATE reservations SET ..` of one operation. -/
def setStatus (id : ReservationId) (status : Status) (t : ScopeTables) : ScopeTables :=
  t.withCustody fun c => { c with
    reservations := c.reservations.update fun k (row : ReservationRow) =>
      if k = id then { row with status } else row }

def claimOutpoint (id : ReservationId) (candidateHeight : ℕ) (t : ScopeTables) (o : OutPoint) :
    Except StorageError ScopeTables := do
  let coin ← okOr (t.coins.lookup o) invalid
  if candidateHeight < coin.row.unlockHeight ∨
      ∃ height ∈ coin.row.expiresAt, height ≤ candidateHeight then .error .invalid
  else if o ∈ t.custody.qiClaims then .error .conflict
  else if id ∉ t.custody.reservations ∨ coin.row.address ∉ t.addresses then .error .database
  else .ok (t.withCustody fun c =>
    { c with qiClaims := c.qiClaims.insert o ⟨id, coin.row.address⟩ })

def claimOutpoints (id : ReservationId) (candidateHeight : ℕ) :
    List OutPoint → List OutPoint → ScopeTables → Except StorageError ScopeTables
  | [], _, t => .ok t
  | o :: rest, seen, t =>
    if o ∈ seen then .error .invalid
    else do
      let t ← claimOutpoint id candidateHeight t o
      claimOutpoints id candidateHeight rest (o :: seen) t

def reserveQi (id : ReservationId) (generation candidateHeight : ℕ) (outpoints : List OutPoint)
    (t : ScopeTables) : Except StorageError ScopeTables :=
  if outpoints = [] ∨ 4096 < outpoints.length then .error .invalid
  else if t.generation ≠ generation ∨ t.checkpoint = none ∨
      ∃ c ∈ t.checkpoint, candidateHeight < c.height then .error .staleSnapshot
  else do
    let t ← t.insertReservation id .qi
    claimOutpoints id candidateHeight outpoints [] t

/-- `INSERT INTO nonce_claims`, with its primary key, unique index and foreign keys. -/
def insertNonceClaim (address : Address) (nonce : UInt64) (id : ReservationId) (t : ScopeTables) :
    Except StorageError ScopeTables :=
  if (∃ r ∈ t.custody.nonceClaims.rows, r.2 = id) ∨ id ∉ t.custody.reservations ∨
      address ∉ t.addresses then .error .database
  else do
    let nonceClaims ← t.custody.nonceClaims.insertNew database (address, nonce) id
    .ok (t.withCustody fun c => { c with nonceClaims })

/-- `INSERT INTO nonce_cursors .. ON CONFLICT .. DO UPDATE`. -/
def setNonceCursor (address : Address) (next : UInt64) (t : ScopeTables) :
    Except StorageError ScopeTables :=
  if address ∉ t.addresses then .error .database
  else .ok (t.withCustody fun c => { c with nonceCursors := c.nonceCursors.insert address next })

def maxNonce (address : Address) (nonce : UInt64) (t : ScopeTables) : UInt64 :=
  max nonce ((t.custody.nonceCursors.lookup address).getD 0)

def reserveNonce (scope : NetworkScope) (id : ReservationId) (address : QuaiAddress)
    (remotePending : UInt64) (t : ScopeTables) : Except StorageError (UInt64 × ScopeTables) :=
  if address.zone ≠ scope.zone then .error .invalid
  else do
    t.requireAddress address.address
    let nonce := t.maxNonce address.address remotePending
    -- `checked_add(1)`
    if nonce.toNat + 1 = 2 ^ 64 then .error .overflow
    else do
      let t ← t.insertReservation id .quai
      let t ← t.insertNonceClaim address.address nonce id
      let t ← t.setNonceCursor address.address (nonce + 1)
      .ok (nonce, t)

def validateQuaiClaim (id : ReservationId) (signed : SignedQuaiTransaction C) (t : ScopeTables) :
    Except StorageError Unit :=
  if t.custody.nonceClaims.lookup (signed.sender.address, signed.transaction.nonce) = some id then
    .ok ()
  else .error .conflict

def validateQiClaim (id : ReservationId) (transaction : QiTransaction C) (t : ScopeTables) :
    Except StorageError Unit :=
  let count := t.custody.qiClaims.rows.countP fun r => r.2.operation = id
  if count ≠ transaction.inputs.length ∨ count = 0 then .error .conflict
  else if ∀ input ∈ transaction.inputs,
      t.custody.qiClaims.lookup input.previousOutput = some ⟨id, C.address input.publicKey⟩ then
    .ok ()
  else .error .conflict

def burnSigned (payload : Bytes) (t : ScopeTables) : ScopeTables :=
  { t with releasedChange := t.releasedChange.delete fun _ a => a.bytes <:+: payload }

def storePayload (id : ReservationId) (hash : Hash32) (kind : OperationKind) (payload : Bytes)
    (state : ReservationState) (t : ScopeTables) : Except StorageError ScopeTables := do
  let signedPayloads ← t.custody.signedPayloads.insertNew database id ⟨kind, payload⟩
  let t := (t.withCustody fun c => { c with signedPayloads }).burnSigned payload
  if state = .reserved then .ok (t.setStatus id (.signed hash)) else .ok t

def commitPayload (id : ReservationId) (hash : Hash32) (kind : OperationKind) (payload : Bytes)
    (t : ScopeTables) : Except StorageError ScopeTables :=
  if payload = [] ∨ maxTransactionBytes < payload.length then .error .invalid
  else do
    let row ← okOr (t.custody.reservations.lookup id) transition
    if row.kind ≠ kind ∨ (∃ previous ∈ row.status.transaction, previous ≠ hash) ∨
        row.status.state = .released then .error .transition
    else
      match t.custody.signedPayloads.lookup id with
      | some previous => if previous.payload ≠ payload then .error .conflict else .ok t
      | none => t.storePayload id hash kind payload row.status.state

def commitSignedQuai (scope : NetworkScope) (id : ReservationId) (signed : SignedQuaiTransaction C)
    (t : ScopeTables) : Except StorageError ScopeTables := do
  let payload ← orInvalid signed.signedBytes
  let hash ← orInvalid signed.hash
  if signed.transaction.chainId ≠ scope.chainId ∨ signed.sender.zone ≠ scope.zone then
    .error .invalid
  else do
    t.validateQuaiClaim id signed
    t.commitPayload id hash .quai payload

def commitSignedQiOperation (scope : NetworkScope) (id : ReservationId)
    (signed : SignedQiOperation C) (t : ScopeTables) : Except StorageError ScopeTables := do
  let payload ← orInvalid signed.signedBytes
  let hash ← orInvalid signed.hash
  if signed.transaction.chainId ≠ scope.chainId ∨ hash.byte 0 ≠ scope.zone.byte then .error .invalid
  else do
    t.validateQiClaim id signed.transaction
    t.commitPayload id hash .qi payload

def commitSignedQi (scope : NetworkScope) (id : ReservationId) (signed : SignedQiTransaction C)
    (t : ScopeTables) : Except StorageError ScopeTables :=
  t.commitSignedQiOperation scope id (.transfer signed)

def payloadHash (C : Crypto) (scope : NetworkScope) (id : ReservationId) (stored : SignedPayload)
    (t : ScopeTables) : Except StorageError Hash32 :=
  match stored.kind with
  | .quai => do
    let signed ← orInvalid (SignedQuaiTransaction.decode C stored.payload)
    if signed.transaction.chainId ≠ scope.chainId ∨ signed.sender.zone ≠ scope.zone then
      .error .invalid
    else do
      t.validateQuaiClaim id signed
      orInvalid signed.hash
  | .qi => do
    let signed ← orInvalid (SignedQiOperation.decode C stored.payload)
    let hash ← orInvalid signed.hash
    if signed.transaction.chainId ≠ scope.chainId ∨ hash.byte 0 ≠ scope.zone.byte then
      .error .invalid
    else do
      t.validateQiClaim id signed.transaction
      .ok hash

def signedPayloadRead (C : Crypto) (scope : NetworkScope) (id : ReservationId) (t : ScopeTables) :
    Except StorageError (Option Bytes) :=
  match t.custody.signedPayloads.lookup id with
  | none => .ok none
  | some stored =>
    if stored.payload = [] ∨ maxTransactionBytes < stored.payload.length then .error .invalid
    else do
      let operation ← okOr (t.reservationRead id) invalid
      let hash ← t.payloadHash C scope id stored
      if operation.transaction ≠ some hash ∨ operation.state = .reserved ∨
          operation.state = .released then .error .invalid
      else .ok (some stored.payload)

def requireReservation (id : ReservationId) (t : ScopeTables) : Except StorageError Status :=
  okOr ((t.custody.reservations.lookup id).map (·.status)) transition

def markSigned (id : ReservationId) (transaction : Hash32) (t : ScopeTables) :
    Except StorageError ScopeTables := do
  let old ← t.requireReservation id
  if old = .signed transaction then .ok t
  else if old ≠ .reserved then .error .transition
  else .ok (t.setStatus id (.signed transaction))

def markSubmitted (id : ReservationId) (t : ScopeTables) : Except StorageError ScopeTables := do
  let old ← t.requireReservation id
  match old with
  | .submitted _ => .ok t
  | .signed transaction => .ok (t.setStatus id (.submitted transaction))
  | _ => .error .transition

def observeInclusionScoped (expected : ℕ) (id : ReservationId) (transaction : Hash32)
    (block : Checkpoint) (t : ScopeTables) : Except StorageError ScopeTables :=
  if t.generation ≠ expected then .error .staleSnapshot
  else do
    let old ← t.requireReservation id
    if old = .confirmed transaction block then .ok t
    else if old ≠ .signed transaction ∧ old ≠ .submitted transaction then .error .transition
    else .ok (t.setStatus id (.confirmed transaction block))

def invalidateInclusion (id : ReservationId) (expected : Checkpoint) (t : ScopeTables) :
    Except StorageError ScopeTables := do
  let old ← t.requireReservation id
  match old with
  | .confirmed transaction block =>
    if block ≠ expected then .error .staleSnapshot
    else .ok (t.setStatus id (.submitted transaction))
  | _ => .error .staleSnapshot

def reopenUnsignedNonce (id : ReservationId) (t : ScopeTables) : Except StorageError ScopeTables :=
  do
    let old ← t.requireReservation id
    if old ≠ .released then .error .transition
    else if (t.custody.nonceClaims.rows.countP fun r => r.2 = id) ≠ 1 then .error .transition
    else .ok (t.setStatus id .reserved)

def releaseUnsigned (id : ReservationId) (t : ScopeTables) : Except StorageError ScopeTables := do
  let old ← t.requireReservation id
  if old ≠ .reserved then .error .transition
  else
    let t := t.withCustody fun c =>
      { c with qiClaims := c.qiClaims.delete fun _ (claim : QiClaim) => claim.operation = id }
    .ok (t.setStatus id .released)

end ScopeTables

end QuaiSdk.Storage
