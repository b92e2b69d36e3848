import QuaiSdk.Storage.Custody

/-!
# Replacement candidates, observations and released change

Rows that hang off a signed operation: its replacement edges and the cached observations of its
candidates; and the change addresses that were returned before any signature.
-/

namespace QuaiSdk.Storage

open Result Wallet StorageError

variable {C : Crypto} {W : HdCrypto}

/-- Order of `ORDER BY` on the first column. -/
abbrev byKey {α : Type} (a b : ℕ × α) : Prop := a.1 ≤ b.1

namespace ScopeTables

def collectVariants :
    List (ℕ × QuaiReplacement) → List QuaiReplacement → Except StorageError (List QuaiReplacement)
  | [], variants => .ok variants
  | (sequence, variant) :: rest, variants =>
    if 32 ≤ variants.length ∨ sequence ≠ variants.length then .error .invalid
    else collectVariants rest (variants ++ [variant])

def readVariants (id : ReservationId) (t : ScopeTables) :
    Except StorageError (List QuaiReplacement) :=
  let rows := (t.custody.quaiReplacements.rows.filter fun r => r.1.1 = id).map fun r => (r.1.2, r.2)
  collectVariants (rows.insertionSort byKey) []

/-- `INSERT INTO quai_replacements`, with the checks of its columns. -/
def insertVariant (id : ReservationId) (sequence : ℕ) (variant : QuaiReplacement)
    (t : ScopeTables) : Except StorageError ScopeTables :=
  if 31 < sequence ∨ variant.payload = [] ∨ maxTransactionBytes < variant.payload.length ∨
      id ∉ t.custody.reservations then .error .database
  else do
    let quaiReplacements ←
      t.custody.quaiReplacements.insertNew database (id, sequence) variant
    .ok (t.withCustody fun c => { c with quaiReplacements })

def familySlot : UInt16 := 65535

def tombstoneFamily (id : ReservationId) (candidate : Hash32) (t : ScopeTables) :
    Except StorageError ScopeTables :=
  let key := (id, candidate, familySlot)
  match t.observationCache.lookup key with
  | none => .ok t
  | some cache =>
    if maxInteger ≤ cache.revision then .error .database
    else .ok { t with observationCache := t.observationCache.insert key ⟨cache.revision + 1, none⟩ }

def appendVariant (id : ReservationId) (candidate : Hash32) (sequence : ℕ)
    (variant : QuaiReplacement) (t : ScopeTables) : Except StorageError ScopeTables := do
  let t ← t.insertVariant id sequence variant
  (t.burnSigned variant.payload).tombstoneFamily id candidate

def commitReplacementPayload (C : Crypto) (scope : NetworkScope) (id : ReservationId)
    (parent : Hash32) (payload : Bytes) (t : ScopeTables) : Except StorageError ScopeTables := do
  let record ← okOr (t.reservationRead id) invalid
  if record.state ≠ .signed ∧ record.state ≠ .submitted then .error .transition
  else do
    let stored ← t.signedPayloadRead C scope id
    let root ← okOr stored invalid
    let variants ← t.readVariants id
    let new : QuaiReplacement := ⟨parent, payload⟩
    if new ∈ variants then do
      validateFamily C root variants
      .ok t
    else do
      validateFamily C root (variants ++ [new])
      let candidate ← okOr record.transaction invalid
      t.appendVariant id candidate variants.length new

def commitQuaiReplacement (scope : NetworkScope) (id : ReservationId) (parent : Hash32)
    (signed : SignedQuaiTransaction C) (t : ScopeTables) : Except StorageError ScopeTables := do
  let payload ← orInvalid signed.signedBytes
  t.commitReplacementPayload C scope id parent payload

def commitQiReplacement (scope : NetworkScope) (id : ReservationId) (parent : Hash32)
    (signed : SignedQiOperation C) (t : ScopeTables) : Except StorageError ScopeTables := do
  let payload ← orInvalid signed.signedBytes
  t.commitReplacementPayload C scope id parent payload

def candidateHash (C : Crypto) (payload : Bytes) : Except StorageError Hash32 :=
  match SignedQiOperation.decode C payload with
  | .ok signed => orInvalid signed.hash
  | .error _ => do
    let signed ← orInvalid (SignedQuaiTransaction.decode C payload)
    orInvalid signed.hash

def family (C : Crypto) (scope : NetworkScope) (id : ReservationId) (t : ScopeTables) :
    Except StorageError (Bytes × List QuaiReplacement) := do
  let stored ← t.signedPayloadRead C scope id
  let root ← okOr stored invalid
  let variants ← t.readVariants id
  validateFamily C root variants
  .ok (root, variants)

def candidateExists (C : Crypto) (scope : NetworkScope) (id : ReservationId) (candidate : Hash32)
    (t : ScopeTables) : Except StorageError Unit := do
  let (root, variants) ← t.family C scope id
  let hash ← candidateHash C root
  if hash = candidate ∨ ∃ v ∈ variants, candidateHash C v.payload = .ok candidate then .ok ()
  else .error .invalid

def writeObservation (id : ReservationId) (candidate : Hash32) (slot : UInt16)
    (expected : Option ℕ) (payload : Option Bytes) (t : ScopeTables) :
    Except StorageError (ℕ × ScopeTables) :=
  let key := (id, candidate, slot)
  let old := (t.observationCache.lookup key).map (·.revision)
  if old ≠ expected then .error .observationRaced
  else if old = none ∧ 2048 ≤ t.observationCache.rows.countP fun r => r.1.1 = id then
    .error .invalid
  else
    let revision := old.getD 0 + 1
    if maxInteger < revision then .error .overflow
    else if id ∉ t.custody.reservations then .error .database
    else .ok (revision,
      { t with observationCache := t.observationCache.insert key ⟨revision, payload⟩ })

def badObservation (payload : Option Bytes) : Prop :=
  ∃ b ∈ payload, b = [] ∨ 4096 < b.length

instance (payload : Option Bytes) : Decidable (badObservation payload) :=
  inferInstanceAs (Decidable (∃ b ∈ payload, _))

def compareExchangeObservationScoped (C : Crypto) (scope : NetworkScope) (id : ReservationId)
    (candidate : Hash32) (slot : UInt16) (expected : ℕ × Option ℕ) (payload : Option Bytes)
    (t : ScopeTables) : Except StorageError (ℕ × ScopeTables) :=
  if badObservation payload then .error .invalid
  else if t.generation ≠ expected.1 then .error .staleSnapshot
  else do
    t.candidateExists C scope id candidate
    t.writeObservation id candidate slot expected.2 payload

def compareExchangeFamilyObservationScoped (C : Crypto) (scope : NetworkScope) (id : ReservationId)
    (expectedCandidates : List Hash32) (expected : ℕ × Option ℕ) (payload : Option Bytes)
    (t : ScopeTables) : Except StorageError (ℕ × ScopeTables) :=
  match expectedCandidates with
  | [] => .error .invalid
  | first :: _ =>
    if 33 < expectedCandidates.length ∨ badObservation payload then .error .invalid
    else if t.generation ≠ expected.1 then .error .staleSnapshot
    else do
      let (root, variants) ← t.family C scope id
      let actual ← (root :: variants.map (·.payload)).mapM (candidateHash C)
      if actual ≠ expectedCandidates then .error .observationRaced
      else t.writeObservation id first familySlot expected.2 payload

def maxRelease : ℕ := 1024

def changeCursor (account : AccountPublic W) (t : ScopeTables) : Except StorageError (Option ℕ) :=
  match t.derivationCursors.lookup ⟨.qi, account.account, true⟩ with
  | none => .ok none
  | some cursor =>
    if cursor.xpub ≠ account.exportXpub then .error .conflict else .ok (some cursor.nextIndex)

def inSignedBytes (a : Address) (t : ScopeTables) : Prop :=
  (∃ r ∈ t.custody.signedPayloads.rows, a.bytes <:+: r.2.payload) ∨
    ∃ r ∈ t.custody.quaiReplacements.rows, a.bytes <:+: r.2.payload

instance (a : Address) (t : ScopeTables) : Decidable (t.inSignedBytes a) :=
  inferInstanceAs (Decidable (_ ∨ _))

def releaseAddress (account : AccountPublic W) (cursor : ℕ) (t : ScopeTables) (a : PublicAddress) :
    Except StorageError ScopeTables :=
  match a.origin with
  | .bip44 .qi owner true index =>
    if owner ≠ account.account ∨ cursor ≤ index then .error .invalid
    else do
      let derived ← PublicAddress.derive account true index
      if derived ≠ a then .error .invalid
      else do
        t.requireAddress a.address
        if t.inSignedBytes a.address then .error .transition
        else if (owner, index) ∈ t.releasedChange then .ok t
        else .ok { t with releasedChange := t.releasedChange.insert (owner, index) a.address }
  | _ => .error .invalid

def releaseChange (account : AccountPublic W) (addresses : List PublicAddress) (t : ScopeTables) :
    Except StorageError ScopeTables :=
  if account.coin ≠ .qi ∨ maxRelease < addresses.length then .error .invalid
  else do
    let found ← t.changeCursor account
    let cursor ← okOr found invalid
    addresses.foldlM (releaseAddress account cursor) t

def takeAddress (account : AccountPublic W) (state : List PublicAddress × ScopeTables)
    (index : ℕ) : Except StorageError (List PublicAddress × ScopeTables) := do
  let (taken, t) := state
  let address ← PublicAddress.derive account true index
  if t.releasedChange.lookup (account.account, index) ≠ some address.address then .error .invalid
  else .ok (taken ++ [address],
    { t with releasedChange := t.releasedChange.erase (account.account, index) })

def takeReleasedChange (account : AccountPublic W) (max : ℕ) (t : ScopeTables) :
    Except StorageError (List PublicAddress × ScopeTables) :=
  if account.coin ≠ .qi ∨ maxRelease < max then .error .invalid
  else if max = 0 then .ok ([], t)
  else do
    let cursor ← t.changeCursor account
    if cursor = none then .ok ([], t)
    else
      let rows := (t.releasedChange.rows.filter fun r => r.1.1 = account.account).map fun r => r.1.2
      let indexes := (rows.insertionSort (· ≤ ·)).take max
      indexes.foldlM (takeAddress account) ([], t)

end ScopeTables

end QuaiSdk.Storage
