import QuaiSdk.Consensus.QiOperation
import QuaiSdk.Lib.Table
import QuaiSdk.Wallet.Hd
import QuaiSdk.Wallet.Selection

/-!
# The wallet database

Schema of `storage.rs`.  A `ScopeTables` holds the rows of one network scope, keyed as their primary
keys are; checks on columns are types or fields of the row types, unique indexes and foreign keys
are checks of the statements that insert.  Key origins are kept decoded.
-/

namespace QuaiSdk.Storage

open Result Wallet

inductive StorageError where
  | database
  | schema
  | invalid
  | staleSnapshot
  | conflict
  | observationRaced
  | cancelled
  | derivationExhausted
  | transition
  | overflow
  | limitReached
  deriving DecidableEq

structure NetworkScope where
  chainId : U256
  genesis : Hash32
  zone : Zone
  deriving DecidableEq

def sampleScope : NetworkScope := ⟨U256.ofNat 9, Hash32.ofNat 1, .cyprus1⟩

structure Checkpoint where
  hash : Hash32
  height : ℕ
  deriving DecidableEq

inductive KeyOrigin where
  | importedPublic
  | bip44 (coin : CoinType) (account : ℕ) (change : Bool) (index : ℕ)
  deriving DecidableEq

structure PublicAddress where
  address : Address
  publicKey : Bytes
  origin : KeyOrigin
  deriving DecidableEq

namespace PublicAddress

variable {W : HdCrypto}

def imported (W : HdCrypto) (key : W.PublicKey) : Except StorageError PublicAddress :=
  match (W.address key).zone with
  | .error _ => .error .invalid
  | .ok _ => .ok ⟨W.address key, W.toCompressed key, .importedPublic⟩

def derive (account : AccountPublic W) (change : Bool) (index : ℕ) :
    Except StorageError PublicAddress := do
  let d ← (account.deriveAddress change index).mapError fun _ => StorageError.invalid
  .ok ⟨d.address, d.publicKey, .bip44 d.coin d.account change index⟩

end PublicAddress

@[ext]
structure ReservationId where
  bytes : Bytes
  size : bytes.length = 16
  deriving DecidableEq

def ReservationId.filled (b : UInt8) : ReservationId :=
  ⟨List.replicate 16 b, List.length_replicate⟩

def sampleId : ReservationId := .filled 7

inductive ReservationState where
  | reserved | signed | submitted | confirmed | released
  deriving DecidableEq

def ReservationState.isSigned : ReservationState → Bool
  | .signed | .submitted | .confirmed => true
  | .reserved | .released => false

structure Reservation where
  id : ReservationId
  state : ReservationState
  transaction : Option Hash32
  inclusion : Option Checkpoint
  deriving DecidableEq

inductive OperationKind where
  | qi | quai
  deriving DecidableEq

def OperationKind.fromColumn : ℕ → Option OperationKind
  | 0 => some .qi
  | 1 => some .quai
  | _ => none

/-- The state, hash and block columns of a reservation: exactly the combinations that the row's
checks allow. -/
inductive Status where
  | reserved
  | signed (transaction : Hash32)
  | submitted (transaction : Hash32)
  | confirmed (transaction : Hash32) (inclusion : Checkpoint)
  | released
  deriving DecidableEq

namespace Status

def state : Status → ReservationState
  | reserved => .reserved
  | signed _ => .signed
  | submitted _ => .submitted
  | confirmed _ _ => .confirmed
  | released => .released

def transaction : Status → Option Hash32
  | signed h | submitted h | confirmed h _ => some h
  | reserved | released => none

def inclusion : Status → Option Checkpoint
  | confirmed _ block => some block
  | _ => none

def ofColumns : ReservationState → Option Hash32 → Option Checkpoint → Option Status
  | .reserved, none, none => some reserved
  | .signed, some h, none => some (signed h)
  | .submitted, some h, none => some (submitted h)
  | .confirmed, some h, some block => some (confirmed h block)
  | .released, none, none => some released
  | _, _, _ => none

end Status

structure AddressRow where
  publicKey : Bytes
  origin : KeyOrigin
  deriving DecidableEq

structure CoinRow where
  address : Address
  denomination : Denomination
  unlockHeight : ℕ
  expiresAt : Option ℕ
  deriving DecidableEq

structure StoredCoin where
  generation : ℕ
  row : CoinRow
  deriving DecidableEq

structure ReservationRow where
  kind : OperationKind
  status : Status
  deriving DecidableEq

structure QiClaim where
  operation : ReservationId
  address : Address
  deriving DecidableEq

structure SignedPayload where
  kind : OperationKind
  payload : Bytes
  deriving DecidableEq

structure QuaiReplacement where
  parent : Hash32
  payload : Bytes
  deriving DecidableEq

structure Branch where
  coin : CoinType
  account : ℕ
  change : Bool
  deriving DecidableEq

structure DerivationCursor where
  xpub : String
  nextIndex : ℕ
  deriving DecidableEq

structure ObservationCache where
  revision : ℕ
  payload : Option Bytes
  deriving DecidableEq

structure HeadReplayState where
  revision : ℕ
  payload : Option Bytes
  deriving DecidableEq

/-- The revision of a stored head cursor; `None` is before the first. -/
def headRevision (saved : Option HeadReplayState) : ℕ := (saved.map HeadReplayState.revision).getD 0

structure Custody where
  reservations : Table ReservationId ReservationRow
  qiClaims : Table OutPoint QiClaim
  nonceCursors : Table Address UInt64
  nonceClaims : Table (Address × UInt64) ReservationId
  signedPayloads : Table ReservationId SignedPayload
  quaiReplacements : Table (ReservationId × ℕ) QuaiReplacement

structure ScopeTables where
  generation : ℕ
  checkpoint : Option Checkpoint
  coins : Table OutPoint StoredCoin
  addresses : Table Address AddressRow
  derivationCursors : Table Branch DerivationCursor
  releasedChange : Table (ℕ × ℕ) Address
  observationCache : Table (ReservationId × Hash32 × UInt16) ObservationCache
  headReplay : Option HeadReplayState
  custody : Custody

/-- Lexicographic key of `ORDER BY tx_hash,output_index`. -/
def outPointKey (o : OutPoint) : List ℕ :=
  o.transactionHash.bytes.map UInt8.toNat ++ [o.index.toNat]

def Custody.empty : Custody := ⟨∅, ∅, ∅, ∅, ∅, ∅⟩

/-- `INSERT OR IGNORE INTO scopes(scope,generation) VALUES(?1,0)` on a new scope. -/
def ScopeTables.empty : ScopeTables := ⟨0, none, ∅, ∅, ∅, ∅, ∅, none, .empty⟩

def maxCoins : ℕ := 100000

/-- `i64::MAX`. -/
def maxInteger : ℕ := 2 ^ 63 - 1

namespace ScopeTables

def nextGeneration (expected : ℕ) (t : ScopeTables) : Except StorageError ℕ :=
  if t.generation ≠ expected then .error .staleSnapshot
  else if maxInteger ≤ t.generation then .error .overflow
  else .ok (t.generation + 1)

def clearSnapshot (next : ℕ) (t : ScopeTables) : ScopeTables :=
  { t with coins := ∅, generation := next, checkpoint := none }

def requireAddress (a : Address) (t : ScopeTables) : Except StorageError Unit :=
  if a ∈ t.addresses then .ok () else .error .invalid

def boundXpub (coin : CoinType) (account : ℕ) (t : ScopeTables) : Option String :=
  (t.derivationCursors.rows.find? fun r => r.1.coin = coin ∧ r.1.account = account).map (·.2.xpub)

def recordAddress (a : PublicAddress) (t : ScopeTables) : Except StorageError ScopeTables :=
  match t.addresses.lookup a.address with
  | some row => if row ≠ ⟨a.publicKey, a.origin⟩ then .error .conflict else .ok t
  | none =>
    -- the unique index on the origin of derived addresses
    if a.origin ≠ .importedPublic ∧ ∃ r ∈ t.addresses.rows, r.2.origin = a.origin then
      .error .database
    else .ok { t with addresses := t.addresses.insert a.address ⟨a.publicKey, a.origin⟩ }

def checkAncestry (W : HdCrypto) (b : Branch) (index : ℕ) (a : PublicAddress) (t : ScopeTables) :
    Except StorageError Unit :=
  match t.boundXpub b.coin b.account with
  | none => .ok ()
  | some xpub => do
    let node ← (AccountPublic.importXpub W xpub b.coin b.account).mapError fun _ =>
      StorageError.invalid
    let expected ← (node.deriveAddress b.change index).mapError fun _ => StorageError.conflict
    if expected.address ≠ a.address ∨ expected.publicKey ≠ a.publicKey then .error .conflict
    else .ok ()

/-- `UPDATE derivation_cursors SET next_index=max(next_index,?5)`. -/
def raiseCursor (b : Branch) (next : ℕ) (t : ScopeTables) : ScopeTables :=
  { t with derivationCursors := t.derivationCursors.update fun k c =>
      if k = b then { c with nextIndex := max c.nextIndex next } else c }

def checkZone (scope : NetworkScope) (a : Address) : Except StorageError Unit :=
  match a.zone with
  | .error _ => .error .invalid
  | .ok zone => if zone ≠ scope.zone then .error .invalid else .ok ()

def insertAddress (W : HdCrypto) (scope : NetworkScope) (a : PublicAddress) (t : ScopeTables) :
    Except StorageError ScopeTables := do
  checkZone scope a.address
  let t ← t.recordAddress a
  match a.origin with
  | .importedPublic => .ok t
  | .bip44 coin account change index => do
    t.checkAncestry W ⟨coin, account, change⟩ index a
    .ok (t.raiseCursor ⟨coin, account, change⟩ (index + 1))

def insertAddresses (W : HdCrypto) (scope : NetworkScope) (addresses : List PublicAddress)
    (t : ScopeTables) : Except StorageError ScopeTables :=
  addresses.foldlM (fun t a => t.insertAddress W scope a) t

def reservationRead (id : ReservationId) (t : ScopeTables) : Option Reservation :=
  (t.custody.reservations.lookup id).map fun row =>
    ⟨id, row.status.state, row.status.transaction, row.status.inclusion⟩

end ScopeTables

end QuaiSdk.Storage
