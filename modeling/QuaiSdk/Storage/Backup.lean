import QuaiSdk.Consensus.QuaiCodec
import QuaiSdk.Storage.Candidates
import QuaiSdk.Storage.Snapshot

/-!
# Wallet backups

The public state of a backup, its validation against the secret origins it carries, and
`restore_public_state`.  Secret material stays behind the backend: an origin is known by the public
account keys, imported keys and payment codes it derives.  Channel metadata is JSON that the backend
reads and writes.
-/

namespace QuaiSdk.Storage

open Result Wallet

structure DerivationState where
  coin : CoinType
  account : ℕ
  change : Bool
  xpub : String
  nextIndex : ℕ
  deriving DecidableEq

structure NonceState where
  address : QuaiAddress
  nextNonce : UInt64
  deriving DecidableEq

structure OperationState where
  record : Reservation
  kind : ℕ
  qi : List (OutPoint × Address)
  nonce : Option (QuaiAddress × UInt64)
  payload : Option Bytes
  replacements : List QuaiReplacement
  deriving DecidableEq

structure ScopeState where
  scope : NetworkScope
  addresses : List PublicAddress
  derivation : List DerivationState
  nonces : List NonceState
  operations : List OperationState
  deriving DecidableEq

structure Network where
  chainId : U256
  genesis : Hash32
  deriving DecidableEq

def NetworkScope.network (s : NetworkScope) : Network := ⟨s.chainId, s.genesis⟩

inductive PaymentDirection where
  | send | receive
  deriving DecidableEq

/-- A channel's two codes and its eighteen cursors; `none` is an exhausted cursor. -/
structure PaymentChannel where
  localCode : Bytes
  peerCode : Bytes
  account : ℕ
  sendNext : Zone → Option ℕ
  receiveNext : Zone → Option ℕ

structure StoredPaymentChannel where
  network : Network
  localCode : Bytes
  peerCode : Bytes
  account : ℕ
  generation : ℕ
  metadata : Bytes
  deriving DecidableEq

structure PaymentAddressRecord where
  direction : PaymentDirection
  zone : Zone
  index : ℕ
  address : QiAddress
  publicKey : Bytes
  burned : IndexRange
  deriving DecidableEq

structure StoredPaymentExposure where
  network : Network
  localCode : Bytes
  peerCode : Bytes
  account : ℕ
  record : PaymentAddressRecord
  deriving DecidableEq

structure PublicWalletState where
  scopes : List ScopeState
  channels : List StoredPaymentChannel
  exposures : List StoredPaymentExposure
  deriving DecidableEq

inductive OriginKind where
  | hd | imported | paymentAccount (account : ℕ)
  deriving DecidableEq

structure Backend extends HdCrypto where
  PrivateCode : Type
  publicCode : PrivateCode → Bytes
  codeAccount : PrivateCode → ℕ
  sendPublicKey : PrivateCode → Bytes → ℕ → Option PublicKey
  receivePublicKey : PrivateCode → Bytes → ℕ → Option PublicKey
  channelFromJson : Bytes → Option PaymentChannel
  channelToJson : PaymentChannel → Option Bytes
  Origin : Type
  originKind : Origin → OriginKind
  accountPublic : Origin → CoinType → ℕ → Option (AccountPublic toHdCrypto)
  importedKey : Origin → Option PublicKey
  paymentCode : Origin → ℕ → Option PrivateCode

def Backend.ofHd (W : HdCrypto) : Backend where
  toHdCrypto := W
  PrivateCode := Empty
  publicCode := nofun
  codeAccount := nofun
  sendPublicKey := nofun
  receivePublicKey := nofun
  channelFromJson _ := none
  channelToJson _ := none
  Origin := Empty
  originKind := nofun
  accountPublic := nofun
  importedKey := nofun
  paymentCode := nofun

def sampleWallet : Backend := .ofHd (KnownKeys.hd ⟨[], []⟩ sampleKnown)

inductive WalletBackupError where
  | invalidInput
  | unsupported
  | ownership
  | unlockFailed
  | resources
  | storage (error : StorageError)
  deriving DecidableEq

structure WalletBackup (B : Backend) where
  origins : List B.Origin
  state : PublicWalletState

variable {B : Backend}

def cursorValue (cursor : Option ℕ) : ℕ := cursor.getD hardened

def allZones : List Zone :=
  [.cyprus1, .cyprus2, .cyprus3, .paxos1, .paxos2, .paxos3, .hydra1, .hydra2, .hydra3]

namespace PaymentChannel

def nextIndex (c : PaymentChannel) (direction : PaymentDirection) (zone : Zone) : Option ℕ :=
  match direction with
  | .send => c.sendNext zone
  | .receive => c.receiveNext zone

def fromJson (owner : B.PrivateCode) (bytes : Bytes) : Except StorageError PaymentChannel :=
  if 4096 < bytes.length then .error .invalid
  else do
    let channel ← okOr (B.channelFromJson bytes) StorageError.invalid
    if channel.account ≠ B.codeAccount owner ∨ channel.localCode ≠ B.publicCode owner ∨
        ∃ zone ∈ allZones, (∃ i ∈ channel.sendNext zone, hardened ≤ i) ∨
          ∃ i ∈ channel.receiveNext zone, hardened ≤ i then .error .invalid
    else .ok channel

def setCursor (c : PaymentChannel) (direction : PaymentDirection) (zone : Zone)
    (next : Option ℕ) : PaymentChannel :=
  match direction with
  | .send => { c with sendNext := Function.update c.sendNext zone next }
  | .receive => { c with receiveNext := Function.update c.receiveNext zone next }

def advanceCursor (owner : B.PrivateCode) (c : PaymentChannel) (direction : PaymentDirection)
    (zone : Zone) (next : Option ℕ) : Except StorageError PaymentChannel :=
  if c.account ≠ B.codeAccount owner ∨ c.localCode ≠ B.publicCode owner then .error .invalid
  else if ∃ i ∈ next, hardened ≤ i then .error .invalid
  else
    match c.nextIndex direction zone, next with
    | none, some _ => .error .invalid
    | some old, some new => if new < old then .error .invalid else .ok (c.setCursor direction zone next)
    | _, none => .ok (c.setCursor direction zone next)

end PaymentChannel

def StoredPaymentChannel.checked (owner : B.PrivateCode) (stored : StoredPaymentChannel) :
    Except StorageError PaymentChannel := do
  let channel ← PaymentChannel.fromJson owner stored.metadata
  if channel.localCode ≠ stored.localCode ∨ channel.peerCode ≠ stored.peerCode ∨
      channel.account ≠ stored.account ∨ maxInteger < stored.generation then .error .invalid
  else .ok channel

def validateExposure (owner : B.PrivateCode) (peer : Bytes) (record : PaymentAddressRecord) :
    Except StorageError Unit :=
  if record.index < record.burned.start ∨ record.burned.stop ≤ record.index ∨
      hardened < record.burned.stop ∨ record.address.zone ≠ record.zone then .error .invalid
  else do
    let key ← okOr (B.fromSec1 record.publicKey) StorageError.invalid
    if B.address key ≠ record.address.address then .error .invalid
    else do
      let expected ← okOr
        (match record.direction with
          | .send => B.sendPublicKey owner peer record.index
          | .receive => B.receivePublicKey owner peer record.index) StorageError.invalid
      if B.toCompressed expected ≠ record.publicKey then .error .invalid else .ok ()

end QuaiSdk.Storage
