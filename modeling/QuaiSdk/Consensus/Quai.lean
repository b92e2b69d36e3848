import QuaiSdk.Consensus.Crypto
import QuaiSdk.Consensus.Preflight

/-!
# Quai account transactions

`quai.rs`: type-0 transactions, their canonical unsigned and signed bytes, and the recovery check that
every signed transaction has passed.
-/

namespace QuaiSdk

open Result Wire TransactionError

/-- Slippage in ten-thousandths, within the node's clamp range. -/
structure ConversionSlippage where
  value : UInt16
  range : 30 ≤ value.toNat ∧ value.toNat ≤ 9000
  deriving DecidableEq

def ConversionSlippage.new (value : UInt16) : Except TransactionError ConversionSlippage :=
  if h : 30 ≤ value.toNat ∧ value.toNat ≤ 9000 then .ok ⟨value, h⟩
  else .error (.invalidField "conversion slippage")

/-- `u16::from_be_bytes([data[0], data[1]])`. -/
def slippageWord (data : Bytes) : UInt16 := UInt16.ofNat (BigEndian.value (data.take 2))

def minQuaiConversionValue : ℕ := 10000000000000000000

structure AccessTuple where
  address : Address
  storageKeys : List Hash32
  deriving DecidableEq

/-- Unsigned type-0 Quai transaction; `recipient` is the source's `to`. -/
structure QuaiTransaction where
  chainId : U256
  nonce : UInt64
  recipient : Option Address
  value : U256
  gasLimit : UInt64
  gasPrice : U256
  data : Bytes
  accessList : List AccessTuple
  deriving DecidableEq

namespace AccessTuple

def protobuf (a : AccessTuple) : Proto.AccessTuple where
  address := a.address.bytes
  storageKey := a.storageKeys.map fun h => ⟨h.bytes⟩

def fromProto (p : Proto.AccessTuple) : Except TransactionError AccessTuple := do
  let address ← (Address.tryFrom p.address).mapError fun _ =>
    invalidField "access address"
  let storageKeys ← p.storageKey.mapM fun h =>
    okOr (Hash32.ofBytes h.value) (invalidField "storage key")
  .ok { address, storageKeys }

theorem fromProto_protobuf (a : AccessTuple) : fromProto a.protobuf = .ok a := by
  have hkeys : (a.storageKeys.map fun h => (⟨h.bytes⟩ : Proto.Hash)).mapM (fun h =>
      okOr (Hash32.ofBytes h.value) (invalidField "storage key")) = .ok a.storageKeys :=
    mapM_map_eq_ok fun h _ => by rw [Hash32.ofBytes_bytes, okOr_some]
  unfold fromProto protobuf
  rw [Address.tryFrom_bytes]
  rw [hkeys]
  rfl

end AccessTuple

namespace QuaiTransaction

def protobuf (t : QuaiTransaction) : Proto.Transaction :=
  { Proto.Transaction.blank with
    type := some 0
    recipient := t.recipient.map Address.bytes
    nonce := some t.nonce
    value := some (integerBytes t.value)
    gas := some t.gasLimit
    data := some t.data
    chainId := some (integerBytes t.chainId)
    gasPrice := some (integerBytes t.gasPrice)
    accessList := some ⟨t.accessList.map AccessTuple.protobuf⟩ }

def messages (t : QuaiTransaction) : ℕ :=
  2 + (t.accessList.map fun a => 1 + a.storageKeys.length).sum

def payload (t : QuaiTransaction) : ℕ :=
  t.data.length + (t.accessList.map fun a => a.storageKeys.length * 32 + 20).sum

def unsignedBytes (t : QuaiTransaction) : Except TransactionError Bytes :=
  if maxTransactionMessages < t.messages ∨ maxTransactionBytes < t.payload then .error .tooLarge
  else encode t.protobuf

def signingDigest (C : Crypto) (t : QuaiTransaction) : Except TransactionError Hash32 := do
  let bytes ← t.unsignedBytes
  .ok (C.keccak256 bytes)

def fromProto (p : Proto.Transaction) : Except TransactionError QuaiTransaction :=
  if p.type ≠ some 0 then .error .wrongType
  else do
    let recipient ← p.recipient.mapM fun b =>
      (Address.tryFrom b).mapError fun _ => invalidField "to"
    let list ← okOr p.accessList (invalidField "access_list")
    let accessList ← list.accessTuples.mapM AccessTuple.fromProto
    let chainId ← integer p.chainId "chain_id"
    let nonce ← okOr p.nonce (invalidField "nonce")
    let value ← integer p.value "value"
    let gasLimit ← okOr p.gas (invalidField "gas")
    let gasPrice ← integer p.gasPrice "gas_price"
    let data ← okOr p.data (invalidField "data")
    .ok { chainId, nonce, recipient, value, gasLimit, gasPrice, data, accessList }

def readUnsigned (bytes : Bytes) : Except TransactionError QuaiTransaction := do
  let p ← decode bytes
  fromProto p

def decodeUnsigned : Bytes → Except TransactionError QuaiTransaction :=
  canonical .invalidEncoding readUnsigned unsignedBytes

/-- The destination rule of `attach_signature`: a Qi destination is a same-zone conversion. -/
def checkDestination (t : QuaiTransaction) (sender : QuaiAddress) : Except TransactionError Unit :=
  match t.recipient with
  | none => .ok ()
  | some recipient => do
    let zone ← recipient.zone.mapError fun _ => invalidScope
    if recipient.ledger = .qi then
      if zone ≠ sender.zone then .error .invalidScope
      else if t.value.toNat < minQuaiConversionValue ∨ t.data.length ≠ 2 then
        .error (.invalidField "Quai conversion value or data")
      else do
        let _ ← ConversionSlippage.new (slippageWord t.data)
        .ok ()
    else .ok ()

/-- The checks of `attach_signature`, with the sender they recover. -/
def recoverSender (C : Crypto) (t : QuaiTransaction) (signature : C.RecoverableSignature) :
    Except TransactionError QuaiAddress :=
  if t.chainId.toNat = 0 then .error (.invalidField "chain_id")
  else if 1 < (C.recoveryId signature).toNat then .error .invalidSignature
  else do
    let digest ← t.signingDigest C
    let key ← okOr (C.recoverPrehash signature digest) invalidSignature
    let sender ← (LedgerAddress.tryFrom .quai (C.address key)).mapError fun _ =>
      invalidScope
    let _ ← t.checkDestination sender
    .ok sender

end QuaiTransaction

/-- Immutable signed transaction whose sender is recovered from the exact payload. -/
structure SignedQuaiTransaction (C : Crypto) where
  transaction : QuaiTransaction
  signature : C.RecoverableSignature
  sender : QuaiAddress
  recovered : transaction.recoverSender C signature = .ok sender

namespace SignedQuaiTransaction

variable {C : Crypto}

/-- `attach_signature`, the only way to build a signed transaction. -/
def attach (t : QuaiTransaction) (signature : C.RecoverableSignature) :
    Except TransactionError (SignedQuaiTransaction C) :=
  withProof (t.recoverSender C signature) fun sender h => ⟨t, signature, sender, h⟩

def protobuf (s : SignedQuaiTransaction C) : Proto.Transaction :=
  { s.transaction.protobuf with
    v := some (integerBytes (U256.ofNat (C.recoveryId s.signature).toNat))
    r := some (integerBytes (U256.fromBe (C.sigR s.signature).bytes (C.sigR s.signature).size.le))
    s := some (integerBytes (U256.fromBe (C.sigS s.signature).bytes (C.sigS s.signature).size.le)) }

def signedBytes (s : SignedQuaiTransaction C) : Except TransactionError Bytes := encode s.protobuf

def hash (s : SignedQuaiTransaction C) : Except TransactionError Hash32 := do
  let bytes ← s.signedBytes
  let h := C.keccak256 bytes
  let zone := s.sender.zone.byte
  .ok ((((h.set 0 zone).set 1 (h.byte 1 &&& 0x7f)).set 2 zone).set 3 (h.byte 3 &&& 0x7f))

def read (C : Crypto) (bytes : Bytes) : Except TransactionError (SignedQuaiTransaction C) := do
  let p ← QuaiSdk.decode bytes
  let t ← QuaiTransaction.fromProto p
  let v ← integer p.v "v"
  if 1 < v.toNat then .error .invalidSignature
  else
    let r ← integer p.r "r"
    let s ← integer p.s "s"
    let signature ← okOr (C.fromCompact (r.toBeBytes ++ s.toBeBytes) (UInt8.ofNat v.toNat))
      invalidSignature
    attach t signature

def decode (C : Crypto) : Bytes → Except TransactionError (SignedQuaiTransaction C) :=
  canonical .invalidEncoding (read C) signedBytes

end SignedQuaiTransaction

end QuaiSdk
