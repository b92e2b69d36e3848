import QuaiSdk.Consensus.Quai

/-!
# Qi transactions

`qi.rs`, `conversion.rs`, `wrapping.rs` and `qi_operation.rs`: UTXO transactions in their three modes.
Ordinary transfers, conversions and wrappings share one wire form and one validation that is
parametrised by the mode.
-/

namespace QuaiSdk

open Result Wire TransactionError

inductive QiMode where
  | ordinary | conversion | wrapping
  deriving DecidableEq

structure QiInput (C : Crypto) where
  previousOutput : OutPoint
  publicKey : C.PublicKey

structure QiOutput where
  address : Address
  denomination : Denomination
  deriving DecidableEq

/-- Unsigned Qi transaction; serialization preserves input and output order. -/
structure QiTransaction (C : Crypto) where
  chainId : U256
  inputs : List (QiInput C)
  outputs : List QiOutput
  data : Bytes

namespace QiTransaction

variable {C : Crypto}

/-- `inputs.len() * 3 + outputs.len() + 3`. -/
def messages (t : QiTransaction C) : ℕ := t.inputs.length * 3 + t.outputs.length + 3

def firstZone (t : QiTransaction C) : Except TransactionError Zone :=
  match t.inputs with
  | [] => .error (.invalidField "empty inputs or outputs")
  | input :: _ => (Zone.fromByte (input.previousOutput.transactionHash.byte 2)).mapError fun _ =>
      invalidScope

/-- `Address::try_from` then the ledger-specific conversion, both failing with `InvalidScope`. -/
def scopedAddress (ledger : Ledger) (bytes : Bytes) :
    Except TransactionError (LedgerAddress ledger) := do
  let address ← (Address.tryFrom bytes).mapError fun _ => invalidScope
  (LedgerAddress.tryFrom ledger address).mapError fun _ => invalidScope

def checkWrapping (t : QiTransaction C) (origin : Zone) : Except TransactionError Unit := do
  let owner ← scopedAddress .quai t.data
  if t.chainId.toNat = 0 ∨ owner.zone ≠ origin then .error .invalidScope else .ok ()

def checkConversion (t : QiTransaction C) (origin : Zone) : Except TransactionError Unit :=
  if t.chainId.toNat = 0 ∨ t.data.length ≠ 22 then .error (.invalidField "conversion chain or data")
  else do
    let _ ← ConversionSlippage.new (slippageWord t.data)
    let refund ← scopedAddress .qi (t.data.drop 2)
    if refund.zone ≠ origin then .error .invalidScope else .ok ()

def checkData (t : QiTransaction C) (mode : QiMode) (origin : Zone) :
    Except TransactionError Unit :=
  match mode with
  | .ordinary => .ok ()
  | .wrapping => t.checkWrapping origin
  | .conversion => t.checkConversion origin

def checkInputs (origin : Zone) :
    List (QiInput C) → List OutPoint → List Address → Except TransactionError (List Address)
  | [], _, addresses => .ok addresses
  | input :: rest, seen, addresses =>
    if input.previousOutput ∈ seen then .error (.invalidField "duplicate outpoint")
    else do
      let address ← (LedgerAddress.tryFrom .qi (C.address input.publicKey)).mapError fun _ =>
        invalidScope
      if input.previousOutput.transactionHash.byte 2 ≠ origin.byte ∨
          input.previousOutput.transactionHash = Hash32.zero ∨ address.zone ≠ origin then
        .error .invalidScope
      else checkInputs origin rest (input.previousOutput :: seen) (address.address :: addresses)

def checkOutputs (mode : QiMode) (origin : Zone) :
    List QiOutput → List Address → Option Address → Except TransactionError (Option Address)
  | [], _, destination => .ok destination
  | output :: rest, addresses, destination => do
    let zone ← output.address.zone.mapError fun _ => invalidScope
    if output.address.ledger = .quai then
      if mode = .ordinary then .error (.invalidField "conversion requires explicit builder")
      else if zone ≠ origin ∨ ∃ previous ∈ destination, previous ≠ output.address then
        .error .invalidScope
      else checkOutputs mode origin rest addresses (some output.address)
    else if mode ≠ .ordinary ∧ zone ≠ origin then .error .invalidScope
    else if output.address ∈ addresses then .error (.invalidField "reused output address")
    else checkOutputs mode origin rest (output.address :: addresses) destination

def validateFor (mode : QiMode) (t : QiTransaction C) : Except TransactionError Zone :=
  if t.inputs = [] ∨ t.outputs = [] then .error (.invalidField "empty inputs or outputs")
  else if maxTransactionMessages < t.messages ∨ 65535 < t.inputs.length ∨
      65535 < t.outputs.length ∨ maxTransactionBytes < t.data.length then .error .tooLarge
  else do
    let origin ← t.firstZone
    t.checkData mode origin
    let addresses ← checkInputs origin t.inputs [] []
    let destination ← checkOutputs mode origin t.outputs addresses none
    if mode ≠ .ordinary ∧ destination = none then .error (.invalidField "missing conversion output")
    else .ok origin

/-- `origin_zone` of an ordinary transaction. -/
def originZone (t : QiTransaction C) : Except TransactionError Zone := t.validateFor .ordinary

end QiTransaction

namespace QiInput

variable {C : Crypto}

def protobuf (i : QiInput C) : Proto.Input where
  previousOutPoint := some
    { hash := some ⟨i.previousOutput.transactionHash.bytes⟩
      index := some (UInt32.ofNat i.previousOutput.index.toNat) }
  pubKey := some (C.toCompressed i.publicKey)

def fromProto (p : Proto.Input) : Except TransactionError (QiInput C) := do
  let point ← okOr p.previousOutPoint (invalidField "outpoint")
  let h ← okOr point.hash (invalidField "outpoint hash")
  let transactionHash ← okOr (Hash32.ofBytes h.value) (invalidField "outpoint hash")
  let index ← okOr point.index (invalidField "outpoint index")
  if 65535 < index.toNat then .error (.invalidField "outpoint index")
  else
    let key ← okOr p.pubKey (invalidField "public key")
    let publicKey ← okOr (C.fromSec1 key) (invalidField "public key")
    .ok { previousOutput := ⟨transactionHash, UInt16.ofNat index.toNat⟩, publicKey }

end QiInput

namespace QiOutput

def protobuf (o : QiOutput) : Proto.Output where
  denomination := some (UInt32.ofNat o.denomination.index)
  address := some o.address.bytes
  lock := some []

def fromProto (p : Proto.Output) : Except TransactionError QiOutput := do
  let lock ← integer p.lock "lock"
  if lock.toNat ≠ 0 then .error (.invalidField "nonzero user output lock")
  else
    let index ← okOr p.denomination (invalidField "denomination")
    -- an index above 255 is refused like one above 14
    let denomination ← okOr (Denomination.ofIndex index.toNat)
      (invalidField "denomination")
    let bytes ← okOr p.address (invalidField "output address")
    let address ← (Address.tryFrom bytes).mapError fun _ =>
      invalidField "output address"
    .ok { address, denomination }

end QiOutput

namespace QiTransaction

variable {C : Crypto}

/-- The wire fields, without the validation of `protobuf_for`. -/
def rawProto (t : QiTransaction C) : Proto.Transaction :=
  { Proto.Transaction.blank with
    type := some 2
    chainId := some (integerBytes t.chainId)
    data := some t.data
    txIns := some ⟨t.inputs.map QiInput.protobuf⟩
    txOuts := some ⟨t.outputs.map QiOutput.protobuf⟩ }

def protobufFor (mode : QiMode) (t : QiTransaction C) : Except TransactionError Proto.Transaction :=
  do
    let _ ← t.validateFor mode
    .ok t.rawProto

def fromProtoFor (mode : QiMode) (p : Proto.Transaction) :
    Except TransactionError (QiTransaction C) :=
  if p.type ≠ some 2 then .error .wrongType
  else do
    let ins ← okOr p.txIns (invalidField "inputs")
    let inputs ← ins.txIns.mapM QiInput.fromProto
    let outs ← okOr p.txOuts (invalidField "outputs")
    let outputs ← outs.txOuts.mapM QiOutput.fromProto
    let chainId ← integer p.chainId "chain_id"
    let data ← okOr p.data (invalidField "data")
    let t : QiTransaction C := { chainId, inputs, outputs, data }
    let _ ← t.validateFor mode
    .ok t

/-- `encode(&self.protobuf_for(mode)?)`. -/
def unsignedBytesFor (mode : QiMode) (t : QiTransaction C) : Except TransactionError Bytes := do
  let p ← t.protobufFor mode
  encode p

def unsignedBytes (t : QiTransaction C) : Except TransactionError Bytes := t.unsignedBytesFor .ordinary

def signingDigestFor (mode : QiMode) (t : QiTransaction C) : Except TransactionError Hash32 := do
  let bytes ← t.unsignedBytesFor mode
  .ok (C.keccak256 bytes)

/-- `signing_digest` of an ordinary transfer. -/
def signingDigest (t : QiTransaction C) : Except TransactionError Hash32 :=
  t.signingDigestFor .ordinary

/-- An unsigned payload; `typed` classifies its transaction. -/
def readUnsigned {α : Type} (mode : QiMode) (typed : QiTransaction C → Except TransactionError α)
    (bytes : Bytes) : Except TransactionError α := do
  let p ← decode bytes
  let t ← fromProtoFor mode p
  typed t

def decodeUnsigned (C : Crypto) : Bytes → Except TransactionError (QiTransaction C) :=
  canonical .invalidEncoding (readUnsigned .ordinary .ok) unsignedBytes

def validateOrdinarySigning (t : QiTransaction C) : Except TransactionError Unit :=
  if t.data ≠ [] then .error (.invalidField
    "ordinary Qi transfers require empty data; conversion/wrapping needs a qualified builder")
  else if t.chainId.toNat = 0 then .error (.invalidField "chain_id")
  else .ok ()

def signingRule (mode : QiMode) (t : QiTransaction C) : Except TransactionError Unit :=
  if mode = .ordinary then t.validateOrdinarySigning else .ok ()

/-- One key verifies directly, several through their ordered aggregate. -/
def verifyInputs (t : QiTransaction C) (digest : Hash32) (signature : C.SchnorrSignature) : Bool :=
  match t.inputs with
  | [input] => C.verifySchnorr input.publicKey digest signature
  | inputs => C.verifyAggregate (inputs.map QiInput.publicKey) digest signature

def verifySignatureFor (mode : QiMode) (t : QiTransaction C) (signature : C.SchnorrSignature) :
    Except TransactionError Unit := do
  let _ ← t.validateFor mode
  t.signingRule mode
  let bytes ← t.unsignedBytesFor mode
  if t.verifyInputs (C.keccak256 bytes) signature = true then .ok () else .error .invalidSignature

def signedBytesFor (mode : QiMode) (t : QiTransaction C) (signature : C.SchnorrSignature) :
    Except TransactionError Bytes := do
  let p ← t.protobufFor mode
  encode { p with signature := some (C.schnorrToBytes signature) }

def readSignature (C : Crypto) (p : Proto.Transaction) :
    Except TransactionError C.SchnorrSignature := do
  let raw ← okOr p.signature invalidSignature
  if raw.length ≠ 64 then .error .invalidSignature
  else okOr (C.schnorrFromBytes raw) invalidSignature

def locatedHash (C : Crypto) (zone : Zone) (bytes : Bytes) : Hash32 :=
  let h := C.keccak256 bytes
  (((h.set 0 zone.byte).set 1 (h.byte 1 ||| 0x80)).set 2 zone.byte).set 3 (h.byte 3 ||| 0x80)

end QiTransaction

end QuaiSdk
