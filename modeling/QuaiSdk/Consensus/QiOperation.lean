import QuaiSdk.Consensus.Qi

/-!
# Signed Qi operations

The three signed forms of a Qi transaction and their dispatch.  Each signed value carries the check
its only constructor makes: conversions and wrappings have been classified, and every signature has
been verified against the exact unsigned bytes of its mode.
-/

namespace QuaiSdk

open Result Wire QiTransaction

variable {C : Crypto}

/-- A signed payload; `typed` classifies its transaction, and `attach` verifies the signature. -/
def readSigned {α β : Type} (mode : QiMode) (typed : QiTransaction C → Except TransactionError α)
    (attach : α → C.SchnorrSignature → Except TransactionError β) (bytes : Bytes) :
    Except TransactionError β := do
  let p ← decode bytes
  let raw ← fromProtoFor mode p
  let t ← typed raw
  let signature ← readSignature C p
  attach t signature

structure SignedQiTransaction (C : Crypto) where
  transaction : QiTransaction C
  signature : C.SchnorrSignature
  verified : transaction.verifySignatureFor .ordinary signature = .ok ()

namespace SignedQiTransaction

def attachSignature (t : QiTransaction C) (signature : C.SchnorrSignature) :
    Except TransactionError (SignedQiTransaction C) :=
  withProof (t.verifySignatureFor .ordinary signature) fun _ h => ⟨t, signature, h⟩

def signedBytes (s : SignedQiTransaction C) : Except TransactionError Bytes :=
  s.transaction.signedBytesFor .ordinary s.signature

def hash (s : SignedQiTransaction C) : Except TransactionError Hash32 := do
  let origin ← s.transaction.originZone
  let bytes ← s.signedBytes
  .ok (locatedHash C origin bytes)

def decode (C : Crypto) : Bytes → Except TransactionError (SignedQiTransaction C) :=
  canonical .invalidEncoding (readSigned .ordinary .ok attachSignature) signedBytes

end SignedQiTransaction

/-- `outputs.iter().find_map(|output| QuaiAddress::try_from(output.address).ok())`. -/
def quaiDestination (t : QiTransaction C) : Except TransactionError QuaiAddress :=
  okOr (t.outputs.findSome? fun o => (LedgerAddress.tryFrom .quai o.address).toOption)
    TransactionError.invalidScope

/-- Special denominations first, followed by Qi change; `missing` names the absent output. -/
def specialTransaction (missing : String) (chainId : U256) (inputs : List (QiInput C))
    (special : List Denomination) (change : List QiOutput) (destination : QuaiAddress)
    (data : Bytes) : Except TransactionError (QiTransaction C) :=
  if special = [] then .error (.invalidField missing)
  else if maxTransactionMessages < inputs.length * 3 + (special.length + change.length) + 3 ∨
      65535 < inputs.length ∨ 65535 < special.length + change.length then .error .tooLarge
  else if ∃ output ∈ change, output.address.ledger ≠ .qi then .error .invalidScope
  else .ok
    { chainId, inputs, data
      outputs := special.map (fun d => ⟨destination.address, d⟩) ++ change }

structure QiConversionIntent where
  destination : QuaiAddress
  refund : QiAddress
  slippage : ConversionSlippage
  deriving DecidableEq

/-- The classification of `QiConversionTransaction::from_transaction`. -/
def conversionIntent (t : QiTransaction C) : Except TransactionError QiConversionIntent := do
  let _ ← t.validateFor .conversion
  let destination ← quaiDestination t
  let refund ← scopedAddress .qi (t.data.drop 2)
  let slippage ← ConversionSlippage.new (slippageWord t.data)
  .ok { destination, refund, slippage }

/-- Immutable unsigned Qi-to-Quai conversion with validated static semantics. -/
structure QiConversionTransaction (C : Crypto) where
  transaction : QiTransaction C
  intent : QiConversionIntent
  classified : conversionIntent transaction = .ok intent

namespace QiConversionTransaction

def fromTransaction (t : QiTransaction C) : Except TransactionError (QiConversionTransaction C) :=
  withProof (conversionIntent t) fun intent h => ⟨t, intent, h⟩

def new (chainId : U256) (inputs : List (QiInput C)) (converted : List Denomination)
    (change : List QiOutput) (intent : QiConversionIntent) :
    Except TransactionError (QiConversionTransaction C) := do
  let t ← specialTransaction "missing conversion output" chainId inputs converted change
    intent.destination (BigEndian.toBytes 2 intent.slippage.value.toNat ++ intent.refund.bytes)
  fromTransaction t

def originZone (t : QiConversionTransaction C) : Zone := t.intent.destination.zone

def unsignedBytes (t : QiConversionTransaction C) : Except TransactionError Bytes :=
  t.transaction.unsignedBytesFor .conversion

def signingDigest (t : QiConversionTransaction C) : Except TransactionError Hash32 :=
  t.transaction.signingDigestFor .conversion

def decodeUnsigned (C : Crypto) : Bytes → Except TransactionError (QiConversionTransaction C) :=
  canonical .invalidEncoding (readUnsigned .conversion fromTransaction) unsignedBytes

end QiConversionTransaction

structure SignedQiConversionTransaction (C : Crypto) where
  transaction : QiConversionTransaction C
  signature : C.SchnorrSignature
  verified : transaction.transaction.verifySignatureFor .conversion signature = .ok ()

namespace SignedQiConversionTransaction

def attachSignature (t : QiConversionTransaction C) (signature : C.SchnorrSignature) :
    Except TransactionError (SignedQiConversionTransaction C) :=
  withProof (t.transaction.verifySignatureFor .conversion signature) fun _ h => ⟨t, signature, h⟩

def signedBytes (s : SignedQiConversionTransaction C) : Except TransactionError Bytes :=
  s.transaction.transaction.signedBytesFor .conversion s.signature

def hash (s : SignedQiConversionTransaction C) : Except TransactionError Hash32 := do
  let bytes ← s.signedBytes
  .ok (locatedHash C s.transaction.originZone bytes)

def decode (C : Crypto) : Bytes → Except TransactionError (SignedQiConversionTransaction C) :=
  canonical .invalidEncoding
    (readSigned .conversion QiConversionTransaction.fromTransaction attachSignature) signedBytes

end SignedQiConversionTransaction

structure QiWrappingIntent where
  destination : QuaiAddress
  ownerContract : QuaiAddress
  deriving DecidableEq

/-- The classification of `QiWrappingTransaction::from_transaction`. -/
def wrappingIntent (t : QiTransaction C) : Except TransactionError QiWrappingIntent := do
  let _ ← t.validateFor .wrapping
  let destination ← quaiDestination t
  let ownerContract ← scopedAddress .quai t.data
  .ok { destination, ownerContract }

/-- Immutable unsigned Qi wrapping with validated static semantics. -/
structure QiWrappingTransaction (C : Crypto) where
  transaction : QiTransaction C
  intent : QiWrappingIntent
  classified : wrappingIntent transaction = .ok intent

namespace QiWrappingTransaction

def fromTransaction (t : QiTransaction C) : Except TransactionError (QiWrappingTransaction C) :=
  withProof (wrappingIntent t) fun intent h => ⟨t, intent, h⟩

def new (chainId : U256) (inputs : List (QiInput C)) (wrapped : List Denomination)
    (change : List QiOutput) (intent : QiWrappingIntent) :
    Except TransactionError (QiWrappingTransaction C) := do
  let t ← specialTransaction "missing wrapping output" chainId inputs wrapped change
    intent.destination intent.ownerContract.bytes
  fromTransaction t

def originZone (t : QiWrappingTransaction C) : Zone := t.intent.destination.zone

def unsignedBytes (t : QiWrappingTransaction C) : Except TransactionError Bytes :=
  t.transaction.unsignedBytesFor .wrapping

def signingDigest (t : QiWrappingTransaction C) : Except TransactionError Hash32 :=
  t.transaction.signingDigestFor .wrapping

def decodeUnsigned (C : Crypto) : Bytes → Except TransactionError (QiWrappingTransaction C) :=
  canonical .invalidEncoding (readUnsigned .wrapping fromTransaction) unsignedBytes

end QiWrappingTransaction

structure SignedQiWrappingTransaction (C : Crypto) where
  transaction : QiWrappingTransaction C
  signature : C.SchnorrSignature
  verified : transaction.transaction.verifySignatureFor .wrapping signature = .ok ()

namespace SignedQiWrappingTransaction

def attachSignature (t : QiWrappingTransaction C) (signature : C.SchnorrSignature) :
    Except TransactionError (SignedQiWrappingTransaction C) :=
  withProof (t.transaction.verifySignatureFor .wrapping signature) fun _ h => ⟨t, signature, h⟩

def signedBytes (s : SignedQiWrappingTransaction C) : Except TransactionError Bytes :=
  s.transaction.transaction.signedBytesFor .wrapping s.signature

def hash (s : SignedQiWrappingTransaction C) : Except TransactionError Hash32 := do
  let bytes ← s.signedBytes
  .ok (locatedHash C s.transaction.originZone bytes)

def decode (C : Crypto) : Bytes → Except TransactionError (SignedQiWrappingTransaction C) :=
  canonical .invalidEncoding
    (readSigned .wrapping QiWrappingTransaction.fromTransaction attachSignature) signedBytes

end SignedQiWrappingTransaction

inductive SignedQiOperation (C : Crypto) where
  | transfer (signed : SignedQiTransaction C)
  | conversion (signed : SignedQiConversionTransaction C)
  | wrapping (signed : SignedQiWrappingTransaction C)

namespace SignedQiOperation

def decode (C : Crypto) (bytes : Bytes) : Except TransactionError (SignedQiOperation C) := do
  let p ← QuaiSdk.decode bytes
  let length := (p.data.map List.length).getD 0
  if length = 0 then (SignedQiTransaction.decode C bytes).map transfer
  else if length = 20 then (SignedQiWrappingTransaction.decode C bytes).map wrapping
  else if length = 22 then (SignedQiConversionTransaction.decode C bytes).map conversion
  else .error (.invalidField "unsupported Qi operation data")

def mode : SignedQiOperation C → QiMode
  | transfer _ => .ordinary
  | conversion _ => .conversion
  | wrapping _ => .wrapping

def transaction : SignedQiOperation C → QiTransaction C
  | transfer s => s.transaction
  | conversion s => s.transaction.transaction
  | wrapping s => s.transaction.transaction

def signature : SignedQiOperation C → C.SchnorrSignature
  | transfer s => s.signature
  | conversion s => s.signature
  | wrapping s => s.signature

def originZone : SignedQiOperation C → Except TransactionError Zone
  | transfer s => s.transaction.originZone
  | conversion s => .ok s.transaction.originZone
  | wrapping s => .ok s.transaction.originZone

def hash : SignedQiOperation C → Except TransactionError Hash32
  | transfer s => s.hash
  | conversion s => s.hash
  | wrapping s => s.hash

def signedBytes : SignedQiOperation C → Except TransactionError Bytes
  | transfer s => s.signedBytes
  | conversion s => s.signedBytes
  | wrapping s => s.signedBytes

end SignedQiOperation

end QuaiSdk
