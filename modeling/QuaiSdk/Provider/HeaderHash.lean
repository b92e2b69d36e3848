import QuaiSdk.Json
import QuaiSdk.Lib.BigEndian
import QuaiSdk.Lib.PrefixCode
import QuaiSdk.Lib.Wire

/-!
# Header hashes

`header_hash.rs`: a zone header's hashes recomputed from the node's JSON.  BLAKE3 is a parameter.  The
header seal writes its fields in one fixed order; the order, with each field's tag and form, is a
table here.
-/

namespace QuaiSdk.Provider

open Result

def kawpowForkPrimeTerminus : ℕ := 1171500

def headerFieldNames : List String :=
  ["avgTxFees", "baseFeePerGas", "conversionFlowAmount", "efficiencyScore", "etxEligibleSlices",
    "etxRollupRoot", "etxSetRoot", "evmRoot", "exchangeRate", "expansionNumber", "extraData",
    "gasLimit", "gasUsed", "interlinkRootHash", "kQuaiDiscount", "manifestHash", "minerDifficulty",
    "number", "outboundEtxsRoot", "parentDeltaEntropy", "parentEntropy", "parentHash",
    "parentUncledDeltaEntropy", "primeStateRoot", "primeTerminusHash", "quaiStateSize",
    "receiptsRoot", "regionStateRoot", "size", "stateLimit", "stateUsed", "thresholdCount",
    "totalFees", "transactionsRoot", "uncleHash", "uncledEntropy", "utxoRoot", "woHeader"]

def workObjectFieldNames : List String :=
  ["data", "difficulty", "hash", "headerHash", "location", "lock", "mixHash", "nonce", "number",
    "parentHash", "primaryCoinbase", "primeTerminusNumber", "timestamp", "txHash", "auxpow",
    "scryptDiffAndCount", "shaDiffAndCount", "shaShareTarget", "scryptShareTarget",
    "kawpowDifficulty"]

def auxpowFieldNames : List String :=
  ["auxpow2", "header", "merkleBranch", "powId", "signature", "transaction"]

/-- Chains whose coinbase commits the seal hash directly. -/
def directCommitmentPowIds : List ℕ := [1, 2, 3]

inductive HeaderHashError where
  | missing (field : String)
  | malformed (field : String)
  | unknownField (field : String)
  | headerHashMismatch
  | hashMismatch
  | sealNotCommitted
  deriving DecidableEq

def known (object : Json.Object) (names : List String) : Except HeaderHashError Unit :=
  match object.find? fun entry => entry.1 ∉ names with
  | some entry => .error (.unknownField entry.1)
  | none => .ok ()

def field (o : Json.Object) (name : String) : Except HeaderHashError Json :=
  okOr (Json.get o name) (.missing name)

def list (o : Json.Object) (name : String) (length : ℕ) : Except HeaderHashError (List Json) := do
  let value ← field o name
  match value.asArray with
  | some items => if items.length = length then .ok items else .error (.malformed name)
  | none => .error (.malformed name)

def bytesValue (value : Json) (name : String) : Except HeaderHashError Bytes := do
  let text ← okOr (value.asStr.bind stripHex) (.malformed name)
  okOr (decodeHex text) (.malformed name)

def bytes (o : Json.Object) (name : String) : Except HeaderHashError Bytes := do
  let value ← field o name
  bytesValue value name

/-- `fixed` at 32 bytes is a hash. -/
def hashValue (value : Json) (name : String) : Except HeaderHashError Hash32 := do
  let b ← bytesValue value name
  okOr (Hash32.ofBytes b) (.malformed name)

def hash (o : Json.Object) (name : String) : Except HeaderHashError Hash32 := do
  let value ← field o name
  hashValue value name

def fixed (size : ℕ) (o : Json.Object) (name : String) : Except HeaderHashError Bytes := do
  let b ← bytes o name
  if b.length = size then .ok b else .error (.malformed name)

def bigValue (value : Json) (name : String) : Except HeaderHashError Bytes := do
  let text ← okOr (value.asStr.bind stripHex) (.malformed name)
  if text = [] ∨ 128 < text.length then .error (.malformed name)
  else
    let padded := if text.length % 2 = 1 then 0x30 :: text else text
    let decoded ← okOr (decodeHex padded) (.malformed name)
    .ok (BigEndian.strip decoded)

def big (o : Json.Object) (name : String) : Except HeaderHashError Bytes := do
  let value ← field o name
  bigValue value name

def uint (o : Json.Object) (name : String) : Except HeaderHashError ℕ := do
  let b ← big o name
  if 8 < b.length then .error (.malformed name) else .ok (BigEndian.value b)

inductive ProtoValue where
  | varint (n : ℕ)
  | bytes (b : Bytes)
  deriving DecidableEq

structure ProtoField where
  tag : ℕ
  value : ProtoValue
  deriving DecidableEq

/-- Numbers are `u64`, and so is a length. -/
def ProtoField.write (f : ProtoField) : Bytes :=
  match f.value with
  | .varint n => PrefixCode.varint (f.tag * 8) ++ PrefixCode.varint n
  | .bytes b => PrefixCode.varint (f.tag * 8 + 2) ++ (PrefixCode.varint b.length ++ b)

def writeProto (fields : List ProtoField) : Bytes := fields.flatMap ProtoField.write

/-- `optional_bytes`. -/
def optionalBytes (tag : ℕ) (b : Bytes) : List ProtoField := Wire.unlessEmpty b ⟨tag, .bytes b⟩

/-- A `ProtoHash` message, `{1: 32 bytes}`. -/
def protoHash (tag : ℕ) (h : Hash32) : ProtoField := ⟨tag, .bytes (writeProto [⟨1, .bytes h.bytes⟩])⟩

/-- How a sealed field is read: a hash, a quantity, a 64-bit number or bytes, or so many of them. -/
inductive SealForm where
  | hash
  | hashes (count : ℕ)
  | big
  | bigs (count : ℕ)
  | uint
  | bytes
  deriving DecidableEq

structure SealRow where
  tag : ℕ
  name : String
  form : SealForm
  deriving DecidableEq

/-- Difficulty (9), location (18), mix hash (20) and nonce (21) are not sealed. -/
def headerSealRows : List SealRow :=
  [⟨1, "parentHash", .hashes 2⟩, ⟨2, "uncleHash", .hash⟩, ⟨3, "evmRoot", .hash⟩,
    ⟨4, "transactionsRoot", .hash⟩, ⟨5, "outboundEtxsRoot", .hash⟩, ⟨6, "etxRollupRoot", .hash⟩,
    ⟨7, "manifestHash", .hashes 3⟩, ⟨8, "receiptsRoot", .hash⟩, ⟨10, "parentEntropy", .bigs 3⟩,
    ⟨11, "parentDeltaEntropy", .bigs 3⟩, ⟨12, "parentUncledDeltaEntropy", .bigs 3⟩,
    ⟨13, "uncledEntropy", .big⟩, ⟨14, "number", .bigs 2⟩, ⟨15, "gasLimit", .uint⟩,
    ⟨16, "gasUsed", .uint⟩, ⟨17, "baseFeePerGas", .big⟩, ⟨19, "extraData", .bytes⟩,
    ⟨22, "utxoRoot", .hash⟩, ⟨23, "etxSetRoot", .hash⟩, ⟨24, "efficiencyScore", .uint⟩,
    ⟨25, "thresholdCount", .uint⟩, ⟨26, "expansionNumber", .uint⟩, ⟨27, "etxEligibleSlices", .hash⟩,
    ⟨28, "primeTerminusHash", .hash⟩, ⟨29, "interlinkRootHash", .hash⟩, ⟨30, "stateLimit", .uint⟩,
    ⟨31, "stateUsed", .uint⟩, ⟨32, "quaiStateSize", .big⟩, ⟨33, "exchangeRate", .big⟩,
    ⟨35, "avgTxFees", .big⟩, ⟨36, "totalFees", .big⟩, ⟨37, "kQuaiDiscount", .big⟩,
    ⟨38, "conversionFlowAmount", .big⟩, ⟨39, "minerDifficulty", .big⟩, ⟨40, "primeStateRoot", .hash⟩,
    ⟨41, "regionStateRoot", .hash⟩]

inductive SealValue where
  | hash (h : Hash32)
  | big (b : Bytes)
  | uint (n : ℕ)
  | bytes (b : Bytes)
  deriving DecidableEq

def SealRow.read (row : SealRow) (h : Json.Object) : Except HeaderHashError (List SealValue) :=
  match row.form with
  | .hash => do
    let value ← hash h row.name
    .ok [.hash value]
  | .hashes count => do
    let items ← list h row.name count
    let values ← items.mapM fun item => hashValue item row.name
    .ok (values.map .hash)
  | .big => do
    let value ← big h row.name
    .ok [.big value]
  | .bigs count => do
    let items ← list h row.name count
    let values ← items.mapM fun item => bigValue item row.name
    .ok (values.map .big)
  | .uint => do
    let value ← uint h row.name
    .ok [.uint value]
  | .bytes => do
    let value ← bytes h row.name
    .ok [.bytes value]

def SealValue.proto (tag : ℕ) : SealValue → ProtoField
  | .hash h => protoHash tag h
  | .big b => ⟨tag, .bytes b⟩
  | .uint n => ⟨tag, .varint n⟩
  | .bytes b => ⟨tag, .bytes b⟩

def headerSealFields (h : Json.Object) : Except HeaderHashError (List ProtoField) := do
  let rows ← headerSealRows.mapM fun row => do
    let values ← row.read h
    .ok (values.map (SealValue.proto row.tag))
  .ok rows.flatten

/-- The encodings of a header: extra data is optional, and present-but-empty and absent look alike in
JSON, so an empty one is tried both ways. -/
def headerSealStrings (h : Json.Object) : Except HeaderHashError (List Bytes) := do
  let fields ← headerSealFields h
  let extra ← bytes h "extraData"
  let without := writeProto (fields.filter fun f => f.tag ≠ 19)
  .ok (writeProto fields :: if extra = [] then [without] else [])

def postForkFieldNames : List String :=
  ["scryptDiffAndCount", "shaDiffAndCount", "shaShareTarget", "scryptShareTarget",
    "kawpowDifficulty"]

/-- One number of a share; zero is `[0]`, not empty. -/
def shareField (share : Json.Object) (name : String) (tag : ℕ) (key : String) :
    Except HeaderHashError ProtoField := do
  let value ← (big share key).mapError fun _ => .malformed name
  .ok ⟨tag, .bytes (if value = [] then [0] else value)⟩

def share (w : Json.Object) (name : String) : Except HeaderHashError Bytes := do
  let share ← okOr ((Json.get w name).bind Json.asObject) (.malformed name)
  let difficulty ← shareField share name 1 "difficulty"
  let count ← shareField share name 2 "count"
  let uncled ← shareField share name 3 "uncled"
  .ok (writeProto [difficulty, count, uncled])

def shareFields (w : Json.Object) : Except HeaderHashError (List ProtoField) := do
  let scrypt ← share w "scryptDiffAndCount"
  let sha ← share w "shaDiffAndCount"
  let shaTarget ← big w "shaShareTarget"
  let scryptTarget ← big w "scryptShareTarget"
  let difficulty ← big w "kawpowDifficulty"
  .ok [⟨15, .bytes scrypt⟩, ⟨16, .bytes sha⟩, ⟨17, .bytes shaTarget⟩, ⟨18, .bytes scryptTarget⟩,
    ⟨19, .bytes difficulty⟩]

def sealShares (w : Json.Object) (kawpow : Bool) : Except HeaderHashError (List ProtoField) :=
  if kawpow = true then shareFields w else .ok []

def sealFields (w : Json.Object) (kawpow : Bool) : Except HeaderHashError (List ProtoField) := do
  let headerHash ← hash w "headerHash"
  let parentHash ← hash w "parentHash"
  let number ← big w "number"
  let difficulty ← big w "difficulty"
  let txHash ← hash w "txHash"
  let location ← bytes w "location"
  let timestamp ← uint w "timestamp"
  let primeTerminusNumber ← big w "primeTerminusNumber"
  let lock ← uint w "lock"
  let coinbase ← fixed 20 w "primaryCoinbase"
  let data ← bytes w "data"
  let shares ← sealShares w kawpow
  .ok ([protoHash 1 headerHash, protoHash 2 parentHash, ⟨3, .bytes number⟩, ⟨4, .bytes difficulty⟩,
    protoHash 5 txHash, ⟨7, .bytes (writeProto (optionalBytes 1 location))⟩,
    ⟨9, .varint timestamp⟩, ⟨10, .bytes primeTerminusNumber⟩, ⟨11, .varint lock⟩] ++
    (if kawpow = true then [] else [⟨12, .bytes (writeProto [⟨1, .bytes coinbase⟩])⟩]) ++
    optionalBytes 13 data ++ shares)

def compactSize (input : Bytes) (at_ : ℕ) : Option (ℕ × ℕ) := do
  let first ← input[at_]?
  if first < 0xfd then some (first.toNat, at_ + 1)
  else
    let width := if first = 0xfd then 2 else if first = 0xfe then 4 else 8
    if input.length < at_ + 1 + width then none
    else some (BigEndian.value ((input.drop (at_ + 1)).take width).reverse, at_ + 1 + width)

/-- `get(start..start + length)`. -/
def slice (input : Bytes) (start length : ℕ) : Option Bytes :=
  if start + length ≤ input.length then some ((input.drop start).take length) else none

def pushed (script : Bytes) (at_ : ℕ) : Option (Bytes × ℕ) := do
  let length ← script[at_]?
  if 75 < length then none
  else
    let data ← slice script (at_ + 1) length.toNat
    some (data, at_ + 1 + length.toNat)

def coinbaseScript (transaction : Bytes) : Option Bytes := do
  let (_, next) ← compactSize transaction 4
  let (length, next) ← compactSize transaction (next + 36)
  slice transaction next length

def coinbaseCommitment (transaction : Bytes) : Except HeaderHashError Bytes := do
  let script ← okOr (coinbaseScript transaction) (.malformed "auxpow transaction")
  let (height, next) ← okOr (pushed script 0) (.malformed "auxpow transaction")
  let (payload, _) ← okOr (pushed script next) (.malformed "auxpow transaction")
  if 5 < height.length ∨ payload.length ≠ 44 ∨ payload.take 4 ≠ [0xfa, 0xbe, 0x6d, 0x6d] then
    .error .sealNotCommitted
  else .ok ((payload.drop 4).take 32)

/-- The message that the block hash covers; the signature time (6) is never encoded. -/
def auxFields (a : Json.Object) (powId : ℕ) (transaction : Bytes) :
    Except HeaderHashError (List ProtoField) := do
  let header ← bytes a "header"
  let signature ← bytes a "signature"
  let branches ← okOr ((Json.get a "merkleBranch").bind Json.asArray) (.malformed "merkleBranch")
  let branches ← branches.mapM fun branch => bytesValue branch "merkleBranch"
  let auxpow2 ← bytes a "auxpow2"
  .ok ([⟨1, .varint powId⟩, ⟨2, .bytes header⟩, ⟨3, .bytes signature⟩] ++
    branches.map (fun b => ⟨4, .bytes b⟩) ++ [⟨5, .bytes transaction⟩, ⟨7, .bytes auxpow2⟩])

structure VerifiedHeader where
  headerHash : Hash32
  sealHash : Option Hash32
  hash : Hash32
  hashVerified : Bool
  number : ℕ
  zone : Option Zone
  primeTerminusNumber : ℕ
  timestamp : ℕ
  evmRoot : Hash32
  utxoRoot : Hash32
  etxSetRoot : Hash32
  deriving DecidableEq

def check (recomputed reported : Hash32) : Except HeaderHashError Bool :=
  if recomputed = reported then .ok true else .error .hashMismatch

def locationZone (location : Bytes) : Except HeaderHashError (Option Zone) :=
  match location with
  | [] => .ok none
  | [region, zone] =>
    if region ≤ 2 ∧ zone ≤ 2 then do
      let zone ← (Zone.fromByte (region <<< 4 ||| zone)).mapError fun _ => .malformed "location"
      .ok (some zone)
    else .error (.malformed "location")
  | _ => .error (.malformed "location")

def headerParts (value : Json) : Except HeaderHashError (Json.Object × Json.Object) := do
  let top ← okOr value.asObject (.malformed "header")
  let work ← okOr (Json.get top "woHeader") (.missing "woHeader")
  let work ← okOr work.asObject (.malformed "woHeader")
  match Json.get top "woBody" with
  | some body => do
    let header ← okOr ((body.asObject.bind fun body => Json.get body "header").bind Json.asObject)
      (.malformed "woBody")
    .ok (work, header)
  | none => .ok (work, top)

section Blake3

variable (blake3 : Bytes → Hash32)

def headerSealHash (h : Json.Object) (reported : Hash32) : Except HeaderHashError Hash32 := do
  let strings ← headerSealStrings h
  okOr ((strings.map blake3).find? fun recomputed => recomputed = reported) .headerHashMismatch

def sealString (w : Json.Object) (kawpow : Bool) : Except HeaderHashError Bytes := do
  let fields ← sealFields w kawpow
  if kawpow = true then do
    let coinbase ← fixed 20 w "primaryCoinbase"
    .ok ((blake3 (writeProto fields)).bytes ++ coinbase)
  else .ok (writeProto fields)

/-- `none` when a seal field is absent. -/
def sealHash (w : Json.Object) (kawpow : Bool) : Except HeaderHashError (Option Hash32) :=
  if kawpow = true ∧ ∃ name ∈ postForkFieldNames, Json.get w name = none then .ok none
  else do
    let string ← sealString blake3 w kawpow
    .ok (some (blake3 string))

def auxHash (auxpow : Json) (sealed reported : Hash32) : Except HeaderHashError Bool := do
  let a ← okOr auxpow.asObject (.malformed "auxpow")
  known a auxpowFieldNames
  let powId ← uint a "powId"
  if powId ∉ directCommitmentPowIds then .ok false
  else do
    let transaction ← bytes a "transaction"
    let commitment ← coinbaseCommitment transaction
    if commitment ≠ sealed.bytes then .error .sealNotCommitted
    else do
      let fields ← auxFields a powId transaction
      check (blake3 (writeProto fields)) reported

def blockHashVerified (w : Json.Object) (kawpow : Bool) (sealed : Option Hash32) (reported : Hash32) :
    Except HeaderHashError Bool :=
  match sealed, kawpow with
  | some sealed, false => do
    let mixHash ← hash w "mixHash"
    let nonce ← fixed 8 w "nonce"
    check (blake3 (mixHash.bytes ++ sealed.bytes ++ nonce)) reported
  | some sealed, true =>
    match Json.get w "auxpow" with
    | some auxpow => auxHash blake3 auxpow sealed reported
    | none => .ok false
  | none, _ => .ok false

def verifyHeaderHash (value : Json) : Except HeaderHashError VerifiedHeader := do
  let (work, header) ← headerParts value
  known header headerFieldNames
  known work workObjectFieldNames
  let reportedHeaderHash ← hash work "headerHash"
  let headerHash ← headerSealHash blake3 header reportedHeaderHash
  let primeTerminusNumber ← uint work "primeTerminusNumber"
  let kawpow := decide (kawpowForkPrimeTerminus ≤ primeTerminusNumber)
  let reportedHash ← hash work "hash"
  let sealed ← sealHash blake3 work kawpow
  let hashVerified ← blockHashVerified blake3 work kawpow sealed reportedHash
  let location ← bytes work "location"
  let zone ← locationZone location
  let number ← uint work "number"
  let timestamp ← uint work "timestamp"
  let evmRoot ← hash header "evmRoot"
  let utxoRoot ← hash header "utxoRoot"
  let etxSetRoot ← hash header "etxSetRoot"
  .ok
    { headerHash, sealHash := sealed, hash := reportedHash, hashVerified, number, zone,
      primeTerminusNumber, timestamp, evmRoot, utxoRoot, etxSetRoot }

end Blake3

end QuaiSdk.Provider
