import QuaiSdk.Consensus.Codec
import QuaiSdk.Json

/-!
# Zone headers

What a provider makes of a node's header responses: the header fields, the genesis, and pages of
numbered reads.  Reading stops at the first error, which is then the last entry.
-/

namespace QuaiSdk.Provider

open Result

inductive ProviderError where
  | replayHistoryUnavailable
  | invalidRequest (message : String)
  | conversionFeeEstimationUnavailable
  | blockNumberOutOfRange
  | quantity
  | chainMismatch (expected actual : U256)
  | genesisMismatch
  | observationChanged
  | invalidResult (message : String)
  -- route and transport failures
  | failed
  deriving DecidableEq

/-- `object`. -/
def objectOf (value : Json) : Except ProviderError Json.Object :=
  okOr value.asObject (.invalidResult "expected object")

def stringOf (value : Json) : Except ProviderError String :=
  okOr value.asStr (.invalidResult "expected string")

/-- `take`: the value and what is left of the object. -/
def takeField (o : Json.Object) (key : String) : Except ProviderError (Json × Json.Object) := do
  let value ← okOr (Json.get o key) (.invalidResult "required field missing")
  .ok (value, o.filter fun entry => entry.1 ≠ key)

def hashOf (value : Json) : Except ProviderError Hash32 := do
  let text ← stringOf value
  okOr ((stripHex text).bind fun digits => (decodeHex digits).bind Hash32.ofBytes)
    (.invalidResult "invalid 32-byte hash")

def hashField (o : Json.Object) (key : String) : Except ProviderError (Hash32 × Json.Object) := do
  let (value, o) ← takeField o key
  let h ← hashOf value
  .ok (h, o)

def hexNumber (digits : Bytes) : Option ℕ :=
  digits.foldlM (fun n c => (hexDigit c).map fun d => n * 16 + d.toNat) 0

def parseQuantity (text : String) : Except ProviderError ℕ := do
  let digits ← okOr (stripHex text) .quantity
  if digits = [] ∨ 64 < digits.length ∨ (1 < digits.length ∧ digits.head? = some 0x30) then
    .error .quantity
  else okOr (hexNumber digits) .quantity

def uint64Of (value : Json) : Except ProviderError UInt64 := do
  let text ← okOr value.asStr (.invalidResult "expected hex quantity string")
  let n ← parseQuantity text
  if n < 2 ^ 64 then .ok (UInt64.ofNat n) else .error (.invalidResult "quantity exceeds uint64")

def uint64Field (o : Json.Object) (key : String) :
    Except ProviderError (UInt64 × Json.Object) := do
  let (value, o) ← takeField o key
  let n ← uint64Of value
  .ok (n, o)

def maxRpcDataBytes : ℕ := 1024 * 1024

/-- `RpcData::new`. -/
def rpcData (bytes : Bytes) : Except ProviderError Bytes :=
  if maxRpcDataBytes < bytes.length then .error (.invalidResult "byte payload exceeds limit")
  else .ok bytes

def dataOf (value : Json) : Except ProviderError Bytes := do
  let text ← stringOf value
  let digits ← okOr (stripHex text) (.invalidResult "expected hex bytes")
  if maxRpcDataBytes * 2 < digits.length ∨ digits.length % 2 ≠ 0 then
    .error (.invalidResult "invalid byte payload length")
  else okOr (decodeHex digits) (.invalidResult "invalid hex bytes")

structure ZoneHeader where
  hash : Hash32
  parentHash : Hash32
  number : UInt64
  zone : Zone
  primeTerminusNumber : UInt64
  gasLimit : UInt64
  stateLimit : UInt64
  extensions : Json.Object
  workObjectExtensions : Json.Object

def zoneOf (location : Bytes) : Except ProviderError Zone :=
  match location with
  | [region, zone] =>
    if 2 < region ∨ 2 < zone then .error (.invalidResult "invalid zone header location")
    else
      (Zone.fromByte (region <<< 4 ||| zone)).mapError fun _ =>
        .invalidResult "unknown zone header location"
  | _ => .error (.invalidResult "invalid zone header location")

def ZoneHeader.tryFrom (value : Json) : Except ProviderError ZoneHeader := do
  let o ← objectOf value
  let (work, o) ← takeField o "woHeader"
  let work ← objectOf work
  let (hash, work) ← hashField work "hash"
  if hash = Hash32.zero then .error (.invalidResult "zero zone header hash")
  else do
    let (parentHash, work) ← hashField work "parentHash"
    let (number, work) ← uint64Field work "number"
    let (primeTerminusNumber, work) ← uint64Field work "primeTerminusNumber"
    let (location, work) ← takeField work "location"
    let location ← dataOf location
    let zone ← zoneOf location
    let (gasLimit, o) ← uint64Field o "gasLimit"
    let (stateLimit, o) ← uint64Field o "stateLimit"
    .ok
      { hash, parentHash, number, zone, primeTerminusNumber, gasLimit, stateLimit, extensions := o,
        workObjectExtensions := work }

/-- `genesis_hash`: the root header at height zero. -/
def genesisHashOf (value : Json) : Except ProviderError Hash32 := do
  let header ← objectOf value
  let (work, _) ← takeField header "woHeader"
  let work ← objectOf work
  let (hash, work) ← hashField work "hash"
  if hash = Hash32.zero then .error (.invalidResult "invalid root genesis header")
  else do
    let (number, work) ← uint64Field work "number"
    if number ≠ 0 then .error (.invalidResult "invalid root genesis header")
    else do
      let (location, work) ← takeField work "location"
      let location ← dataOf location
      if location ≠ [] then .error (.invalidResult "invalid root genesis header")
      else do
        let (parentHash, _) ← hashField work "parentHash"
        if parentHash ≠ Hash32.zero then .error (.invalidResult "invalid root genesis header")
        else .ok hash

inductive BlockTag where
  | latest
  | pending
  | number (n : ℕ)
  deriving DecidableEq

/-- Selectors are signed 64-bit values; a larger one is refused before anything is sent. -/
def BlockTag.OutOfRange : BlockTag → Prop
  | .latest | .pending => False
  | .number n => 2 ^ 63 ≤ n

instance decidableOutOfRange : (block : BlockTag) → Decidable block.OutOfRange
  | .latest | .pending => .isFalse id
  | .number n => inferInstanceAs (Decidable (2 ^ 63 ≤ n))

def parseZoneHeader (value : Json) (zone : Zone) (block : BlockTag) :
    Except ProviderError (Option ZoneHeader) :=
  match value with
  | .null => .ok none
  | value => do
    let header ← ZoneHeader.tryFrom value
    if header.zone ≠ zone then .error (.invalidResult "header zone mismatch")
    else
      match block with
      | .latest | .pending => .ok (some header)
      | .number n =>
        if n ≠ header.number.toNat then .error (.invalidResult "header number mismatch")
        else .ok (some header)

def maxBatchCalls : ℕ := 128

/-- A node's answer to one page; after an error nothing more is read. -/
abbrev PageAnswer := List (Except ProviderError Json)

def upToError : PageAnswer → PageAnswer × Bool
  | [] => ([], false)
  | .error e :: _ => ([.error e], true)
  | .ok value :: rest => (.ok value :: (upToError rest).1, (upToError rest).2)

/-- Pages of blocks, one guarded batch each; the `i`-th page gets the `i`-th answer. -/
def readPages (answers : ℕ → PageAnswer) : List (List BlockTag) → ℕ → PageAnswer
  | [], _ => []
  | page :: pages, i =>
    if ∃ block ∈ page, block.OutOfRange then [.error .blockNumberOutOfRange]
    else
      let (values, failed) := upToError (answers i)
      if failed = true then values else values ++ readPages answers pages (i + 1)

/-- `header_values`. -/
def headerValues (answers : ℕ → PageAnswer) (blocks : List BlockTag) : PageAnswer :=
  readPages answers (blocks.toChunks (maxBatchCalls - 1)) 0

/-- `collect::<Result<Vec<_>, _>>()`. -/
def collect : PageAnswer → Except ProviderError (List Json)
  | [] => .ok []
  | value :: rest => do
    let value ← value
    let rest ← collect rest
    .ok (value :: rest)

end QuaiSdk.Provider
