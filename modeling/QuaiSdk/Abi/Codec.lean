import QuaiSdk.Abi.Types
import QuaiSdk.AddressText
import QuaiSdk.Lib.BigEndian

/-!
# The ABI coder

`codec.rs`: a value is validated and measured, then written into a buffer of that size; the decoder
follows the same layout and accepts nothing else.  A sequence of types is a list of what each type
caches with the function that handles it; an array repeats its element's.
-/

namespace QuaiSdk.Abi

open Result

def checkedSize (n : ℕ) : Except AbiError ℕ := if maxDataBytes < n then .error .limit else .ok n

def padded (n : ℕ) : ℕ := (n + 31) / 32 * 32

structure Budget where
  nodes : ℕ
  bytes : ℕ
  deriving DecidableEq

namespace Budget

def empty : Budget := ⟨0, 0⟩

def node (b : Budget) (depth : ℕ) : Except AbiError Budget :=
  if maxValueNodes < b.nodes + 1 ∨ maxDepth < depth then .error .limit
  else .ok { b with nodes := b.nodes + 1 }

def text (b : Budget) (n : ℕ) : Except AbiError Budget :=
  if maxDataBytes < b.bytes + n then .error .limit else .ok { b with bytes := b.bytes + n }

end Budget

def sequenceLimit (types : List AbiType) : Except AbiError Unit :=
  if maxFields < types.length then .error .limit
  else if maxValueNodes < (types.map fun ty => ty.metadata.minimumNodes).sum then .error .limit
  else .ok ()

/-- The loop of `preflight_values`, top of the stack first.  Every round counts a node, so the loop
ends within the node limit. -/
def preflightLoop : ℕ → List (Json × ℕ) → Budget → Except AbiError Unit
  | 0, _, _ => .error .limit
  | _ + 1, [], _ => .ok ()
  | fuel + 1, (value, depth) :: stack, budget => do
    let budget ← budget.node depth
    match value with
    | .string s => do
      let budget ← budget.text (utf8 s).length
      preflightLoop fuel stack budget
    | .array items =>
      if maxValueNodes - budget.nodes < items.length ∨
          maxValueNodes < stack.length + items.length then
        .error .limit
      else preflightLoop fuel ((items.map (·, depth + 1)).reverse ++ stack) budget
    | .object _ => .error .value
    | _ => preflightLoop fuel stack budget

def preflightValues (values : List Json) : Except AbiError Unit :=
  if maxValueNodes < values.length then .error .limit
  else preflightLoop (maxValueNodes + 2) (values.map (·, 0)).reverse .empty

/-- `value::integer`'s text of a value. -/
def integerText : Json → Option Bytes
  | .string s => some (utf8 s)
  | .number (.posInt n) => if n.toNat ≤ 9007199254740991 then some (decimal n.toNat) else none
  | .number (.negInt n) =>
    if -9007199254740991 ≤ n.toInt ∧ n.toInt ≤ 9007199254740991 then some (decimalInt n.toInt)
    else none
  | _ => none

def splitSign : Bytes → Bool × Bytes
  | 0x2d :: magnitude => (true, magnitude)
  | magnitude => (false, magnitude)

def splitRadix : Bytes → Bytes × ℕ
  | 0x30 :: 0x78 :: digits => (digits, 16)
  | 0x30 :: 0x58 :: digits => (digits, 16)
  | digits => (digits, 10)

def IsDigit (radix : ℕ) (c : UInt8) : Prop :=
  if radix = 16 then hexDigit c ≠ none else 0x30 ≤ c ∧ c ≤ 0x39

instance decidableIsDigit (radix : ℕ) (c : UInt8) : Decidable (IsDigit radix c) :=
  inferInstanceAs (Decidable (ite _ _ _))

/-- `value::integer`: the word of a decimal or hexadecimal number in range. -/
def integer (value : Json) (signed : Bool) (bits : ℕ) : Except AbiError Bytes := do
  let text ← okOr (integerText value) .value
  if 80 < text.length then .error .value
  else
    let (negative, magnitude) := splitSign text
    let (digits, radix) := splitRadix magnitude
    if digits = [] ∨ ∃ c ∈ digits, ¬IsDigit radix c then .error .value
    else
      let n := radixValue radix digits
      if 2 ^ 256 ≤ n then .error .value
      else if negative = true ∧ n ≠ 0 then
        if signed = false ∨ 2 ^ (bits - 1) < n then .error .value
        else .ok (BigEndian.toBytes 32 (2 ^ 256 - n))
      else if 2 ^ (bits - signed.toNat) ≤ n then .error .value
      else .ok (BigEndian.toBytes 32 n)

/-- `value::decode_hex`. -/
def decodeBytes (value : Json) : Option Bytes := do
  let text ← value.asStr
  let digits ← stripHex text
  let bytes ← decodeHex digits
  if maxDataBytes < digits.length / 2 then none else some bytes

def zeros (n : ℕ) : Bytes := List.replicate n 0

section

variable (keccak256 : Bytes → Hash32)

def primitiveWord (ty : AbiType) (value : Json) : Except AbiError Bytes :=
  match ty with
  | .int signed bits => integer value signed bits
  | .bool =>
    match value with
    | .bool b => .ok (zeros 31 ++ [if b = true then 1 else 0])
    | _ => .error .value
  | .address => do
    let text ← okOr value.asStr .value
    let address ← (Address.parse keccak256 text).mapError fun _ => .value
    .ok (zeros 12 ++ address.bytes)
  | .fixedBytes n => do
    let bytes ← okOr (decodeBytes value) .value
    if bytes.length ≠ n then .error .value else .ok (bytes ++ zeros (32 - n))
  | _ => .error .value

/-- `Sequence::head`: the sizes of the heads, within 64 bits. -/
def sequenceHead (types : List Metadata) : Except AbiError ℕ :=
  let total := (types.map Metadata.head).sum
  if total < 2 ^ 64 then .ok total else .error .limit

abbrev Measurer := ℕ → Json → Except AbiError ℕ

def addTail (dynamic : Bool) (size n : ℕ) : Except AbiError ℕ :=
  if dynamic = true then checkedSize (size + n) else .ok size

def measureEach (depth : ℕ) : List (Metadata × Measurer) → List Json → ℕ → Except AbiError ℕ
  | (ty, measure) :: types, value :: values, size => do
    let n ← measure depth value
    let size ← addTail ty.dynamic size n
    measureEach depth types values size
  | _, _, size => .ok size

def measureSequence (types : List (Metadata × Measurer)) (values : List Json) (depth : ℕ) :
    Except AbiError ℕ :=
  if types.length ≠ values.length then .error .value
  else do
    let head ← sequenceHead (types.map Prod.fst)
    let size ← checkedSize head
    measureEach depth types values size

mutual

def measure (ty : AbiType) : Measurer := fun depth value =>
  if maxDepth < depth then .error .limit
  else
    match ty with
    | .tuple fields => do
      let values ← okOr value.asArray .value
      measureSequence (measures fields) values (depth + 1)
    | .array child length => do
      let values ← okOr value.asArray .value
      if length.any (· ≠ values.length) = true then .error .value
      else do
        let size ← measureSequence (List.replicate values.length (child.metadata, measure child))
          values (depth + 1)
        checkedSize (size + if length.isNone = true then 32 else 0)
    | .string => do
      let text ← okOr value.asStr .value
      checkedSize (32 + padded (utf8 text).length)
    | .bytes => do
      let bytes ← okOr (decodeBytes value) .value
      checkedSize (32 + padded bytes.length)
    | ty => (primitiveWord keccak256 ty value).map fun _ => 32

def measures : List AbiType → List (Metadata × Measurer)
  | [] => []
  | ty :: types => (ty.metadata, measure ty) :: measures types

end

/-- `output[offset..][..data.len()].copy_from_slice(data)`. -/
def put (output : Bytes) (offset : ℕ) (data : Bytes) : Bytes :=
  output.take offset ++ data ++ output.drop (offset + data.length)

/-- `put_usize`. -/
def putUsize (output : Bytes) (offset n : ℕ) : Bytes := put output offset (BigEndian.toBytes 32 n)

abbrev Writer := Json → ℕ → Bytes → Except AbiError (ℕ × Bytes)

/-- The loop of `write_sequence`: where it is in the heads and in the tails. -/
def writeEach (base : ℕ) :
    List (Metadata × Writer) → List Json → ℕ → ℕ → Bytes → Except AbiError (ℕ × Bytes)
  | (ty, write) :: types, value :: values, head, tail, output =>
    if ty.dynamic = true then do
      let (tail, output) ← write value tail (putUsize output head (tail - base))
      writeEach base types values (head + ty.head) tail output
    else do
      let (_, output) ← write value head output
      writeEach base types values (head + ty.head) tail output
  | _, _, _, tail, output => .ok (tail, output)

def writeSequence (types : List (Metadata × Writer)) (values : List Json) (base : ℕ)
    (output : Bytes) : Except AbiError (ℕ × Bytes) := do
  let head ← sequenceHead (types.map Prod.fst)
  writeEach base types values base (base + head) output

def writeBytes (bytes : Bytes) (offset : ℕ) (output : Bytes) : ℕ × Bytes :=
  (offset + 32 + padded bytes.length, put (putUsize output offset bytes.length) (offset + 32) bytes)

def writeLength (length : Option ℕ) (n offset : ℕ) (output : Bytes) : ℕ × Bytes :=
  if length.isNone = true then (offset + 32, putUsize output offset n) else (offset, output)

mutual

def write (ty : AbiType) : Writer := fun value offset output =>
  match ty with
  | .tuple fields => do
    let values ← okOr value.asArray .value
    writeSequence (writers fields) values offset output
  | .array child length => do
    let values ← okOr value.asArray .value
    let (base, output) := writeLength length values.length offset output
    writeSequence (List.replicate values.length (child.metadata, write child)) values base output
  | .bytes => do
    let bytes ← okOr (decodeBytes value) .value
    .ok (writeBytes bytes offset output)
  | .string => do
    let text ← okOr value.asStr .value
    .ok (writeBytes (utf8 text) offset output)
  | ty => do
    let word ← primitiveWord keccak256 ty value
    .ok (offset + 32, put output offset word)

def writers : List AbiType → List (Metadata × Writer)
  | [] => []
  | ty :: types => (ty.metadata, write ty) :: writers types

end

def validate (types : List AbiType) (values : List Json) : Except AbiError ℕ := do
  sequenceLimit types
  if types.length ≠ values.length then .error .value
  else do
    preflightValues values
    measureSequence (measures keccak256 types) values 0

/-- `AbiCoder::encode`. -/
def encode (types : List AbiType) (values : List Json) : Except AbiError Bytes := do
  let size ← validate keccak256 types values
  let (tail, output) ← writeSequence (writers keccak256 types) values 0 (zeros size)
  if tail ≠ output.length then .error .encoding else .ok output

def word (bytes : Bytes) (offset : ℕ) : Except AbiError Bytes :=
  if bytes.length < offset + 32 then .error .encoding else .ok ((bytes.drop offset).take 32)

/-- `size_word`: a word that fits 64 bits. -/
def sizeWord (bytes : Bytes) (offset : ℕ) : Except AbiError ℕ := do
  let value ← word bytes offset
  if ∃ b ∈ value.take 24, b ≠ 0 then .error .encoding else .ok (BigEndian.value (value.drop 24))

abbrev Decoder := ℕ → Bytes → ℕ → Budget → Except AbiError (Json × ℕ × Budget)

/-- Where an element is read: a dynamic one has to be next in the tails. -/
def elementOffset (ty : Metadata) (bytes : Bytes) (base head tail : ℕ) : Except AbiError ℕ :=
  if ty.dynamic = true then do
    let relative ← sizeWord bytes head
    if relative ≠ tail - base then .error .encoding else .ok tail
  else .ok head

/-- The end of an element moves the tails, or is the end of its head. -/
def nextTail (ty : Metadata) (head tail stop : ℕ) : Except AbiError ℕ :=
  if ty.dynamic = true then .ok stop
  else if stop ≠ head + ty.head then .error .encoding
  else .ok tail

/-- The loop of `decode_sequence`. -/
def decodeEach (depth base : ℕ) (bytes : Bytes) :
    List (Metadata × Decoder) → ℕ → ℕ → Budget → Except AbiError (List Json × ℕ × Budget)
  | [], _, tail, budget => .ok ([], tail, budget)
  | (ty, decode) :: types, head, tail, budget => do
    let offset ← elementOffset ty bytes base head tail
    let (value, stop, budget) ← decode depth bytes offset budget
    let tail ← nextTail ty head tail stop
    let (values, tail, budget) ← decodeEach depth base bytes types (head + ty.head) tail budget
    .ok (value :: values, tail, budget)

def decodeSequence (types : List (Metadata × Decoder)) (depth : ℕ) (bytes : Bytes) (base : ℕ)
    (budget : Budget) : Except AbiError (List Json × ℕ × Budget) := do
  let head ← sequenceHead (types.map Prod.fst)
  if bytes.length < base + head then .error .encoding
  else if maxValueNodes - budget.nodes < (types.map fun ty => ty.1.minimumNodes).sum ∨
      maxValueNodes < types.length then
    .error .limit
  else decodeEach depth base bytes types base (base + head) budget

/-- The bytes of a `bytes` or `string`, and where they end. -/
def decodeText (bytes : Bytes) (offset : ℕ) : Except AbiError (Bytes × ℕ) := do
  let len ← sizeWord bytes offset
  if maxDataBytes < len then .error .limit
  else
    let start := offset + 32
    let stop := start + padded len
    if bytes.length < stop then .error .encoding
    else
      let raw := (bytes.drop start).take (padded len)
      if ∃ b ∈ raw.drop len, b ≠ 0 then .error .encoding else .ok (raw.take len, stop)

/-- The number in a word, if the bytes before its width extend its sign. -/
def decodeInt (signed : Bool) (bits : ℕ) (word : Bytes) : Option ℤ :=
  let start := 32 - bits / 8
  let negative := signed = true ∧ 0x80 ≤ word.getD start 0
  if ∃ b ∈ word.take start, b ≠ if negative then 255 else 0 then none
  else if negative then some (BigEndian.value word - 2 ^ 256) else some (BigEndian.value word)

def decodeWord (ty : AbiType) (word : Bytes) : Except AbiError (Json × ℕ) :=
  match ty with
  | .bool =>
    if (∃ b ∈ word.take 31, b ≠ 0) ∨ 1 < word.getD 31 0 then .error .encoding
    else .ok (.bool (word.getD 31 0 = 1), 0)
  | .int signed bits => do
    let n ← okOr (decodeInt signed bits word) .encoding
    .ok (.string (asciiText (decimalInt n)), (decimalInt n).length)
  | .address =>
    if ∃ b ∈ word.take 12, b ≠ 0 then .error .encoding
    else if h : (word.drop 12).length = 20 then
      let text := Address.toText keccak256 ⟨word.drop 12, h⟩
      .ok (.string text, (utf8 text).length)
    else .error .encoding
  | .fixedBytes n =>
    if ∃ b ∈ word.drop n, b ≠ 0 then .error .encoding
    else .ok (.string (toHex (word.take n)), n * 2 + 2)
  | _ => .error .encoding

def decodeLength (length : Option ℕ) (bytes : Bytes) (offset : ℕ) : Except AbiError (ℕ × ℕ) :=
  match length with
  | some n => .ok (n, offset)
  | none => do
    let n ← sizeWord bytes offset
    .ok (n, offset + 32)

mutual

def decode (ty : AbiType) : Decoder := fun depth bytes offset budget => do
  let budget ← budget.node depth
  match ty with
  | .tuple fields => do
    let (values, stop, budget) ←
      decodeSequence (decoders fields) (depth + 1) bytes offset budget
    .ok (.array values, stop, budget)
  | .array child length => do
    let (n, base) ← decodeLength length bytes offset
    if maxValueNodes < n then .error .limit
    else do
      let (values, stop, budget) ←
        decodeSequence (List.replicate n (child.metadata, decode child)) (depth + 1) bytes base
          budget
      .ok (.array values, stop, budget)
  | .string => do
    let (raw, stop) ← decodeText bytes offset
    let budget ← budget.text raw.length
    let text ← okOr (String.fromUTF8? ⟨raw.toArray⟩) .encoding
    .ok (.string text, stop, budget)
  | .bytes => do
    let (raw, stop) ← decodeText bytes offset
    let budget ← budget.text (raw.length * 2 + 2)
    .ok (.string (toHex raw), stop, budget)
  | ty => do
    let word ← word bytes offset
    let (value, length) ← decodeWord keccak256 ty word
    let budget ← budget.text length
    .ok (value, offset + 32, budget)

def decoders : List AbiType → List (Metadata × Decoder)
  | [] => []
  | ty :: types => (ty.metadata, decode ty) :: decoders types

end

/-- `AbiCoder::decode`. -/
def decodeValues (types : List AbiType) (bytes : Bytes) : Except AbiError (List Json) := do
  sequenceLimit types
  if maxDataBytes < bytes.length then .error .limit
  else if bytes.length % 32 ≠ 0 then .error .encoding
  else do
    let (values, stop, _) ← decodeSequence (decoders keccak256 types) 0 bytes 0 .empty
    if stop ≠ bytes.length then .error .encoding else .ok values

end

end QuaiSdk.Abi
