import QuaiSdk.Primitives

/-!
# JSON values

The values of `serde_json`: objects are maps from text keys, integers keep their sign apart, and a
text is its UTF-8 bytes.  Hashes, bytes and quantities travel as hexadecimal texts.
-/

namespace QuaiSdk

def utf8 (s : String) : Bytes := s.toByteArray.data.toList

theorem utf8_valid (text : String) : (ByteArray.mk (utf8 text).toArray).IsValidUTF8 := by
  rw [utf8, Array.toArray_toList]
  exact text.isValidUTF8

def hexDigit (c : UInt8) : Option UInt8 :=
  if 0x30 ≤ c ∧ c ≤ 0x39 then some (c - 0x30)
  else if 0x61 ≤ c ∧ c ≤ 0x66 then some (c - 0x61 + 10)
  else if 0x41 ≤ c ∧ c ≤ 0x46 then some (c - 0x41 + 10)
  else none

def decodeHex : Bytes → Option Bytes
  | [] => some []
  | [_] => none
  | high :: low :: rest => do
    let high ← hexDigit high
    let low ← hexDigit low
    let rest ← decodeHex rest
    some ((high <<< 4 ||| low) :: rest)

/-- `strip_prefix("0x")`. -/
def stripHex (text : String) : Option Bytes :=
  match utf8 text with
  | 0x30 :: 0x78 :: digits => some digits
  | _ => none

inductive JsonNumber where
  | posInt (n : UInt64)
  | negInt (n : Int64)
  | float (bits : UInt64)
  deriving DecidableEq

inductive Json where
  | null
  | bool (b : Bool)
  | number (n : JsonNumber)
  | string (s : String)
  | array (items : List Json)
  | object (fields : List (String × Json))

namespace Json

abbrev Object := List (String × Json)

def asObject : Json → Option Object
  | .object fields => some fields
  | _ => none

def asArray : Json → Option (List Json)
  | .array items => some items
  | _ => none

def asStr : Json → Option String
  | .string s => some s
  | _ => none

theorem asArray_eq_some {v : Json} {items : List Json} :
    v.asArray = some items ↔ v = .array items := by
  cases v <;> simp [asArray]

theorem asStr_eq_some {v : Json} {s : String} : v.asStr = some s ↔ v = .string s := by
  cases v <;> simp [asStr]

/-- `Map::get`. -/
def get (o : Object) (name : String) : Option Json :=
  (o.find? fun entry => entry.1 = name).map Prod.snd

end Json

end QuaiSdk
