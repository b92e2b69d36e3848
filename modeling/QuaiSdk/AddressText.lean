import QuaiSdk.Text
import QuaiSdk.Lib.Result

/-!
# Checksummed addresses

`address.rs`: an address is spelled in hexadecimal, with the digits in upper case where the hash of
the lower-case spelling says so.
-/

namespace QuaiSdk

open Result List

namespace Address

/-- `to_ascii_uppercase`. -/
def upper (c : UInt8) : UInt8 := if 0x61 ≤ c ∧ c ≤ 0x7a then c - 0x20 else c

def nibblesOf (bytes : Bytes) : Bytes := bytes.flatMap fun b : UInt8 => [b >>> 4, b &&& 0x0f]

/-- `checksum_bytes`, without its `0x`. -/
def checksumDigits (keccak256 : Bytes → Hash32) (a : Address) : Bytes :=
  let digits := hexBytes a.bytes
  zipWith (fun c nibble => if 8 ≤ nibble then upper c else c) digits
    (nibblesOf (keccak256 digits).bytes)

/-- `to_string`. -/
def toText (keccak256 : Bytes → Hash32) (a : Address) : String :=
  asciiText (0x30 :: 0x78 :: checksumDigits keccak256 a)

inductive ParseError where
  | invalidLength
  | invalidHex
  | invalidChecksum

/-- `from_str`: the prefix is optional, and mixed case has to be the checksum's. -/
def parse (keccak256 : Bytes → Hash32) (text : String) : Except ParseError Address :=
  let hex := (stripHex text).getD (utf8 text)
  if hex.length ≠ 40 then .error .invalidLength
  else
    match decodeHex hex with
    | none => .error .invalidHex
    | some bytes =>
      if h : bytes.length = 20 then
        let address : Address := ⟨bytes, h⟩
        if (∃ c ∈ hex, 0x61 ≤ c ∧ c ≤ 0x66) ∧ (∃ c ∈ hex, 0x41 ≤ c ∧ c ≤ 0x46) ∧
            checksumDigits keccak256 address ≠ hex then
          .error .invalidChecksum
        else .ok address
      else .error .invalidLength

theorem length_nibblesOf (bytes : Bytes) : (nibblesOf bytes).length = 2 * bytes.length := by
  induction bytes with
  | nil => rfl
  | cons b bytes ih =>
    rw [nibblesOf, flatMap_cons, length_append]
    show 2 + (nibblesOf bytes).length = 2 * (bytes.length + 1)
    omega

theorem hexDigit_upper : ∀ c : UInt8, hexDigit c ≠ none → hexDigit (upper c) = hexDigit c :=
  forall_byte (by decide +kernel)

theorem upper_ascii : ∀ c : UInt8, c < 128 → upper c < 128 := forall_byte (by decide +kernel)

theorem hexDigit_hexByte (b : UInt8) : ∀ c ∈ hexByte b, hexDigit c ≠ none := by
  have hall : ∀ b : UInt8, (hexByte b).all (hexDigit · ≠ none) := forall_byte (by decide +kernel)
  simpa only [all_eq_true, decide_eq_true_eq] using hall b

theorem decodeHex_congr {a b : Bytes} (h : a.map hexDigit = b.map hexDigit) :
    decodeHex a = decodeHex b := by
  induction a using decodeHex.induct generalizing b with
  | case1 =>
    rw [map_nil, eq_comm, map_eq_nil_iff] at h
    rw [h]
  | case2 =>
    obtain ⟨y, rest, rfl, -, hrest⟩ := map_eq_cons_iff.mp h.symm
    rw [map_eq_nil_iff.mp hrest]
    rfl
  | case3 high low rest ih =>
    obtain ⟨high', tail, rfl, hhigh, htail⟩ := map_eq_cons_iff.mp h.symm
    obtain ⟨low', rest', rfl, hlow, hrest⟩ := map_eq_cons_iff.mp htail
    rw [decodeHex, decodeHex, hhigh, hlow, ih hrest.symm]

theorem length_checksumDigits (keccak256 : Bytes → Hash32) (a : Address) :
    (checksumDigits keccak256 a).length = 40 := by
  rw [checksumDigits, length_zipWith, length_hexBytes, length_nibblesOf, a.size, (keccak256 _).size]
  rfl

theorem map_hexDigit_zipWith {digits nibbles : Bytes} (hlength : digits.length ≤ nibbles.length)
    (hdigits : ∀ c ∈ digits, hexDigit c ≠ none) :
    (zipWith (fun c nibble => if 8 ≤ nibble then upper c else c) digits nibbles).map hexDigit =
      digits.map hexDigit := by
  induction digits generalizing nibbles with
  | nil => rfl
  | cons c digits ih =>
    cases nibbles with
    | nil => simp at hlength
    | cons =>
      have hc := hdigits c mem_cons_self
      rw [zipWith_cons_cons, map_cons, map_cons,
        ih (by simpa using hlength) (forall_mem_cons.mp hdigits).2]
      congr 1
      split
      · exact hexDigit_upper c hc
      · rfl

theorem decodeHex_checksumDigits (keccak256 : Bytes → Hash32) (a : Address) :
    decodeHex (checksumDigits keccak256 a) = some a.bytes := by
  rw [← decodeHex_hexBytes a.bytes]
  apply decodeHex_congr
  apply map_hexDigit_zipWith
  · rw [length_hexBytes, length_nibblesOf, a.size, (keccak256 _).size]
    omega
  · intro c hc
    obtain ⟨b, -, hc⟩ := mem_flatMap.mp hc
    exact hexDigit_hexByte b c hc

theorem checksumDigits_ascii {keccak256 : Bytes → Hash32} {a : Address} {c : UInt8}
    (h : c ∈ checksumDigits keccak256 a) : c < 128 := by
  obtain ⟨i, hi, rfl⟩ := getElem_of_mem h
  simp only [checksumDigits, getElem_zipWith]
  have hascii : ∀ (j : ℕ) (hj : j < (hexBytes a.bytes).length), (hexBytes a.bytes)[j] < 128 :=
    fun j hj => hexBytes_ascii (getElem_mem hj)
  split
  · exact upper_ascii _ (hascii _ _)
  · exact hascii _ _

theorem utf8_toText (keccak256 : Bytes → Hash32) (a : Address) :
    utf8 (a.toText keccak256) = 0x30 :: 0x78 :: checksumDigits keccak256 a := by
  refine utf8_asciiText ?_
  intro c hc
  rcases mem_cons.mp hc with rfl | hc
  · decide
  rcases mem_cons.mp hc with rfl | hc
  · decide
  exact checksumDigits_ascii hc

theorem parse_toText (keccak256 : Bytes → Hash32) (a : Address) :
    parse keccak256 (a.toText keccak256) = .ok a := by
  have hstrip : stripHex (a.toText keccak256) = some (checksumDigits keccak256 a) := by
    rw [stripHex, utf8_toText]
    rfl
  unfold parse
  rw [hstrip]
  dsimp only [Option.getD_some]
  rw [if_neg (by rw [length_checksumDigits]; simp), decodeHex_checksumDigits]
  dsimp only
  rw [dif_pos a.size, if_neg]
  rintro ⟨-, -, hne⟩
  exact hne rfl

end Address

end QuaiSdk
