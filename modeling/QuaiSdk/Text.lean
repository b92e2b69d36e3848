import QuaiSdk.Json
import Mathlib.Data.Nat.Digits.Lemmas

/-!
# Texts of numbers and bytes

Decimal and hexadecimal spellings are ASCII, so a text of them is its bytes.
-/

namespace QuaiSdk

open List

theorem forall_byte {P : UInt8 → Prop} (h : ∀ n < 256, P (UInt8.ofNat n)) (b : UInt8) : P b := by
  rw [← @UInt8.ofNat_toNat b]
  exact h _ b.toNat_lt

def asciiText (bytes : Bytes) : String := String.ofList (bytes.map fun b => Char.ofNat b.toNat)

theorem utf8EncodeChar_ascii {b : UInt8} (h : b < 128) :
    String.utf8EncodeChar (Char.ofNat b.toNat) = [b] := by
  have hb : b.toNat < 128 := h
  have hvalid : b.toNat.isValidChar := .inl (by omega)
  have hval : (Char.ofNat b.toNat).val.toNat = b.toNat := by
    rw [Char.ofNat, dif_pos hvalid]
    rfl
  unfold String.utf8EncodeChar
  rw [hval, if_pos (by omega), UInt8.ofNat_toNat]

@[simp] theorem utf8_asciiText {bytes : Bytes} (h : ∀ b ∈ bytes, b < 128) :
    utf8 (asciiText bytes) = bytes := by
  have hflat : (bytes.map fun b => Char.ofNat b.toNat).flatMap String.utf8EncodeChar = bytes := by
    induction bytes with
    | nil => rfl
    | cons b bytes ih =>
      rw [map_cons, flatMap_cons, utf8EncodeChar_ascii (h b mem_cons_self),
        ih (forall_mem_cons.mp h).2]
      rfl
  rw [utf8, asciiText, String.toByteArray_ofList, utf8Encode, hflat, data_toByteArray]

/-- A digit of `0123456789abcdef`. -/
def hexChar (n : UInt8) : UInt8 := if n < 10 then 0x30 + n else 0x61 + (n - 10)

def hexByte (b : UInt8) : Bytes := [hexChar (b >>> 4), hexChar (b &&& 0x0f)]

/-- `to_hex` without its prefix. -/
def hexBytes (bytes : Bytes) : Bytes := bytes.flatMap hexByte

def toHex (bytes : Bytes) : String := asciiText (0x30 :: 0x78 :: hexBytes bytes)

theorem hexByte_ascii (b : UInt8) : ∀ c ∈ hexByte b, c < 128 := by
  have hall : ∀ b : UInt8, (hexByte b).all (· < 128) := forall_byte (by decide +kernel)
  simpa only [all_eq_true, decide_eq_true_eq] using hall b

theorem hexBytes_ascii {bytes : Bytes} {c : UInt8} (h : c ∈ hexBytes bytes) : c < 128 := by
  obtain ⟨b, -, hc⟩ := mem_flatMap.mp h
  exact hexByte_ascii b c hc

theorem utf8_toHex (bytes : Bytes) : utf8 (toHex bytes) = 0x30 :: 0x78 :: hexBytes bytes := by
  refine utf8_asciiText ?_
  intro c hc
  rcases mem_cons.mp hc with rfl | hc
  · decide
  rcases mem_cons.mp hc with rfl | hc
  · decide
  exact hexBytes_ascii hc

theorem length_hexBytes (bytes : Bytes) : (hexBytes bytes).length = 2 * bytes.length := by
  induction bytes with
  | nil => rfl
  | cons b bytes ih =>
    rw [hexBytes, flatMap_cons, length_append, length_cons]
    show 2 + (hexBytes bytes).length = _
    omega

theorem decodeHex_hexBytes (bytes : Bytes) : decodeHex (hexBytes bytes) = some bytes := by
  have hbyte : ∀ b : UInt8, (hexDigit (hexChar (b >>> 4))).bind (fun high =>
      (hexDigit (hexChar (b &&& 0x0f))).map fun low => high <<< 4 ||| low) = some b :=
    forall_byte (by decide +kernel)
  induction bytes with
  | nil => rfl
  | cons b bytes ih =>
    obtain ⟨high, hhigh, hmap⟩ := Option.bind_eq_some_iff.mp (hbyte b)
    obtain ⟨low, hlow, hsame⟩ := Option.map_eq_some_iff.mp hmap
    show decodeHex (hexChar (b >>> 4) :: hexChar (b &&& 0x0f) :: hexBytes bytes) = _
    rw [decodeHex, hhigh, hlow, ih]
    show some ((high <<< 4 ||| low) :: bytes) = _
    rw [hsame]

theorem stripHex_toHex (bytes : Bytes) : stripHex (toHex bytes) = some (hexBytes bytes) := by
  rw [stripHex, utf8_toHex]
  rfl

def decimal (n : ℕ) : Bytes :=
  if n = 0 then [0x30] else (Nat.digits 10 n).reverse.map fun d => UInt8.ofNat (0x30 + d)

def decimalInt (z : ℤ) : Bytes := if z < 0 then 0x2d :: decimal z.natAbs else decimal z.natAbs

def radixValue (radix : ℕ) (digits : Bytes) : ℕ :=
  digits.foldl (fun n c => n * radix + ((hexDigit c).getD 0).toNat) 0

theorem hexDigit_decimal {d : ℕ} (h : d < 10) :
    hexDigit (UInt8.ofNat (0x30 + d)) = some (UInt8.ofNat d) := by
  interval_cases d <;> rfl

theorem mem_decimal {n : ℕ} {c : UInt8} (h : c ∈ decimal n) : 0x30 ≤ c ∧ c ≤ 0x39 := by
  unfold decimal at h
  split at h
  · rw [mem_singleton.mp h]
    decide
  · obtain ⟨d, hd, rfl⟩ := mem_map.mp h
    have hlt : d < 10 := Nat.digits_lt_base (by omega) (mem_reverse.mp hd)
    interval_cases d <;> decide

theorem decimal_ne_nil (n : ℕ) : decimal n ≠ [] := by
  unfold decimal
  split
  · exact cons_ne_nil _ _
  · next h =>
    rw [ne_eq, map_eq_nil_iff, reverse_eq_nil_iff, Nat.digits_eq_nil_iff_eq_zero]
    exact h

theorem radixValue_decimal (n : ℕ) : radixValue 10 (decimal n) = n := by
  unfold decimal
  split
  · next h =>
    subst h
    rfl
  · have hfold : ∀ digits : List ℕ, (∀ d ∈ digits, d < 10) →
        radixValue 10 (digits.reverse.map fun d => UInt8.ofNat (0x30 + d)) =
          Nat.ofDigits 10 digits := by
      intro digits hdigits
      induction digits with
      | nil => rfl
      | cons d digits ih =>
        have hd := hdigits d mem_cons_self
        rw [reverse_cons, map_append, radixValue, foldl_append]
        show radixValue 10 _ * 10 + _ = _
        rw [ih (forall_mem_cons.mp hdigits).2, hexDigit_decimal hd, Nat.ofDigits_cons]
        show Nat.ofDigits 10 digits * 10 + (UInt8.ofNat d).toNat = _
        rw [UInt8.toNat_ofNat', Nat.mod_eq_of_lt (by omega)]
        ring
    rw [hfold _ fun d hd => Nat.digits_lt_base (by omega) hd, Nat.ofDigits_digits]

theorem length_decimal_le {n k : ℕ} (h : n < 10 ^ k) (hk : 0 < k) : (decimal n).length ≤ k := by
  unfold decimal
  split
  · exact hk
  · rw [length_map, length_reverse]
    exact Nat.digits_length_le_iff (by omega) n |>.mpr h

end QuaiSdk
