import QuaiSdk.Abi.Cost

/-!
# Canonical values

The spelling of each value that the decoder produces, and the words of numbers: a canonical value of
one word and its word determine each other.
-/

namespace QuaiSdk.Abi

open Result BigEndian List

def InRange (signed : Bool) (bits : ℕ) (z : ℤ) : Prop :=
  if z < 0 then signed = true ∧ z.natAbs ≤ 2 ^ (bits - 1)
  else z.natAbs < 2 ^ (bits - signed.toNat)

def integerWord (z : ℤ) : Bytes :=
  toBytes 32 (if z < 0 then 2 ^ 256 - z.natAbs else z.natAbs)

variable {z : ℤ} {w : Bytes} {signed : Bool} {bits : ℕ}

theorem decimalInt_ascii {c : UInt8} (h : c ∈ decimalInt z) : c < 128 := by
  have hdigit : ∀ d ∈ decimal z.natAbs, d < 128 := fun d hd =>
    UInt8.lt_of_le_of_lt (mem_decimal hd).2 (by decide)
  unfold decimalInt at h
  split at h
  · rcases mem_cons.mp h with rfl | h
    · decide
    · exact hdigit c h
  · exact hdigit c h

theorem splitSign_decimal (n : ℕ) : splitSign (decimal n) = (false, decimal n) := by
  unfold splitSign
  split
  · next hcons =>
    have := (mem_decimal (n := n) (hcons ▸ mem_cons_self)).1
    exact absurd this (by decide)
  · rfl

theorem splitSign_decimalInt (z : ℤ) :
    splitSign (decimalInt z) = (decide (z < 0), decimal z.natAbs) := by
  unfold decimalInt
  split
  · next h =>
    rw [decide_eq_true h]
    rfl
  · next h => rw [splitSign_decimal, decide_eq_false h]

theorem splitRadix_decimal (n : ℕ) : splitRadix (decimal n) = (decimal n, 10) := by
  have hsecond : ∀ {c rest}, decimal n = 0x30 :: c :: rest → c ≤ 0x39 := by
    intro c rest h
    exact (mem_decimal (n := n) (h ▸ mem_cons_of_mem _ mem_cons_self)).2
  unfold splitRadix
  split
  · next h => exact absurd (hsecond h) (by decide)
  · next h => exact absurd (hsecond h) (by decide)
  · rfl

theorem length_decimalInt_le (h : z.natAbs < 10 ^ 78) : (decimalInt z).length ≤ 79 := by
  have := length_decimal_le h (by omega)
  unfold decimalInt
  split
  · rw [length_cons]
    omega
  · omega

/-- Words of integers, for integers in the spelling of the decoder. -/
theorem integer_decimalInt (hbits : bits ≤ 256) :
    integer (.string (asciiText (decimalInt z))) signed bits = .ok w ↔
      InRange signed bits z ∧ integerWord z = w := by
  have htext : integerText (.string (asciiText (decimalInt z))) = some (decimalInt z) :=
    congrArg some (utf8_asciiText fun c hc => decimalInt_ascii hc)
  have hdigits : ¬(decimal z.natAbs = [] ∨ ∃ c ∈ decimal z.natAbs, ¬IsDigit 10 c) := by
    rintro (hnil | ⟨c, hc, hnot⟩)
    · exact decimal_ne_nil _ hnil
    · exact hnot (mem_decimal hc)
  have hlow : 2 ^ (bits - 1) ≤ 2 ^ 255 := Nat.pow_le_pow_right (by omega) (by omega)
  have hhigh : 2 ^ (bits - signed.toNat) ≤ 2 ^ 256 := Nat.pow_le_pow_right (by omega) (by omega)
  unfold integer
  rw [htext, okOr_some, ok_bind]
  dsimp only
  rw [splitSign_decimalInt]
  rw [splitRadix_decimal]
  rw [if_neg hdigits, radixValue_decimal, ite_error_eq_ok, ite_error_eq_ok]
  unfold InRange integerWord
  by_cases hz : z < 0
  · have hnonzero : z.natAbs ≠ 0 := by omega
    rw [if_pos ⟨decide_eq_true hz, hnonzero⟩, if_pos hz, if_pos hz, ite_error_eq_ok, not_or,
      Bool.not_eq_false]
    constructor
    · rintro ⟨-, -, ⟨hsigned, hrange⟩, h⟩
      exact ⟨⟨hsigned, by omega⟩, Except.ok.inj h⟩
    · rintro ⟨⟨hsigned, hrange⟩, rfl⟩
      have := length_decimalInt_le (z := z) (by omega)
      exact ⟨by omega, by omega, ⟨hsigned, by omega⟩, rfl⟩
  · rw [if_neg fun h => hz (of_decide_eq_true h.1), if_neg hz, if_neg hz, ite_error_eq_ok]
    constructor
    · rintro ⟨-, -, hrange, h⟩
      exact ⟨by omega, Except.ok.inj h⟩
    · rintro ⟨hrange, rfl⟩
      have := length_decimalInt_le (z := z) (by omega)
      exact ⟨by omega, by omega, by omega, rfl⟩

theorem take_sign (hw : w.length = 32) {k P : ℕ} (hk : k < 32) (hP : 256 ^ (k + 1) = 2 * P) :
    ((∀ b ∈ w.take (31 - k), b = 0) ↔ value w < 2 * P) ∧
    ((∀ b ∈ w.take (31 - k), b = 0) → value w = value (w.drop (31 - k))) ∧
    ((∀ b ∈ w.take (31 - k), b = 255) ↔ 2 ^ 256 ≤ value w + 2 * P) ∧
    ((∀ b ∈ w.take (31 - k), b = 255) → value w + 2 * P = 2 ^ 256 + value (w.drop (31 - k))) := by
  have hlength : (w.drop (31 - k)).length = k + 1 := by
    rw [length_drop, hw]
    omega
  have hfront : (w.take (31 - k)).length = 31 - k := by
    rw [length_take, hw]
    omega
  have hsplit := value_append (w.take (31 - k)) (w.drop (31 - k))
  rw [take_append_drop, hlength, hP] at hsplit
  refine ⟨?_, ?_, ?_, ?_⟩
  · rw [take_zero_iff, hlength, hP]
  · intro h
    rw [hsplit, value_eq_zero_iff.mpr h, Nat.zero_mul, Nat.zero_add]
  · rw [take_max_iff, hlength, hP, hw]
    rfl
  · intro h
    have hmax := value_eq_max_iff.mpr h
    have htotal : 256 ^ (31 - k) * (2 * P) = 2 ^ 256 := by
      rw [← hP, ← Nat.pow_add, show 31 - k + (k + 1) = 32 by omega]
      rfl
    rw [hfront] at hmax
    rw [hsplit, ← htotal, ← hmax, Nat.add_mul]
    omega

theorem getD_sign (hw : w.length = 32) {k P : ℕ} (hk : k < 32) (hP : 256 ^ (k + 1) = 2 * P) :
    0x80 ≤ w.getD (31 - k) 0 ↔ P ≤ value (w.drop (31 - k)) := by
  have hlt : 31 - k < w.length := by omega
  have hrest : (w.drop (31 - k + 1)).length = k := by
    rw [length_drop, hw]
    omega
  have hhalf : 128 * 256 ^ (w.drop (31 - k + 1)).length = P := by
    rw [hrest]
    omega
  have hget : w.getD (31 - k) 0 = w[31 - k] := by
    rw [getD_eq_getElem?_getD, getElem?_eq_getElem hlt, Option.getD_some]
  rw [hget, drop_eq_getElem_cons hlt, ← hhalf]
  exact high_bit_iff

theorem value_integerWord (hbits : bits ≤ 256) (h : InRange signed bits z) :
    value (integerWord z) = if z < 0 then 2 ^ 256 - z.natAbs else z.natAbs := by
  have hhigh : 2 ^ (bits - signed.toNat) ≤ 2 ^ 256 := Nat.pow_le_pow_right (by omega) (by omega)
  rw [integerWord, value_toBytes]
  apply Nat.mod_eq_of_lt
  unfold InRange at h
  split
  · omega
  · next hz =>
    rw [if_neg hz] at h
    omega

theorem decodeInt_eq_some (hbits : 0 < bits ∧ bits ≤ 256 ∧ bits % 8 = 0) (hw : w.length = 32) :
    decodeInt signed bits w = some z ↔ InRange signed bits z ∧ integerWord z = w := by
  obtain ⟨k, hk⟩ : ∃ k, bits = 8 * (k + 1) := ⟨bits / 8 - 1, by omega⟩
  have hstart : 32 - bits / 8 = 31 - k := by omega
  have hpow : (256 : ℕ) ^ (k + 1) = 2 * 2 ^ (bits - 1) := by
    rw [show (256 : ℕ) = 2 ^ 8 from rfl, ← Nat.pow_mul, ← Nat.pow_succ', hk]
    rfl
  obtain ⟨hzero, hzeroValue, hmax, hmaxValue⟩ := take_sign hw (by omega) hpow
  have hsign := getD_sign hw (by omega) hpow
  have hself : toBytes 32 (value w) = w := by
    have := toBytes_value w
    rwa [hw] at this
  have hunsigned : 2 ^ (bits - signed.toNat) = if signed = true then 2 ^ (bits - 1)
      else 2 * 2 ^ (bits - 1) := by
    cases signed with
    | true => rfl
    | false =>
      rw [← Nat.pow_succ']
      congr 1
      show bits - 0 = _
      omega
  have hback := value_lt (w.drop (31 - k))
  rw [length_drop, hw, show 32 - (31 - k) = k + 1 by omega, hpow] at hback
  have hhalf : 2 * 2 ^ (bits - 1) ≤ 2 ^ 256 := by
    rw [← Nat.pow_succ']
    exact Nat.pow_le_pow_right (by omega) (by omega)
  simp only [decodeInt, hstart, Option.ite_none_left_eq_some, not_exists, not_and, not_not]
  by_cases hneg : signed = true ∧ 0x80 ≤ w.getD (31 - k) 0
  · have hlow := hsign.mp hneg.2
    simp only [if_pos hneg, Option.some.injEq]
    constructor
    · rintro ⟨hall, hz⟩
      have := hmaxValue hall
      have hlt : z < 0 := by omega
      have habs : 2 ^ 256 - z.natAbs = value w := by omega
      rw [InRange, if_pos hlt, integerWord, if_pos hlt, habs]
      exact ⟨⟨hneg.1, by omega⟩, hself⟩
    · rintro ⟨hrange, hz⟩
      have hvalue := value_integerWord hbits.2.1 hrange
      rw [hz] at hvalue
      rw [InRange, hunsigned, if_pos hneg.1] at hrange
      by_cases hlt : z < 0
      · rw [if_pos hlt] at hvalue hrange
        exact ⟨hmax.mpr (by omega), by omega⟩
      · -- the number would have its high bit
        rw [if_neg hlt] at hvalue hrange
        have := hzeroValue (hzero.mpr (by omega))
        omega
  · have hlow : signed = true → value (w.drop (31 - k)) < 2 ^ (bits - 1) := fun hsigned =>
      not_le.mp fun hle => hneg ⟨hsigned, hsign.mpr hle⟩
    simp only [if_neg hneg, Option.some.injEq]
    constructor
    · rintro ⟨hall, hz⟩
      have := hzeroValue hall
      have hlt : ¬z < 0 := by omega
      have habs : z.natAbs = value w := by omega
      rw [InRange, if_neg hlt, integerWord, if_neg hlt, habs, hunsigned]
      refine ⟨?_, hself⟩
      split
      · next hsigned =>
        have := hlow hsigned
        omega
      · omega
    · rintro ⟨hrange, hz⟩
      have hvalue := value_integerWord hbits.2.1 hrange
      rw [hz] at hvalue
      rw [InRange, hunsigned] at hrange
      by_cases hlt : z < 0
      · -- the number would not have its high bit
        rw [if_pos hlt] at hvalue hrange
        have := hmaxValue (hmax.mpr (by omega))
        have := hlow hrange.1
        omega
      · rw [if_neg hlt] at hvalue hrange
        have hsmall : z.natAbs < 2 * 2 ^ (bits - 1) := by
          split at hrange <;> omega
        exact ⟨hzero.mpr (by omega), by omega⟩

section

variable (keccak256 : Bytes → Hash32)

mutual

/-- The spelling that the decoder produces: minimal decimal numbers, checksummed addresses,
lower-case hexadecimal bytes and positional arrays. -/
def Canonical : AbiType → Json → Prop
  | .bool, value => ∃ b, value = .bool b
  | .int _ _, value => ∃ z, value = .string (asciiText (decimalInt z))
  | .address, value => ∃ address : Address, value = .string (address.toText keccak256)
  | .fixedBytes _, value => ∃ bytes, value = .string (toHex bytes)
  | .bytes, value => ∃ bytes, value = .string (toHex bytes)
  | .string, value => ∃ text, value = .string text
  | .array child _, value => ∃ items, value = .array items ∧ ∀ item ∈ items, Canonical child item
  | .tuple fields, value => ∃ items, value = .array items ∧ Canonicals fields items

/-- Values are canonical at their positions; how many there are is not the matter here. -/
def Canonicals : List AbiType → List Json → Prop
  | ty :: types, value :: values => Canonical ty value ∧ Canonicals types values
  | _, _ => True

end

variable {keccak256}

theorem zeros_iff {bytes : Bytes} : (¬∃ b ∈ bytes, b ≠ 0) ↔ bytes = zeros bytes.length := by
  push Not
  rw [zeros, eq_replicate_iff]
  exact ⟨fun h => ⟨rfl, h⟩, fun h => h.2⟩

theorem decodeBytes_toHex (bytes : Bytes) :
    decodeBytes (.string (toHex bytes)) = if maxDataBytes < bytes.length then none
      else some bytes := by
  show (stripHex (toHex bytes)).bind _ = _
  rw [stripHex_toHex]
  show (decodeHex (hexBytes bytes)).bind _ = _
  rw [decodeHex_hexBytes]
  show (if maxDataBytes < (hexBytes bytes).length / 2 then none else some bytes) = _
  rw [length_hexBytes, Nat.mul_div_cancel_left _ (by omega)]

theorem length_toHex (bytes : Bytes) : (utf8 (toHex bytes)).length = bytes.length * 2 + 2 := by
  rw [utf8_toHex, length_cons, length_cons, length_hexBytes]
  omega

variable {w : Bytes} {value : Json} {n : ℕ}

theorem decodeWord_bool (hw : w.length = 32) : decodeWord keccak256 .bool w = .ok (value, n) ↔
      (∃ b, value = .bool b) ∧ primitiveWord keccak256 .bool value = .ok w ∧
        n = textBytes value := by
  have hlast : w = w.take 31 ++ [w.getD 31 0] := by
    have hdrop : w.drop 31 = [w.getD 31 0] := by
      rw [drop_eq_getElem_cons (by omega), drop_of_length_le (by omega),
        getD_eq_getElem?_getD, getElem?_eq_getElem, Option.getD_some]
    rw [← hdrop, take_append_drop]
  have hfront : (w.take 31).length = 31 := by
    rw [length_take]
    omega
  unfold decodeWord
  rw [ite_error_eq_ok, not_or, zeros_iff, hfront]
  constructor
  · rintro ⟨⟨hzeros, hle⟩, h⟩
    cases h
    refine ⟨⟨_, rfl⟩, ?_, rfl⟩
    have hbit : ∀ last : UInt8, ¬1 < last → (if decide (last = 1) = true then 1 else 0) = last :=
      forall_byte (by decide +kernel)
    show Except.ok (zeros 31 ++ [if decide (w.getD 31 0 = 1) = true then 1 else 0]) = _
    rw [hbit _ hle, ← hzeros, ← hlast]
  · rintro ⟨⟨b, rfl⟩, hword, rfl⟩
    cases hword
    refine ⟨⟨rfl, ?_⟩, ?_⟩
    · cases b <;> decide
    · cases b <;> rfl

theorem decodeWord_address (hw : w.length = 32) : decodeWord keccak256 .address w = .ok (value, n) ↔
      (∃ a : Address, value = .string (a.toText keccak256)) ∧
        primitiveWord keccak256 .address value = .ok w ∧ n = textBytes value := by
  have hfront : (w.take 12).length = 12 := by
    rw [length_take]
    omega
  have hback : (w.drop 12).length = 20 := by
    rw [length_drop]
    omega
  have hparse : ∀ a : Address, primitiveWord keccak256 .address (.string (a.toText keccak256)) =
      .ok (zeros 12 ++ a.bytes) := by
    intro a
    show (okOr (some _) _ >>= _) = _
    rw [okOr_some, ok_bind, Address.parse_toText]
    rfl
  unfold decodeWord
  rw [ite_error_eq_ok, zeros_iff, hfront, dif_pos hback]
  constructor
  · rintro ⟨hzeros, h⟩
    cases h
    refine ⟨⟨_, rfl⟩, ?_, rfl⟩
    rw [hparse, ← hzeros, take_append_drop]
  · rintro ⟨⟨a, rfl⟩, hword, rfl⟩
    rw [hparse] at hword
    cases hword
    exact ⟨rfl, rfl⟩

theorem decodeWord_fixedBytes {k : ℕ} (hk : k ≤ 32) (hw : w.length = 32) :
    decodeWord keccak256 (.fixedBytes k) w = .ok (value, n) ↔
      (∃ bytes, value = .string (toHex bytes)) ∧
        primitiveWord keccak256 (.fixedBytes k) value = .ok w ∧ n = textBytes value := by
  have hfront : (w.take k).length = k := by
    rw [length_take]
    omega
  have hback : (w.drop k).length = 32 - k := by
    rw [length_drop, hw]
  have hmax : 32 ≤ maxDataBytes := by decide
  unfold decodeWord
  rw [ite_error_eq_ok, zeros_iff, hback]
  constructor
  · rintro ⟨hzeros, h⟩
    cases h
    refine ⟨⟨_, rfl⟩, ?_, ?_⟩
    · show (okOr (decodeBytes _) _ >>= _) = _
      rw [decodeBytes_toHex, if_neg (by omega), okOr_some, ok_bind, if_neg (not_not.mpr hfront),
        ← hzeros, take_append_drop]
    · rw [textBytes_string, length_toHex, hfront]
  · rintro ⟨⟨bytes, rfl⟩, hword, rfl⟩
    obtain ⟨bytes', hbytes, hword⟩ := bind_eq_ok.mp hword
    rw [decodeBytes_toHex, okOr_eq_ok] at hbytes
    split at hbytes
    · cases hbytes
    cases hbytes
    rw [ite_error_eq_ok, not_not] at hword
    obtain ⟨rfl, hword⟩ := hword
    cases hword
    rw [drop_left, take_left, textBytes_string, length_toHex]
    exact ⟨rfl, rfl⟩

/-- A canonical value of one word and its word determine each other. -/
theorem decodeWord_eq_ok {ty : AbiType} (hty : ty.Valid) (hw : w.length = 32) :
    decodeWord keccak256 ty w = .ok (value, n) ↔
      Canonical keccak256 ty value ∧ primitiveWord keccak256 ty value = .ok w ∧
        n = textBytes value := by
  cases hty with
  | bool =>
    exact decodeWord_bool hw
  | int h =>
    rename_i signed bits
    constructor
    · intro hword
      obtain ⟨z, hz, hword⟩ := bind_eq_ok.mp hword
      cases hword
      rw [okOr_eq_ok, decodeInt_eq_some h hw] at hz
      refine ⟨⟨z, rfl⟩, (integer_decimalInt h.2.1).mpr hz, ?_⟩
      rw [textBytes_string, utf8_asciiText fun c hc => decimalInt_ascii hc]
    · rintro ⟨⟨z, rfl⟩, hword, rfl⟩
      have hz := (decodeInt_eq_some h hw).mpr ((integer_decimalInt h.2.1).mp hword)
      show (okOr (decodeInt signed bits w) _ >>= _) = _
      rw [hz, okOr_some, ok_bind, textBytes_string, utf8_asciiText fun c hc => decimalInt_ascii hc]
  | address =>
    exact decodeWord_address hw
  | fixedBytes h =>
    exact decodeWord_fixedBytes h.2 hw
  | bytes | string | array | tuple => exact ⟨fun h => (nomatch h), fun h => (nomatch h.2.1)⟩

end

end QuaiSdk.Abi
