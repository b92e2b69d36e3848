import QuaiSdk.Fixed
import QuaiSdk.Lib.BigEndian

/-!
# Two's complement

The bit patterns of `encoding.rs` and the byte form of a fixed-point number.  Both directions are
residues modulo a power of two, so they undo each other on the range of a width.
-/

namespace QuaiSdk

open Result BigEndian List

inductive EncodingError where
  | invalid
  | bounds
  | tooLarge
  deriving DecidableEq

/-- Values are `U256`, below `2 ^ 256`. -/
def mask (value bits : ℕ) : Except EncodingError ℕ :=
  if bits = 0 then .ok 0
  else if bits = 256 then .ok value
  else if bits ≤ 255 then .ok (value &&& (2 ^ bits - 1))
  else .error .bounds

/-- `(!value).wrapping_add(1)`. -/
def negated (value : ℕ) : ℕ := (2 ^ 256 - 1 - value + 1) % 2 ^ 256

def toTwos (value : SignedUnits) (bits : ℕ) : Except EncodingError ℕ :=
  if ¬(1 ≤ bits ∧ bits ≤ 256) then .error .bounds
  else if 2 ^ 256 ≤ value.magnitude then .error .bounds
  else
    let limit := 2 ^ (bits - 1)
    if limit < value.magnitude ∨ (value.negative = false ∧ value.magnitude = limit) then
      .error .bounds
    else if value.negative then mask (negated value.magnitude) bits
    else .ok value.magnitude

def fromTwos (value bits : ℕ) : Except EncodingError SignedUnits :=
  if ¬(1 ≤ bits ∧ bits ≤ 256) then .error .bounds
  else do
    let masked ← mask value bits
    if masked ≠ value then .error .bounds
    else do
      let negative := value.testBit (bits - 1)
      let magnitude ← if negative then mask (negated value) bits else .ok value
      (SignedUnits.new negative magnitude).mapError fun _ => .bounds

def SignedUnits.tryU256 (u : SignedUnits) : Except AmountError ℕ :=
  if u.negative then .error .negative
  else if 2 ^ 256 ≤ u.magnitude then .error .overflow
  else .ok u.magnitude

namespace FixedPoint

def fromBytes (bytes : Bytes) (format : FixedFormat) : Except FixedError FixedPoint :=
  if 32 < bytes.length then .error .overflow
  else
    let bytes := strip bytes
    if format.width / 8 < bytes.length then .error .overflow
    else do
      let units ← if format.signed
        then (fromTwos (BigEndian.value bytes) format.width).mapError fun _ => .overflow
        else (SignedUnits.new false (BigEndian.value bytes)).mapError fun _ => .overflow
      parts units.negative units.magnitude format

/-- `none` is the panic of an `expect`. -/
def toBytes (a : FixedPoint) : Option Bytes := do
  let value ← if a.format.signed then (toTwos a.units a.format.width).toOption
    else a.units.tryU256.toOption
  some ((BigEndian.toBytes 32 value).drop (32 - a.format.width / 8))

end FixedPoint

variable {bits v : ℕ} {u : SignedUnits} {format : FixedFormat}

/-- The signed numbers of a width. -/
def TwosRange (bits : ℕ) (z : ℤ) : Prop := -2 ^ (bits - 1) ≤ z ∧ z < 2 ^ (bits - 1)

/-- The bit pattern of a number. -/
def pattern (bits : ℕ) (z : ℤ) : ℕ := (z % 2 ^ bits).toNat

theorem twosRange_signed {negative : Bool} : TwosRange bits (signed negative (v : ℤ)) ↔
    ¬(2 ^ (bits - 1) < v ∨ (negative = false ∧ v = 2 ^ (bits - 1))) := by
  have hpos := Nat.two_pow_pos (bits - 1)
  have hcast : ((2 ^ (bits - 1) : ℕ) : ℤ) = 2 ^ (bits - 1) := by push_cast; rfl
  rw [TwosRange, ← hcast]
  generalize 2 ^ (bits - 1) = limit at hpos ⊢
  cases negative <;> simp <;> omega

theorem pattern_signed (hbits : 1 ≤ bits) {negative : Bool}
    (h : TwosRange bits (signed negative (v : ℤ))) (hsign : negative = true → v ≠ 0) :
    pattern bits (signed negative (v : ℤ)) = if negative then 2 ^ bits - v else v := by
  have hpow := Nat.two_pow_pred_mul_two hbits
  have hcast : ((2 ^ bits : ℕ) : ℤ) = 2 ^ bits := by push_cast; rfl
  rw [twosRange_signed] at h
  rw [pattern, ← hcast]
  generalize 2 ^ (bits - 1) = limit at h hpow
  generalize 2 ^ bits = modulus at hpow ⊢
  cases negative with
  | false =>
    have hlt : v < modulus := by
      simp at h
      omega
    rw [signed_false, Int.emod_eq_of_lt (by omega) (by omega), Int.toNat_natCast]
    rfl
  | true =>
    have hne := hsign rfl
    rw [signed_true, ← Int.add_emod_right, Int.emod_eq_of_lt (by omega) (by omega), if_pos rfl]
    omega

theorem SignedUnits.exists_new (negative : Bool) {m : ℕ} (h : m ≤ 2 ^ 256) :
    ∃ u, new negative m = .ok u ∧ u.toInt = signed negative (m : ℤ) := by
  have hboundary : 2 ^ 256 < boundary := by decide +kernel
  have hnew : ∃ u, new negative m = .ok u := ⟨_, dif_neg (by omega)⟩
  obtain ⟨u, hu⟩ := hnew
  exact ⟨u, hu, new_eq_ok.mp hu⟩

variable (hbits : 1 ≤ bits ∧ bits ≤ 256)

include hbits

theorem mask_eq (hv : v < 2 ^ 256) : mask v bits = .ok (v % 2 ^ bits) := by
  unfold mask
  rw [if_neg (by omega)]
  split
  · rename_i h
    rw [h, Nat.mod_eq_of_lt hv]
  · rw [if_pos (by omega), Nat.and_two_pow_sub_one_eq_mod]

theorem mask_negated (hpos : 0 < v) (hv : v < 2 ^ bits) :
    mask (negated v) bits = .ok (2 ^ bits - v) := by
  have hle : 2 ^ bits ≤ 2 ^ 256 := Nat.pow_le_pow_right (by decide) hbits.2
  obtain ⟨k, hk⟩ : 2 ^ bits ∣ 2 ^ 256 := pow_dvd_pow 2 hbits.2
  have hneg : negated v = 2 ^ 256 - v := by
    rw [negated, Nat.mod_eq_of_lt (by omega)]
    omega
  obtain ⟨x, rfl⟩ := Nat.exists_eq_add_one_of_ne_zero hpos.ne'
  rw [mask_eq hbits (by rw [hneg]; omega), hneg, hk, Nat.mul_sub_mod (by omega),
    Nat.mod_eq_of_lt (by omega)]

theorem toTwos_eq (h : TwosRange bits u.toInt) : toTwos u bits = .ok (pattern bits u.toInt) := by
  have hrange := twosRange_signed.mp h
  have hpow := Nat.two_pow_pred_mul_two hbits.1
  have hlimit : 2 ^ (bits - 1) < 2 ^ 256 := Nat.pow_lt_pow_right (by decide) (by omega)
  simp only [toTwos]
  rw [if_neg (not_not.mpr hbits), if_neg (by omega), if_neg hrange, SignedUnits.toInt,
    pattern_signed hbits.1 h u.normal]
  split
  · rename_i hnegative
    have hpos := Nat.pos_of_ne_zero (u.normal hnegative)
    exact mask_negated hbits hpos (by omega)
  · rfl

theorem toTwos_fails (h : ¬TwosRange bits u.toInt) : toTwos u bits = .error .bounds := by
  simp only [toTwos]
  rw [if_neg (not_not.mpr hbits), if_pos (not_not.mp (mt twosRange_signed.mpr h)), ite_self]

theorem fromTwos_eq (hv : v < 2 ^ bits) :
    ∃ u, fromTwos v bits = .ok u ∧ TwosRange bits u.toInt ∧ pattern bits u.toInt = v := by
  have hle : 2 ^ bits ≤ 2 ^ 256 := Nat.pow_le_pow_right (by decide) hbits.2
  have hpow := Nat.two_pow_pred_mul_two hbits.1
  have hbit := testBit_pred_iff hbits.1 hv
  have hmask : mask v bits = .ok v := by rw [mask_eq hbits (by omega), Nat.mod_eq_of_lt hv]
  simp only [fromTwos, hmask, ok_bind]
  rw [if_neg (not_not.mpr hbits), if_neg (not_not.mpr rfl)]
  -- the sign bit says which of the two numbers with this residue it is
  generalize v.testBit (bits - 1) = negative at hbit ⊢
  have hle' : (if negative = true then 2 ^ bits - v else v) ≤ 2 ^ 256 := by split <;> omega
  obtain ⟨u, hu, hint⟩ := SignedUnits.exists_new negative hle'
  have hrange : TwosRange bits u.toInt := by
    rw [hint, twosRange_signed]
    cases negative <;> simp at hbit ⊢ <;> omega
  refine ⟨u, ?_, hrange, ?_⟩
  · cases negative with
    | false =>
      rw [if_neg Bool.false_ne_true] at hu ⊢
      rw [hu]
      rfl
    | true =>
      have hhigh := hbit.mp rfl
      rw [if_pos rfl] at hu ⊢
      rw [mask_negated hbits (by omega) hv, ok_bind, hu]
      rfl
  · rw [hint] at hrange ⊢
    rw [pattern_signed hbits.1 hrange (by intro h; rw [if_pos h]; omega)]
    split <;> omega

theorem fromTwos_fails (hv : 2 ^ bits ≤ v) (hlt : v < 2 ^ 256) :
    fromTwos v bits = .error .bounds := by
  simp only [fromTwos, mask_eq hbits hlt, ok_bind]
  rw [if_neg (not_not.mpr hbits), if_pos (by omega)]

omit hbits

theorem cast_pattern (bits : ℕ) (z : ℤ) : (pattern bits z : ℤ) = z % 2 ^ bits :=
  Int.toNat_of_nonneg (Int.emod_nonneg z (by positivity))

theorem modEq_of_pattern {z w : ℤ} (h : pattern bits z = pattern bits w) :
    z ≡ w [ZMOD 2 ^ bits] := by
  rw [Int.ModEq, ← cast_pattern, h, cast_pattern]

theorem TwosRange.eq {z w : ℤ} (hbits : 1 ≤ bits) (hz : TwosRange bits z) (hw : TwosRange bits w)
    (h : pattern bits z = pattern bits w) : z = w := by
  have hpow := Nat.two_pow_pred_mul_two hbits
  zify at hpow
  unfold TwosRange at hz hw
  refine (sub_eq_zero.mp (Int.eq_zero_of_abs_lt_dvd (modEq_of_pattern h).dvd ?_)).symm
  rw [abs_lt]
  omega

theorem pattern_lt (bits : ℕ) (z : ℤ) : pattern bits z < 2 ^ bits := by
  zify
  rw [cast_pattern]
  exact Int.emod_lt_of_pos z (by positivity)

theorem pattern_natCast (h : v < 2 ^ bits) : pattern bits v = v := by
  rw [pattern, Int.emod_eq_of_lt (by omega) (by exact_mod_cast h), Int.toNat_natCast]

theorem drop_toBytes (skip width n : ℕ) :
    (toBytes (skip + width) n).drop skip = toBytes width n := by
  induction skip with
  | zero => rw [Nat.zero_add, drop_zero]
  | succ skip ih => rw [Nat.succ_add, toBytes, drop_succ_cons, ih]

theorem FixedFormat.two_pow_bytes (format : FixedFormat) :
    256 ^ (format.width / 8) = 2 ^ format.width := by
  have haligned := format.aligned
  rw [show 256 = 2 ^ 8 from rfl, ← pow_mul, Nat.mul_div_cancel' (by omega)]

theorem FixedFormat.inRange_iff (hsigned : format.signed = true) {z : ℤ} :
    format.InRange z ↔ TwosRange format.width z := by
  rw [InRange, TwosRange, limit, hsigned, if_pos rfl]
  rfl

theorem FixedFormat.inRange_unsigned_iff (h : ¬format.signed = true) {z : ℤ} :
    format.InRange z ↔ 0 ≤ z ∧ z < 2 ^ format.width := by
  rw [InRange, limit, if_neg h, eq_false_of_ne_true h]
  rfl

namespace FixedPoint

theorem toBytes_eq (a : FixedPoint) : a.toBytes =
    some (BigEndian.toBytes (a.format.width / 8) (pattern a.format.width a.units.toInt)) := by
  have haligned := a.format.aligned
  have hdrop := drop_toBytes (32 - a.format.width / 8) (a.format.width / 8)
    (pattern a.format.width a.units.toInt)
  rw [Nat.sub_add_cancel (by omega)] at hdrop
  unfold toBytes
  split
  · rename_i hsigned
    have hrange := (FixedFormat.inRange_iff hsigned).mp a.inRange
    rw [toTwos_eq (by omega) hrange]
    exact congrArg some hdrop
  · rename_i hsigned
    obtain ⟨hnonneg, hlt⟩ := (FixedFormat.inRange_unsigned_iff hsigned).mp a.inRange
    have hle : 2 ^ a.format.width ≤ 2 ^ 256 := Nat.pow_le_pow_right (by decide) haligned.2.1
    have hnegative : a.units.negative = false := by
      by_contra hnegative
      rw [Bool.not_eq_false] at hnegative
      have hpos := a.units.normal hnegative
      rw [SignedUnits.toInt, hnegative, signed_true] at hnonneg
      omega
    have hint : a.units.toInt = (a.units.magnitude : ℤ) := by
      rw [SignedUnits.toInt, hnegative, signed_false]
    rw [hint] at hlt
    norm_cast at hlt
    rw [hint, pattern_natCast hlt] at hdrop ⊢
    rw [SignedUnits.tryU256, hnegative, if_neg Bool.false_ne_true, if_neg (by omega)]
    exact congrArg some hdrop

theorem fromBytes_eq {bytes : Bytes} (hlength : bytes.length ≤ 32)
    (hstrip : (strip bytes).length ≤ format.width / 8) :
    ∃ a, fromBytes bytes format = .ok a ∧ a.format = format ∧
      pattern format.width a.units.toInt = BigEndian.value bytes := by
  have haligned := format.aligned
  have hlt : BigEndian.value (strip bytes) < 2 ^ format.width := by
    rw [← format.two_pow_bytes]
    exact (value_lt _).trans_le (Nat.pow_le_pow_right (by decide) hstrip)
  simp only [fromBytes]
  rw [if_neg (by omega), if_neg (by omega), ← value_strip bytes]
  split
  · rename_i hsigned
    obtain ⟨u, hu, hrange, hpattern⟩ := fromTwos_eq (by omega) hlt
    rw [← FixedFormat.inRange_iff hsigned] at hrange
    obtain ⟨a, ha, hformat, hunits⟩ := parts_of_inRange hrange
    refine ⟨a, ?_, hformat, by rw [hunits]; exact hpattern⟩
    rw [hu]
    exact ha
  · rename_i hsigned
    have hle : 2 ^ format.width ≤ 2 ^ 256 := Nat.pow_le_pow_right (by decide) haligned.2.1
    obtain ⟨u, hu, hint⟩ := SignedUnits.exists_new false
      (show BigEndian.value (strip bytes) ≤ 2 ^ 256 by omega)
    have hrange : format.InRange u.toInt := by
      rw [hint, signed_false, FixedFormat.inRange_unsigned_iff hsigned]
      exact ⟨by omega, by exact_mod_cast hlt⟩
    obtain ⟨a, ha, hformat, hunits⟩ := parts_of_inRange hrange
    refine ⟨a, ?_, hformat, ?_⟩
    · rw [hu]
      exact ha
    · rw [hunits]
      change pattern _ u.toInt = _
      rw [hint, signed_false, pattern_natCast hlt]

theorem fromBytes_toBytes (a : FixedPoint) : ∃ bytes, a.toBytes = some bytes ∧
    bytes.length = a.format.width / 8 ∧ fromBytes bytes a.format = .ok a := by
  have haligned := a.format.aligned
  have hlength := length_toBytes (a.format.width / 8) (pattern a.format.width a.units.toInt)
  have hstrip := length_strip_le
    (BigEndian.toBytes (a.format.width / 8) (pattern a.format.width a.units.toInt))
  refine ⟨_, a.toBytes_eq, hlength, ?_⟩
  obtain ⟨b, hb, hformat, hpattern⟩ := @fromBytes_eq a.format _ (by omega) (hstrip.trans_eq hlength)
  rw [value_toBytes, a.format.two_pow_bytes, Nat.mod_eq_of_lt (pattern_lt _ _)] at hpattern
  have hunits := (hformat ▸ b.inRange).eq a.inRange (modEq_of_pattern hpattern)
  rw [hb]
  obtain ⟨units, format, hrange⟩ := b
  cases hformat
  cases SignedUnits.toInt_injective hunits
  rfl

theorem toBytes_fromBytes {bytes : Bytes} {a : FixedPoint}
    (h : fromBytes bytes format = .ok a) : a.toBytes =
      some (replicate (format.width / 8 - (strip bytes).length) 0 ++ strip bytes) := by
  have hchecks : bytes.length ≤ 32 ∧ (strip bytes).length ≤ format.width / 8 := by
    simp only [fromBytes, ite_error_eq_ok, not_lt] at h
    exact ⟨h.1, h.2.1⟩
  obtain ⟨b, hb, hformat, hpattern⟩ := fromBytes_eq hchecks.1 hchecks.2
  rw [h] at hb
  cases hb
  rw [a.toBytes_eq, hformat, hpattern, ← value_strip, toBytes_value_pad hchecks.2]

end FixedPoint

theorem twos_complement_inverse :
    (∀ bits, 1 ≤ bits → bits ≤ 256 →
      (∀ u : SignedUnits, TwosRange bits u.toInt →
        ∃ v < 2 ^ bits, toTwos u bits = .ok v ∧ fromTwos v bits = .ok u) ∧
      (∀ v < 2 ^ bits, ∃ u : SignedUnits, TwosRange bits u.toInt ∧
        fromTwos v bits = .ok u ∧ toTwos u bits = .ok v) ∧
      (∀ u : SignedUnits, ¬TwosRange bits u.toInt → toTwos u bits = .error .bounds) ∧
      ∀ v, 2 ^ bits ≤ v → v < 2 ^ 256 → fromTwos v bits = .error .bounds) ∧
    (∀ a : FixedPoint, ∃ bytes, a.toBytes = some bytes ∧
      bytes.length = a.format.width / 8 ∧ FixedPoint.fromBytes bytes a.format = .ok a) ∧
    ∀ bytes format a, FixedPoint.fromBytes bytes format = .ok a → a.toBytes =
      some (replicate (format.width / 8 - (strip bytes).length) 0 ++ strip bytes) := by
  refine ⟨fun bits hpos hle => ⟨?_, ?_, fun u => toTwos_fails ⟨hpos, hle⟩,
    fun v => fromTwos_fails ⟨hpos, hle⟩⟩, FixedPoint.fromBytes_toBytes,
    fun _ _ _ => FixedPoint.toBytes_fromBytes⟩
  · intro u hu
    obtain ⟨u', hfrom, hrange, hpattern⟩ := fromTwos_eq ⟨hpos, hle⟩ (pattern_lt bits u.toInt)
    cases SignedUnits.toInt_injective (hrange.eq hpos hu hpattern)
    exact ⟨_, pattern_lt _ _, toTwos_eq ⟨hpos, hle⟩ hu, hfrom⟩
  · intro v hv
    obtain ⟨u, hfrom, hrange, hpattern⟩ := fromTwos_eq ⟨hpos, hle⟩ hv
    exact ⟨u, hrange, hfrom, by rw [toTwos_eq ⟨hpos, hle⟩ hrange, hpattern]⟩

end QuaiSdk
