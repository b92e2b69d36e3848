import QuaiSdk.Lib.Result
import QuaiSdk.Text
import Mathlib.Data.List.DropRight
import Mathlib.Tactic.FieldSimp

/-!
# Decimal amounts

Integer units behind a decimal scale, and their texts: what is parsed is exactly the number that the
text writes, and a formatted amount is parsed back.
-/

namespace QuaiSdk

open Result List

inductive AmountError where
  | invalidSyntax
  | precisionLoss
  | overflow
  | negative
  | inputTooLong
  deriving DecidableEq

/-- `Unit`: a validated decimal scale. -/
structure DecimalUnit where
  decimals : ℕ
  le : decimals ≤ 80
  deriving DecidableEq

/-- A magnitude with its sign. -/
def signed {α : Type} [Neg α] (negative : Bool) (value : α) : α :=
  if negative then -value else value

@[simp] theorem signed_true {α : Type} [Neg α] (value : α) : signed true value = -value := rfl

@[simp] theorem signed_false {α : Type} [Neg α] (value : α) : signed false value = value := rfl

/-- The boundary of the signed 512-bit range. -/
def boundary : ℕ := 2 ^ 511

theorem boundary_pos : 0 < boundary := by
  unfold boundary
  positivity

/-- Zero has no sign. -/
structure SignedUnits where
  negative : Bool
  magnitude : ℕ
  bounded : magnitude ≤ boundary ∧ (negative = false → magnitude ≠ boundary)
  normal : negative = true → magnitude ≠ 0
  deriving DecidableEq

namespace SignedUnits

def new (negative : Bool) (magnitude : ℕ) : Except AmountError SignedUnits :=
  if h : boundary < magnitude ∨ (negative = false ∧ magnitude = boundary) then .error .overflow
  else .ok {
    negative := negative && magnitude ≠ 0
    magnitude
    bounded := by
      have hpos := boundary_pos
      cases negative <;> simp at h ⊢ <;> omega
    normal := by simp }

def toInt (u : SignedUnits) : ℤ := signed u.negative u.magnitude

theorem natAbs_toInt (u : SignedUnits) : u.toInt.natAbs = u.magnitude := by
  unfold toInt signed
  split <;> omega

theorem new_eq_ok {negative : Bool} {magnitude : ℕ} {u : SignedUnits} :
    new negative magnitude = .ok u ↔ u.toInt = signed negative (magnitude : ℤ) := by
  obtain ⟨sign, n, hbounded, hnormal⟩ := u
  unfold new toInt signed
  split
  · simp only [reduceCtorEq, false_iff]
    cases negative <;> cases sign <;> simp at * <;> omega
  · simp only [Except.ok.injEq, mk.injEq]
    cases negative <;> cases sign <;> simp at * <;> omega

end SignedUnits

def isAsciiDigit (b : UInt8) : Prop := 0x30 ≤ b ∧ b ≤ 0x39

instance (b : UInt8) : Decidable (isAsciiDigit b) := inferInstanceAs (Decidable (_ ∧ _))

/-- One digit of the 512-bit magnitude. -/
def pushDigit (magnitude : ℕ) (digit : UInt8) : Except AmountError ℕ :=
  if 2 * boundary ≤ magnitude * 10 + (digit - 0x30).toNat then .error .overflow
  else .ok (magnitude * 10 + (digit - 0x30).toNat)

/-- Digits down to the unit. -/
def scaledDigits (whole fractional : Bytes) (scale : ℕ) : Bytes :=
  whole ++ (fractional.take scale ++ replicate (scale - fractional.length) 0x30)

/-- `parse_signed_units` behind the sign; the text is split at its first point. -/
def parseUnsigned (negative : Bool) (unsigned : Bytes) (scale : ℕ) :
    Except AmountError SignedUnits :=
  let whole := unsigned.takeWhile (· ≠ 0x2e)
  let fractional := (unsigned.dropWhile (· ≠ 0x2e)).tail
  if whole = [] ∧ fractional = [] then .error .invalidSyntax
  else if ∃ b ∈ whole ++ fractional, ¬isAsciiDigit b then .error .invalidSyntax
  else if ∃ b ∈ fractional.drop scale, b ≠ 0x30 then .error .precisionLoss
  else do
    let magnitude ← (scaledDigits whole fractional scale).foldlM pushDigit 0
    SignedUnits.new negative magnitude

def parseSignedUnits (value : Bytes) (unit : DecimalUnit) : Except AmountError SignedUnits :=
  if 512 < value.length then .error .inputTooLong
  else if value.head? = some 0x2d then parseUnsigned true value.tail unit.decimals
  else parseUnsigned false value unit.decimals

def signText (negative : Bool) : Bytes := if negative then [0x2d] else []

/-- All digits, with a point before the last ones. -/
def pointed (digits : Bytes) (scale : ℕ) : Bytes :=
  if digits.length ≤ scale
  then 0x30 :: 0x2e :: (replicate (scale - digits.length) 0x30 ++ digits)
  else digits.take (digits.length - scale) ++ 0x2e :: digits.drop (digits.length - scale)

/-- Zeros at the end are popped, but not the only decimal. -/
def popZeros (text : Bytes) : Bytes :=
  let text := text.rdropWhile (· = 0x30)
  if text.getLast? = some 0x2e then text ++ [0x30] else text

def SignedUnits.format (u : SignedUnits) (unit : DecimalUnit) : Bytes :=
  let digits := decimal u.magnitude
  if unit.decimals = 0 then signText u.negative ++ digits
  else popZeros (signText u.negative ++ pointed digits unit.decimals)

variable {text unsigned whole fractional digits : Bytes} {negative : Bool} {scale m : ℕ}
  {u : SignedUnits} {unit : DecimalUnit}

theorem hexDigit_digit {c : UInt8} (h : isAsciiDigit c) : hexDigit c = some (c - 0x30) := if_pos h

theorem radixValue_append (a b : Bytes) :
    radixValue 10 (a ++ b) = radixValue 10 a * 10 ^ b.length + radixValue 10 b := by
  induction b using reverseRecOn with
  | nil => simp [radixValue]
  | append_singleton b c ih =>
    simp only [← append_assoc, radixValue, foldl_append, foldl_cons, foldl_nil] at ih ⊢
    rw [ih, length_append, length_singleton, pow_succ]
    ring

theorem radixValue_zeros (n : ℕ) : radixValue 10 (replicate n 0x30) = 0 := by
  induction n with
  | zero => rfl
  | succ n ih =>
    rw [replicate_succ', radixValue_append, ih]
    rfl

/-- Digits spell a number below their power of ten, and zero only if they are zeros. -/
theorem radixValue_lt (h : ∀ c ∈ digits, isAsciiDigit c) :
    radixValue 10 digits < 10 ^ digits.length ∧
      (radixValue 10 digits = 0 ↔ ∀ c ∈ digits, c = 0x30) := by
  have hzeros : (∀ c ∈ digits, c = 0x30) → radixValue 10 digits = 0 := by
    intro hall
    rw [eq_replicate_of_mem hall, radixValue_zeros]
  induction digits using reverseRecOn with
  | nil => exact ⟨Nat.one_pos, by simp, hzeros⟩
  | append_singleton digits c ih =>
    have hc : isAsciiDigit c := h c (by simp)
    have hall : ∀ c ∈ digits, isAsciiDigit c := fun c hc => h c (mem_append_left _ hc)
    obtain ⟨hlt, hzero⟩ := ih hall fun h => by rw [eq_replicate_of_mem h, radixValue_zeros]
    have hvalue : radixValue 10 [c] = (c - 0x30).toNat := by
      simp [radixValue, hexDigit_digit hc]
    have hdigit : (c - 0x30).toNat < 10 ∧ ((c - 0x30).toNat = 0 → c = 0x30) :=
      forall_byte (P := fun c => isAsciiDigit c →
        (c - 0x30).toNat < 10 ∧ ((c - 0x30).toNat = 0 → c = 0x30)) (by decide +kernel) c hc
    refine ⟨?_, fun hsum => ?_, hzeros⟩
    · rw [radixValue_append, hvalue, length_append, length_singleton, pow_one, pow_succ]
      omega
    · rw [radixValue_append, hvalue, length_singleton, pow_one] at hsum
      intro b hb
      rcases mem_append.mp hb with hb | hb
      · exact hzero.mp (by omega) b hb
      · rw [mem_singleton.mp hb]
        exact hdigit.2 (by omega)

theorem foldlM_pushDigit (h : ∀ c ∈ digits, isAsciiDigit c) {r : ℕ} :
    digits.foldlM pushDigit 0 = .ok r ↔
      radixValue 10 digits = r ∧ (digits ≠ [] → r < 2 * boundary) := by
  induction digits using reverseRecOn generalizing r with
  | nil => simp [radixValue, pure, Except.pure]
  | append_singleton digits c ih =>
    have hvalue : radixValue 10 (digits ++ [c]) = radixValue 10 digits * 10 + (c - 0x30).toNat := by
      simp [radixValue, hexDigit_digit (h c (by simp))]
    simp only [foldlM_append, foldlM_cons, foldlM_nil, eq_ok, pushDigit, not_le, hvalue,
      ih fun c hc => h c (mem_append_left _ hc)]
    constructor
    · rintro ⟨m, ⟨rfl, -⟩, _, ⟨hlt, hm⟩, hr⟩
      cases hm
      cases hr
      exact ⟨rfl, fun _ => hlt⟩
    · rintro ⟨rfl, hlt⟩
      have hlt := hlt (by simp)
      exact ⟨_, ⟨rfl, fun _ => by omega⟩, _, ⟨hlt, rfl⟩, rfl⟩

/-- The excess digits are zeros and the others spell a number exactly if that is the written one, in
the unit. -/
theorem scaledDigits_iff (h : ∀ c ∈ whole ++ fractional, isAsciiDigit c) :
    (∀ c ∈ fractional.drop scale, c = 0x30) ∧
        radixValue 10 (scaledDigits whole fractional scale) = m ↔
      m * 10 ^ fractional.length = radixValue 10 (whole ++ fractional) * 10 ^ scale := by
  unfold scaledDigits
  rcases Nat.le_total fractional.length scale with hle | hle
  · rw [drop_eq_nil_of_le hle, take_of_length_le hle, ← append_assoc,
      radixValue_append _ (replicate _ _), radixValue_zeros, length_replicate]
    conv_rhs => rw [← Nat.sub_add_cancel hle, pow_add, ← Nat.mul_assoc]
    simp [eq_comm]
  · have hsplit : whole ++ fractional =
        (whole ++ fractional.take scale) ++ fractional.drop scale := by
      rw [append_assoc, take_append_drop]
    obtain ⟨hlt, hzeros⟩ := @radixValue_lt (fractional.drop scale) fun c hc =>
      h c (mem_append_right _ (mem_of_mem_drop hc))
    rw [length_drop] at hlt
    rw [← hzeros, Nat.sub_eq_zero_of_le hle, replicate_zero, append_nil, hsplit,
      radixValue_append (whole ++ _), length_drop]
    generalize radixValue 10 (fractional.drop scale) = r at hlt ⊢
    generalize radixValue 10 (whole ++ fractional.take scale) = n
    conv_rhs => lhs; rw [← Nat.sub_add_cancel hle, pow_add, ← Nat.mul_assoc]
    rw [Nat.mul_right_cancel_iff (Nat.pow_pos (by decide))]
    constructor
    · rintro ⟨rfl, rfl⟩
      rfl
    · intro heq
      have hmod := congrArg (· % 10 ^ (fractional.length - scale)) heq
      simp only [Nat.mul_mod_left, Nat.mul_add_mod_self_right, Nat.mod_eq_of_lt hlt] at hmod
      rw [← hmod, Nat.add_zero] at heq
      exact ⟨hmod.symm, (Nat.mul_right_cancel (Nat.pow_pos (by decide)) heq).symm⟩

/-- Digits, and digits behind a point. -/
structure Spells (unsigned whole fractional : Bytes) : Prop where
  text : unsigned = whole ++ 0x2e :: fractional ∨ unsigned = whole ∧ fractional = []
  written : whole = [] → fractional ≠ []
  digits : ∀ c ∈ whole ++ fractional, isAsciiDigit c

/-- The text writes a decimal number. -/
def Writes (text : Bytes) (number : ℚ) : Prop :=
  ∃ negative unsigned whole fractional, text = signText negative ++ unsigned ∧
    Spells unsigned whole fractional ∧
    number = signed negative (radixValue 10 (whole ++ fractional) / 10 ^ fractional.length : ℚ)

theorem isAsciiDigit.ne {c : UInt8} (h : isAsciiDigit c) : c ≠ 0x2e ∧ c ≠ 0x2d := by
  constructor <;> rintro rfl <;> exact absurd h (by decide)

theorem spells_iff : Spells unsigned whole fractional ↔
    (unsigned.takeWhile (· ≠ 0x2e) = whole ∧ (unsigned.dropWhile (· ≠ 0x2e)).tail = fractional) ∧
      (whole = [] → fractional ≠ []) ∧ ∀ c ∈ whole ++ fractional, isAsciiDigit c := by
  constructor
  · intro h
    have hwhole : ∀ c ∈ whole, decide (c ≠ 0x2e) = true :=
      fun c hc => decide_eq_true (h.digits c (mem_append_left _ hc)).ne.1
    refine ⟨?_, h.written, h.digits⟩
    rcases h.text with rfl | ⟨rfl, rfl⟩
    · rw [takeWhile_append_of_pos hwhole, dropWhile_append_of_pos hwhole]
      exact ⟨append_nil _, rfl⟩
    · rw [takeWhile_eq_self_iff.mpr hwhole, dropWhile_eq_nil_iff.mpr hwhole]
      exact ⟨rfl, rfl⟩
  · rintro ⟨⟨rfl, rfl⟩, hwritten, hdigits⟩
    refine ⟨?_, hwritten, hdigits⟩
    have happend := @takeWhile_append_dropWhile _ (fun c : UInt8 => decide (c ≠ 0x2e)) unsigned
    have hpoint := head?_dropWhile_not (fun c : UInt8 => decide (c ≠ 0x2e)) unsigned
    cases hrest : unsigned.dropWhile (· ≠ 0x2e) with
    | nil =>
      rw [hrest, append_nil] at happend
      exact .inr ⟨happend.symm, rfl⟩
    | cons c =>
      rw [hrest] at happend hpoint
      rw [show c = 0x2e by simpa using hpoint] at happend
      exact .inl happend.symm

theorem signed_mul {z : ℤ} {p n : ℕ} (hp : 0 < p) :
    (∃ m : ℕ, m * p = n ∧ z = signed negative (m : ℤ)) ↔ z * p = signed negative (n : ℤ) := by
  unfold signed
  have hp : (0 : ℤ) < p := Int.natCast_pos.mpr hp
  constructor
  · rintro ⟨m, rfl, rfl⟩
    cases negative <;> push_cast <;> simp
  · intro h
    refine ⟨z.natAbs, ?_, ?_⟩
    · have habs := congrArg Int.natAbs h
      rw [Int.natAbs_mul, Int.natAbs_natCast] at habs
      cases negative <;> simpa using habs
    · cases negative with
      | false =>
        have hz : 0 ≤ z := nonneg_of_mul_nonneg_left (h ▸ Int.natCast_nonneg n) hp
        simp only [Bool.false_eq_true, if_false]
        omega
      | true =>
        have hneg : -z * p = n := by simpa using congrArg Neg.neg h
        have hz : 0 ≤ -z := nonneg_of_mul_nonneg_left (hneg ▸ Int.natCast_nonneg n) hp
        simp only [if_true]
        omega

theorem parseUnsigned_eq_ok : parseUnsigned negative unsigned scale = .ok u ↔
    ∃ whole fractional, Spells unsigned whole fractional ∧ (u.toInt : ℚ) = signed negative
        (radixValue 10 (whole ++ fractional) / 10 ^ fractional.length : ℚ) * 10 ^ scale := by
  simp only [parseUnsigned, eq_ok, not_exists, not_and, not_not, spells_iff,
    and_assoc, exists_and_left, exists_eq_left']
  apply and_congr_right
  intro _
  apply and_congr_right
  intro hdigits
  generalize unsigned.takeWhile _ = whole at *
  generalize (unsigned.dropWhile _).tail = fractional at *
  have hscaled : ∀ c ∈ scaledDigits whole fractional scale, isAsciiDigit c := by
    intro c hc
    simp only [scaledDigits, mem_append] at hc
    rcases hc with hc | hc | hc
    · exact hdigits c (mem_append_left _ hc)
    · exact hdigits c (mem_append_right _ (mem_of_mem_take hc))
    · rw [eq_of_mem_replicate hc]
      decide
  have hrat : (u.toInt : ℚ) = signed negative
        (radixValue 10 (whole ++ fractional) / 10 ^ fractional.length : ℚ) * 10 ^ scale ↔
      u.toInt * (10 ^ fractional.length : ℕ) =
        signed negative ((radixValue 10 (whole ++ fractional) * 10 ^ scale : ℕ) : ℤ) := by
    rw [← @Int.cast_inj ℚ]
    cases negative <;> simp [signed] <;> field_simp
  rw [hrat, ← signed_mul (Nat.pow_pos (by decide))]
  simp only [foldlM_pushDigit hscaled, SignedUnits.new_eq_ok, ← scaledDigits_iff hdigits]
  constructor
  · rintro ⟨hzeros, m, ⟨hm, -⟩, hu⟩
    exact ⟨m, ⟨hzeros, hm⟩, hu⟩
  · rintro ⟨m, ⟨hzeros, hm⟩, hu⟩
    refine ⟨hzeros, m, ⟨hm, fun _ => ?_⟩, hu⟩
    have habs := u.natAbs_toInt
    have hbounded := u.bounded.1
    have hpos := boundary_pos
    rw [hu, signed] at habs
    split at habs <;> omega

/-- A text is accepted for the units that its number comes to, and no others. -/
theorem parseSignedUnits_eq_ok : parseSignedUnits text unit = .ok u ↔ text.length ≤ 512 ∧
    ∃ number, Writes text number ∧ (u.toInt : ℚ) = number * 10 ^ unit.decimals := by
  rw [parseSignedUnits, ite_error_eq_ok, not_lt]
  apply and_congr_right
  intro _
  constructor
  · intro h
    split at h
    · rename_i hhead
      obtain ⟨whole, fractional, hspells, hu⟩ := parseUnsigned_eq_ok.mp h
      exact ⟨_, ⟨true, _, _, _, (cons_head?_tail hhead).symm, hspells, rfl⟩, hu⟩
    · obtain ⟨whole, fractional, hspells, hu⟩ := parseUnsigned_eq_ok.mp h
      exact ⟨_, ⟨false, _, _, _, rfl, hspells, rfl⟩, hu⟩
  · rintro ⟨_, ⟨negative, unsigned, whole, fractional, rfl, hspells, rfl⟩, hu⟩
    have h := parseUnsigned_eq_ok.mpr ⟨whole, fractional, hspells, hu⟩
    cases negative with
    | true => exact h
    | false =>
      refine (if_neg ?_).trans h
      -- a digit or the point comes first
      cases whole with
      | nil =>
        rcases hspells.text with rfl | ⟨rfl, hnil⟩
        · exact nofun
        · exact absurd hnil (hspells.written rfl)
      | cons c =>
        have hc := (hspells.digits c (by simp)).ne.2
        rcases hspells.text with rfl | ⟨rfl, -⟩ <;> exact fun hhead => hc (Option.some.inj hhead)

theorem radixValue_div_zeros (digits : Bytes) (k n : ℕ) :
    (radixValue 10 (digits ++ replicate n 0x30) : ℚ) / 10 ^ (k + n) =
      radixValue 10 digits / 10 ^ k := by
  rw [radixValue_append, radixValue_zeros, length_replicate, Nat.add_zero, pow_add]
  push_cast
  field_simp

theorem popZeros_eq (front : Bytes) (h : ∀ c ∈ fractional, isAsciiDigit c) :
    ∃ kept n k, k ≤ 1 ∧ fractional = kept ++ replicate n 0x30 ∧
      popZeros (front ++ 0x2e :: fractional) = front ++ 0x2e :: (kept ++ replicate k 0x30) := by
  simp only [popZeros]
  induction fractional using reverseRecOn with
  | nil =>
    refine ⟨[], 0, 1, le_rfl, rfl, ?_⟩
    simp
  | append_singleton fractional c ih =>
    rw [← cons_append, ← append_assoc]
    by_cases hc : c = 0x30
    · obtain ⟨kept, n, k, hk, rfl, hpop⟩ := ih fun c hc => h c (mem_append_left _ hc)
      refine ⟨kept, n + 1, k, hk, ?_, ?_⟩
      · rw [hc, append_assoc, ← replicate_succ']
      · rwa [rdropWhile_concat_pos _ _ _ (by simpa using hc)]
    · refine ⟨fractional ++ [c], 0, 0, by decide, (append_nil _).symm, ?_⟩
      have hpoint := (h c (by simp)).ne.1
      rw [rdropWhile_concat_neg _ _ _ (by simpa using hc), getLast?_concat,
        if_neg (by simpa using hpoint)]
      simp

theorem exists_pointed (hdigits : ∀ c ∈ digits, isAsciiDigit c) (scale : ℕ) :
    ∃ whole fractional, pointed digits scale = whole ++ 0x2e :: fractional ∧ whole ≠ [] ∧
      fractional.length = scale ∧ whole.length ≤ digits.length + 1 ∧
      (∀ c ∈ whole ++ fractional, isAsciiDigit c) ∧
      radixValue 10 (whole ++ fractional) = radixValue 10 digits := by
  unfold pointed
  split
  · refine ⟨[0x30], replicate (scale - digits.length) 0x30 ++ digits, rfl, by simp, ?_,
      by simp, ?_, ?_⟩
    · rw [length_append, length_replicate]
      omega
    · intro c hc
      simp only [mem_append, mem_singleton, mem_replicate] at hc
      rcases hc with rfl | ⟨-, rfl⟩ | hc
      · decide
      · decide
      · exact hdigits c hc
    · rw [← append_assoc, radixValue_append, radixValue_append, radixValue_zeros]
      simp [radixValue, hexDigit]
  · refine ⟨digits.take (digits.length - scale), digits.drop (digits.length - scale), rfl, ?_, ?_,
      ?_, by rwa [take_append_drop], by rw [take_append_drop]⟩
    · rw [← length_pos_iff, length_take]
      omega
    · rw [length_drop]
      omega
    · rw [length_take]
      omega

theorem writes_format (u : SignedUnits) (unit : DecimalUnit) :
    (u.format unit).length ≤ 512 ∧ ∃ number, Writes (u.format unit) number ∧
      (u.toInt : ℚ) = number * 10 ^ unit.decimals := by
  have hlength : (decimal u.magnitude).length ≤ 154 :=
    length_decimal_le (u.bounded.1.trans_lt (by decide +kernel)) (by decide)
  have hdigits : ∀ c ∈ decimal u.magnitude, isAsciiDigit c := fun c hc => mem_decimal hc
  have hsign : (signText u.negative).length ≤ 1 := by
    unfold signText
    split <;> decide
  have hscale := unit.le
  have hwrites : ∀ unsigned whole fractional, Spells unsigned whole fractional →
      (radixValue 10 (whole ++ fractional) : ℚ) / 10 ^ fractional.length =
        u.magnitude / 10 ^ unit.decimals →
      ∃ number, Writes (signText u.negative ++ unsigned) number ∧
        (u.toInt : ℚ) = number * 10 ^ unit.decimals := by
    intro unsigned whole fractional hspells hnumber
    refine ⟨_, ⟨_, _, _, _, rfl, hspells, rfl⟩, ?_⟩
    rw [hnumber, SignedUnits.toInt]
    cases u.negative <;> simp [signed]
  unfold SignedUnits.format
  dsimp only
  split
  · rename_i hzero
    refine ⟨by rw [length_append]; omega, hwrites _ (decimal u.magnitude) []
      ⟨.inr ⟨rfl, rfl⟩, fun h => absurd h (decimal_ne_nil _), ?_⟩ ?_⟩
    · rwa [append_nil]
    · rw [append_nil, radixValue_decimal, hzero]
      rfl
  · obtain ⟨whole, fractional, htext, hwhole, hfractional, hshort, hall, hvalue⟩ :=
      exists_pointed hdigits unit.decimals
    obtain ⟨kept, n, k, hk, rfl, hpop⟩ := popZeros_eq (signText u.negative ++ whole)
      fun c hc => hall c (mem_append_right _ hc)
    rw [length_append, length_replicate] at hfractional
    rw [htext, ← append_assoc, hpop, append_assoc]
    refine ⟨?_, hwrites _ whole (kept ++ replicate k 0x30)
      ⟨.inl rfl, fun h => absurd h hwhole, ?_⟩ ?_⟩
    · simp only [length_append, length_cons, length_replicate]
      omega
    · intro c hc
      simp only [mem_append, mem_replicate] at hc hall
      rcases hc with hc | hc | ⟨-, rfl⟩
      · exact hall c (.inl hc)
      · exact hall c (.inr (.inl hc))
      · decide
    · rw [← radixValue_decimal u.magnitude, ← hvalue, ← hfractional, length_append,
        length_replicate, ← append_assoc, radixValue_div_zeros, ← append_assoc,
        radixValue_div_zeros]

/-- Amounts are parsed exactly, and what is formatted is parsed back. -/
theorem amount_text_exact (unit : DecimalUnit) :
    (∀ text u, parseSignedUnits text unit = .ok u ↔ text.length ≤ 512 ∧
      ∃ number, Writes text number ∧ (u.toInt : ℚ) = number * 10 ^ unit.decimals) ∧
    (∀ u : SignedUnits, parseSignedUnits (u.format unit) unit = .ok u) ∧
    ∀ u v : SignedUnits, u.format unit = v.format unit → u = v := by
  have hround : ∀ u : SignedUnits, parseSignedUnits (u.format unit) unit = .ok u :=
    fun u => parseSignedUnits_eq_ok.mpr (writes_format u unit)
  refine ⟨fun _ _ => parseSignedUnits_eq_ok, hround, ?_⟩
  intro u v hsame
  have hu := hround u
  rw [hsame, hround v] at hu
  exact (Except.ok.inj hu).symm

end QuaiSdk
