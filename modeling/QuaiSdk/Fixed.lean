import QuaiSdk.Amount
import Mathlib.Data.Nat.Bitwise
import Mathlib.Data.Rat.Floor

/-!
# Fixed-point arithmetic

Decimal numbers in an integer field. Checked operations return the exact rational result, rounded
and stored, or the error for it; wrapping ones return the exact result modulo the width. Magnitudes
are computed in 1024 bits, which no intermediate result exceeds.
-/

namespace QuaiSdk

open Result

inductive FixedError where
  | format
  | formatMismatch
  | overflow
  | precisionLoss
  | divisionByZero
  deriving DecidableEq

inductive Rounding where
  | exact
  | towardZero
  | floor
  | ceiling
  | nearestTiesEven
  | nearestTiesPositive
  deriving DecidableEq

structure FixedFormat where
  signed : Bool
  width : ℕ
  unit : DecimalUnit
  aligned : 8 ≤ width ∧ width ≤ 256 ∧ width % 8 = 0
  deriving DecidableEq

/-- `limit` in `parts`. -/
def FixedFormat.limit (format : FixedFormat) : ℕ := 2 ^ (format.width - format.signed.toNat)

def FixedFormat.InRange (format : FixedFormat) (units : ℤ) : Prop :=
  (if format.signed then -(format.limit : ℤ) else 0) ≤ units ∧ units < format.limit

instance (format : FixedFormat) (units : ℤ) : Decidable (format.InRange units) :=
  inferInstanceAs (Decidable (_ ∧ _))

structure FixedPoint where
  units : SignedUnits
  format : FixedFormat
  inRange : format.InRange units.toInt

/-- The number that a fixed-point value stands for. -/
def FixedPoint.value (a : FixedPoint) : ℚ := a.units.toInt / 10 ^ a.format.unit.decimals

def wideModulus : ℕ := 2 ^ 1024

/-- A checked result in `Wide`. -/
def wide (n : ℕ) : Except FixedError ℕ := if wideModulus ≤ n then .error .overflow else .ok n

def tens (decimals : ℕ) : ℕ := decimals.repeat (fun v => v * 10 % wideModulus) 1

/-- `increment` in `rounded`. -/
def Rounding.increment (r : Rounding) (negative : Bool) (quotient remainder denominator : ℕ) :
    Except FixedError Bool :=
  match r with
  | .exact => .error .precisionLoss
  | .towardZero => .ok false
  | .floor => .ok negative
  | .ceiling => .ok !negative
  | .nearestTiesEven | .nearestTiesPositive =>
    match compare remainder (denominator - remainder) with
    | .gt => .ok true
    | .lt => .ok false
    | .eq => .ok (if r = .nearestTiesEven then quotient.testBit 0 else !negative)

def rounded (value denominator : ℕ) (negative : Bool) (r : Rounding) : Except FixedError ℕ :=
  if denominator = 0 then .error .divisionByZero
  else if value % denominator = 0 then .ok (value / denominator)
  else do
    let increment ← r.increment negative (value / denominator) (value % denominator) denominator
    wide (value / denominator + increment.toNat)

theorem inRange_signed (format : FixedFormat) (negative : Bool) (m : ℕ) :
    format.InRange (signed negative (m : ℤ)) ↔
      ¬((¬format.signed ∧ negative ∧ m ≠ 0) ∨ format.limit < m ∨
        (m = format.limit ∧ ¬(format.signed ∧ negative))) := by
  have hpos : 0 < format.limit := Nat.pow_pos (by decide)
  unfold FixedFormat.InRange signed
  cases hsigned : format.signed <;> cases negative <;> simp <;> omega

namespace FixedPoint

def parts (negative : Bool) (magnitude : ℕ) (format : FixedFormat) : Except FixedError FixedPoint :=
  if h : (¬format.signed ∧ negative ∧ magnitude ≠ 0) ∨ format.limit < magnitude ∨
      (magnitude = format.limit ∧ ¬(format.signed ∧ negative)) then .error .overflow
  else if 2 * boundary ≤ magnitude then .error .overflow
  else match hunits : SignedUnits.new negative magnitude with
    | .error _ => .error .overflow
    | .ok units => .ok ⟨units, format,
        SignedUnits.new_eq_ok.mp hunits ▸ (inRange_signed format negative magnitude).mpr h⟩

def same (a b : FixedPoint) : Except FixedError Unit :=
  if a.format ≠ b.format then .error .formatMismatch else .ok ()

def sumParts (a : FixedPoint) (negative : Bool) (magnitude : ℕ) : Except FixedError (Bool × ℕ) :=
  let own := a.units.magnitude
  if a.units.negative = negative then do
    let sum ← wide (own + magnitude)
    .ok (negative, sum)
  else if magnitude ≤ own then .ok (a.units.negative, own - magnitude)
  else .ok (negative, magnitude - own)

def addParts (a : FixedPoint) (negative : Bool) (magnitude : ℕ) : Except FixedError FixedPoint := do
  let (sign, result) ← a.sumParts negative magnitude
  parts sign result a.format

def checkedAdd (a b : FixedPoint) : Except FixedError FixedPoint := do
  a.same b
  a.addParts b.units.negative b.units.magnitude

def checkedSub (a b : FixedPoint) : Except FixedError FixedPoint := do
  a.same b
  a.addParts (!b.units.negative) b.units.magnitude

def checkedMul (a b : FixedPoint) (r : Rounding) : Except FixedError FixedPoint := do
  a.same b
  let negative := a.units.negative != b.units.negative
  let product ← wide (a.units.magnitude * b.units.magnitude)
  let magnitude ← rounded product (tens a.format.unit.decimals) negative r
  parts negative magnitude a.format

def checkedDiv (a b : FixedPoint) (r : Rounding) : Except FixedError FixedPoint := do
  a.same b
  let negative := a.units.negative != b.units.negative
  let numerator ← wide (a.units.magnitude * tens a.format.unit.decimals)
  let magnitude ← rounded numerator b.units.magnitude negative r
  parts negative magnitude a.format

def withFormat (a : FixedPoint) (format : FixedFormat) (r : Rounding) :
    Except FixedError FixedPoint := do
  let numerator ← wide (a.units.magnitude * tens format.unit.decimals)
  let magnitude ← rounded numerator (tens a.format.unit.decimals) a.units.negative r
  parts a.units.negative magnitude format

def round (a : FixedPoint) (decimals : ℕ) (r : Rounding) : Except FixedError FixedPoint :=
  if 80 < decimals then .error .format
  else if a.format.unit.decimals ≤ decimals then .ok a
  else do
    let factor := tens (a.format.unit.decimals - decimals)
    let quotient ← rounded a.units.magnitude factor a.units.negative r
    let magnitude ← wide (quotient * factor)
    parts a.units.negative magnitude a.format

def compare (a b : FixedPoint) : Ordering :=
  if a.units.negative ≠ b.units.negative then if a.units.negative then .lt else .gt
  else
    let x := a.units.magnitude * tens b.format.unit.decimals % wideModulus
    let y := b.units.magnitude * tens a.format.unit.decimals % wideModulus
    if a.units.negative then Ord.compare y x else Ord.compare x y

def wrappingParts (negative : Bool) (magnitude : ℕ) (format : FixedFormat) :
    Except FixedError FixedPoint :=
  let modulus := 2 ^ format.width
  let residue := magnitude &&& (modulus - 1)
  let residue := if negative ∧ residue ≠ 0 then modulus - residue else residue
  if format.signed ∧ residue.testBit (format.width - 1) then parts true (modulus - residue) format
  else parts false residue format

def wrappingAdd (a b : FixedPoint) : Except FixedError FixedPoint := do
  a.same b
  let (negative, value) ← a.sumParts b.units.negative b.units.magnitude
  wrappingParts negative value a.format

def wrappingSub (a b : FixedPoint) : Except FixedError FixedPoint := do
  a.same b
  let (negative, value) ← a.sumParts (!b.units.negative) b.units.magnitude
  wrappingParts negative value a.format

def wrappingMul (a b : FixedPoint) : Except FixedError FixedPoint := do
  a.same b
  let product ← wide (a.units.magnitude * b.units.magnitude)
  wrappingParts (a.units.negative != b.units.negative) (product / tens a.format.unit.decimals)
    a.format

def wrappingDiv (a b : FixedPoint) : Except FixedError FixedPoint := do
  a.same b
  if b.units.magnitude = 0 then .error .divisionByZero
  else
    let numerator ← wide (a.units.magnitude * tens a.format.unit.decimals)
    wrappingParts (a.units.negative != b.units.negative) (numerator / b.units.magnitude) a.format

end FixedPoint

theorem tens_eq {decimals : ℕ} (h : decimals ≤ 80) : tens decimals = 10 ^ decimals := by
  induction decimals with
  | zero => rfl
  | succ decimals ih =>
    have hpow : 10 ^ (decimals + 1) < wideModulus :=
      (Nat.pow_le_pow_right (by decide) h).trans_lt (by decide +kernel)
    have hsucc : tens (decimals + 1) = tens decimals * 10 % wideModulus := rfl
    rw [hsucc, ih (by omega), ← pow_succ, Nat.mod_eq_of_lt hpow]

theorem FixedFormat.limit_le (format : FixedFormat) : format.limit ≤ 2 ^ 256 :=
  Nat.pow_le_pow_right (by decide) (by have := format.aligned; omega)

theorem FixedPoint.magnitude_le (a : FixedPoint) : a.units.magnitude ≤ 2 ^ 256 := by
  have hlimit := a.format.limit_le
  obtain ⟨hlow, hhigh⟩ := a.inRange
  rw [← a.units.natAbs_toInt]
  split at hlow <;> omega

variable {format : FixedFormat} {a b : FixedPoint} {r : Rounding} {negative : Bool}
  {m n d k rem : ℕ}

theorem FixedFormat.two_pow_width (format : FixedFormat) :
    2 ^ format.width = format.limit + if format.signed then format.limit else 0 := by
  have haligned := format.aligned
  unfold limit
  cases format.signed with
  | false => rfl
  | true =>
    rw [if_pos rfl, Bool.toNat_true, ← Nat.two_mul, ← pow_succ', Nat.sub_add_cancel (by omega)]

theorem FixedFormat.InRange.eq {x y : ℤ} (hx : format.InRange x) (hy : format.InRange y)
    (h : x ≡ y [ZMOD 2 ^ format.width]) : x = y := by
  have hwidth := format.two_pow_width
  zify at hwidth
  unfold InRange at hx hy
  refine (sub_eq_zero.mp (Int.eq_zero_of_abs_lt_dvd h.dvd ?_)).symm
  rw [abs_lt]
  split at hwidth <;> simp_all <;> omega

theorem testBit_pred_iff {bits : ℕ} (hbits : 1 ≤ bits) (h : n < 2 ^ bits) :
    n.testBit (bits - 1) = true ↔ 2 ^ (bits - 1) ≤ n := by
  rw [← Nat.sub_add_cancel hbits, pow_succ] at h
  rw [Nat.testBit_eq_decide_div_mod_eq, decide_eq_true_eq]
  constructor
  · intro hbit
    by_contra hsmall
    rw [Nat.div_eq_of_lt (by omega)] at hbit
    cases hbit
  · intro hle
    rw [Nat.div_eq_sub_div (by positivity) hle, Nat.div_eq_of_lt (by omega)]

theorem FixedFormat.testBit_iff (hsigned : format.signed = true) (h : n < 2 ^ format.width) :
    n.testBit (format.width - 1) = true ↔ format.limit ≤ n := by
  rw [limit, hsigned]
  exact testBit_pred_iff (by have := format.aligned; omega) h

theorem wide_of_lt {n : ℕ} (h : n < wideModulus) : wide n = .ok n := if_neg (by omega)

/-- Two magnitudes, and one in any unit, are multiplied without overflow. -/
theorem FixedPoint.mul_lt (a b : FixedPoint) (unit : DecimalUnit) :
    a.units.magnitude * b.units.magnitude < wideModulus ∧
      a.units.magnitude * 10 ^ unit.decimals < wideModulus ∧
      a.units.magnitude + b.units.magnitude < wideModulus := by
  have ha := a.magnitude_le
  have hb := b.magnitude_le
  have hpow : 10 ^ unit.decimals ≤ 10 ^ 80 := Nat.pow_le_pow_right (by decide) unit.le
  refine ⟨(Nat.mul_le_mul ha hb).trans_lt ?_, (Nat.mul_le_mul ha hpow).trans_lt ?_,
    (Nat.add_le_add ha hb).trans_lt ?_⟩ <;> decide +kernel

theorem cast_signed (negative : Bool) (q : ℕ) :
    ((signed negative (q : ℤ) : ℤ) : ℚ) = signed negative (q : ℚ) := by
  cases negative <;> simp

theorem signed_mul_signed {α : Type} [Ring α] (s t : Bool) (x y : α) :
    signed s x * signed t y = signed (s != t) (x * y) := by
  cases s <;> cases t <;> simp

theorem signed_div_signed (s t : Bool) (x y : ℚ) :
    signed s x / signed t y = signed (s != t) (x / y) := by
  cases s <;> cases t <;> simp [neg_div, div_neg]

theorem signed_mul_right (s : Bool) (x y : ℚ) : signed s (x * y) = signed s x * y := by
  cases s <;> simp

theorem tdiv_signed (s t : Bool) (x y : ℕ) :
    (signed s (x : ℤ)).tdiv (signed t (y : ℤ)) = signed (s != t) ((x / y : ℕ) : ℤ) := by
  cases s <;> cases t <;> simp [Int.neg_tdiv, Int.tdiv_neg]

theorem SignedUnits.cast_toInt (u : SignedUnits) :
    (u.toInt : ℚ) = signed u.negative (u.magnitude : ℚ) := by
  unfold SignedUnits.toInt
  cases u.negative <;> simp [signed]

theorem SignedUnits.toInt_injective {u v : SignedUnits} (h : u.toInt = v.toInt) : u = v :=
  Except.ok.inj (((@new_eq_ok u.negative _ u).mpr rfl).symm.trans (new_eq_ok.mpr h.symm))

/-- The number is stored in the field, or it has no place there. -/
def Represented (format : FixedFormat) (number : ℚ) (result : Except FixedError FixedPoint) :
    Prop :=
  (∃ v, result = .ok v ∧ v.format = format ∧ v.value = number) ∨
    (result = .error .overflow ∧ ∀ v : FixedPoint, v.format = format → v.value ≠ number)

theorem FixedPoint.parts_of_inRange (h : format.InRange (signed negative (m : ℤ))) :
    ∃ v, parts negative m format = .ok v ∧ v.format = format ∧
      v.units.toInt = signed negative (m : ℤ) := by
  have hlimit := format.limit_le
  have hboundary : 2 ^ 256 < boundary := by decide +kernel
  have hchecks := (inRange_signed format negative m).mp h
  unfold parts
  rw [dif_neg hchecks, if_neg (by omega)]
  split
  · rename_i hunits
    rw [SignedUnits.new, dif_neg (by omega)] at hunits
    cases hunits
  · rename_i units hunits
    exact ⟨_, rfl, rfl, SignedUnits.new_eq_ok.mp hunits⟩

theorem FixedPoint.parts_represented (negative : Bool) (m : ℕ) (format : FixedFormat) :
    Represented format (signed negative (m : ℤ) / 10 ^ format.unit.decimals)
      (parts negative m format) := by
  by_cases h : format.InRange (signed negative (m : ℤ))
  · obtain ⟨v, hv, rfl, hunits⟩ := parts_of_inRange h
    exact .inl ⟨v, hv, rfl, by rw [value, hunits]⟩
  · refine .inr ⟨dif_pos (not_not.mp (mt (inRange_signed format negative m).mpr h)), ?_⟩
    rintro v rfl hvalue
    rw [value, div_left_inj' (by positivity), Int.cast_inj] at hvalue
    exact h (hvalue ▸ v.inRange)

/-- The integer that a rational number is rounded to, if the mode rounds it. -/
def Rounding.apply (r : Rounding) (number : ℚ) : Option ℤ :=
  match r with
  | .exact => if Int.fract number = 0 then some ⌊number⌋ else none
  | .towardZero => some (if 0 ≤ number then ⌊number⌋ else ⌈number⌉)
  | .floor => some ⌊number⌋
  | .ceiling => some ⌈number⌉
  | .nearestTiesEven =>
    if 2 * Int.fract number = 1 then some (if Even ⌊number⌋ then ⌊number⌋ else ⌈number⌉)
    else some (round number)
  | .nearestTiesPositive => some (round number)

theorem Rounding.apply_intCast (r : Rounding) (z : ℤ) : r.apply z = some z := by
  cases r <;> simp [apply]

/-- A number between two integers is rounded to one of them. -/
theorem Rounding.apply_between (r : Rounding) (negative : Bool) (hpos : 0 < rem) (hlt : rem < d) :
    r.apply (signed negative (k + rem / d : ℚ)) =
      (r.increment negative k rem d).toOption.map fun up =>
        signed negative ((k + up.toNat : ℕ) : ℤ) := by
  have hd : (0 : ℚ) < d := Nat.cast_pos.mpr (by omega)
  have hpos' : (0 : ℚ) < rem / d := div_pos (Nat.cast_pos.mpr hpos) hd
  have hlt' : (rem / d : ℚ) < 1 := (div_lt_one hd).mpr (Nat.cast_lt.mpr hlt)
  have hless : rem < d - rem ↔ 2 * (rem / d : ℚ) < 1 := by
    rw [← mul_div_assoc, div_lt_one hd]
    norm_cast
    omega
  have hmore : d - rem < rem ↔ 1 < 2 * (rem / d : ℚ) := by
    rw [← mul_div_assoc, one_lt_div hd]
    norm_cast
    omega
  generalize (rem / d : ℚ) = f at *
  have hfloor : ⌊(k + f : ℚ)⌋ = k := by
    rw [Int.floor_eq_iff]
    constructor <;> push_cast <;> linarith
  have hceil : ⌈(k + f : ℚ)⌉ = k + 1 := by
    rw [Int.ceil_eq_iff]
    constructor <;> push_cast <;> linarith
  have hfract : Int.fract (k + f : ℚ) = f := by
    rw [Int.fract, hfloor, Int.cast_natCast, add_sub_cancel_left]
  have hx : (0 : ℚ) < k + f := by positivity
  generalize (k + f : ℚ) = x at *
  have hneg : Int.fract (-x) = 1 - f := hfract ▸ Int.fract_neg (hfract ▸ hpos'.ne')
  have hbit : k.testBit 0 = !decide (Even (k : ℤ)) := by
    rcases Nat.mod_two_eq_zero_or_one k with h | h <;> simp [Nat.even_iff, h]
  cases r with
  | exact =>
    cases negative <;>
      simp [apply, increment, hfract, hneg, hpos'.ne', (sub_pos.mpr hlt').ne', Except.toOption]
  | towardZero =>
    cases negative <;> simp [apply, increment, hx, hx.le, hfloor, Int.ceil_neg, Except.toOption]
  | floor =>
    cases negative <;> simp [apply, increment, hfloor, hceil, Int.floor_neg, Except.toOption]
  | ceiling =>
    cases negative <;> simp [apply, increment, hfloor, hceil, Int.ceil_neg, Except.toOption]
  | _ =>
    rcases lt_trichotomy (2 * f) 1 with hf | hf | hf
    · have h1 : ¬2 * f = 1 := hf.ne
      have h2 : ¬2 * (1 - f) = 1 := by linarith
      have h3 : ¬2 * (1 - f) < 1 := by linarith
      rw [increment, Nat.compare_eq_lt.mpr (hless.mpr hf)]
      cases negative <;>
        simp [apply, round, hfract, hneg, hfloor, Int.ceil_neg, hf, h1, h2, h3, Except.toOption]
    · have h2 : 2 * (1 - f) = 1 := by linarith
      have hother : Even (-1 + -(k : ℤ)) ↔ ¬Even k := by simp [Int.even_add]
      rw [increment, Nat.compare_eq_eq.mpr (by rw [hf] at hless hmore; simp at hless hmore; omega)]
      by_cases hk : Even k <;> cases negative <;>
        simp [apply, round, hfract, hneg, hfloor, hceil, hbit, hf, h2, hk, hother,
          Int.ceil_neg, Int.floor_neg, Except.toOption]
    · have h1 : ¬2 * f = 1 := hf.ne'
      have h2 : ¬2 * (1 - f) = 1 := by linarith
      have h3 : 2 * (1 - f) < 1 := by linarith
      rw [increment, Nat.compare_eq_gt.mpr (hmore.mpr hf)]
      cases negative <;>
        simp [apply, round, hfract, hneg, hceil, Int.floor_neg, hf.not_gt, h1, h2, h3,
          Except.toOption]

theorem Rounding.increment_cases (r : Rounding) (negative : Bool) :
    r.increment negative k rem d = .error .precisionLoss ∨
      ∃ up, r.increment negative k rem d = .ok up := by
  cases r with
  | exact => exact .inl rfl
  | nearestTiesEven | nearestTiesPositive =>
    simp only [increment]
    split <;> exact .inr ⟨_, rfl⟩
  | _ => exact .inr ⟨_, rfl⟩

theorem rounded_cases (hn : n < wideModulus) (hd : 0 < d) (negative : Bool) (r : Rounding) :
    (rounded n d negative r = .error .precisionLoss ∧
      r.apply (signed negative (n / d : ℚ)) = none) ∨
    ∃ q, rounded n d negative r = .ok q ∧
      r.apply (signed negative (n / d : ℚ)) = some (signed negative (q : ℤ)) ∧ q * d ≤ n + d := by
  have hdiv : n / d * d + n % d = n := by
    rw [Nat.mul_comm]
    exact Nat.div_add_mod n d
  have hsplit : (n / d : ℚ) = (n / d : ℕ) + (n % d : ℕ) / d := by
    field_simp
    exact_mod_cast (Nat.mul_comm d _ ▸ hdiv).symm
  have hlt := Nat.mod_lt n hd
  unfold rounded
  rw [if_neg hd.ne', hsplit]
  split
  · rename_i hzero
    refine .inr ⟨_, rfl, ?_, by omega⟩
    rw [hzero, Nat.cast_zero, zero_div, add_zero, ← cast_signed, r.apply_intCast]
  · rename_i hrem
    rw [r.apply_between negative (Nat.pos_of_ne_zero hrem) hlt]
    rcases r.increment_cases negative with hup | ⟨up, hup⟩
    · rw [hup]
      exact .inl ⟨rfl, rfl⟩
    · have hle : up.toNat ≤ 1 := Bool.toNat_le up
      have hquotient : n / d + 1 ≤ n := by
        have := Nat.mul_le_mul_left (n / d) (show 2 ≤ d by omega)
        omega
      refine .inr ⟨n / d + up.toNat, ?_, ?_, ?_⟩
      · rw [hup, ok_bind, wide_of_lt (by omega)]
      · rw [hup]
        rfl
      · have := Nat.mul_le_mul_right d hle
        rw [Nat.add_mul]
        omega

/-- The exact number, rounded to some decimals and stored in the field, or the error for it. -/
def Settles (format : FixedFormat) (decimals : ℕ) (r : Rounding) (number : ℚ)
    (result : Except FixedError FixedPoint) : Prop :=
  match r.apply (number * 10 ^ decimals) with
  | none => result = .error .precisionLoss
  | some n => Represented format (n / 10 ^ decimals) result

theorem settles_rounded {number : ℚ} (hn : n < wideModulus) (hd : 0 < d)
    (hnumber : number * 10 ^ format.unit.decimals = signed negative (n / d : ℚ)) :
    Settles format format.unit.decimals r number (do
      let magnitude ← rounded n d negative r
      FixedPoint.parts negative magnitude format) := by
  unfold Settles
  rw [hnumber]
  rcases rounded_cases hn hd negative r with ⟨hrounded, happly⟩ | ⟨q, hrounded, happly, -⟩
  · rw [hrounded, happly]
    rfl
  · rw [hrounded, happly]
    exact FixedPoint.parts_represented negative q format

namespace FixedPoint

theorem same_ok (h : a.format = b.format) : a.same b = .ok () := if_neg (not_not.mpr h)

theorem value_mul (a : FixedPoint) :
    a.value * 10 ^ a.format.unit.decimals = signed a.units.negative (a.units.magnitude : ℚ) := by
  rw [value, div_mul_cancel₀ _ (by positivity), a.units.cast_toInt]

theorem sumParts_eq (a b : FixedPoint) (negative : Bool) :
    ∃ sign sum, a.sumParts negative b.units.magnitude = .ok (sign, sum) ∧
      signed sign (sum : ℤ) = a.units.toInt + signed negative (b.units.magnitude : ℤ) := by
  have hsum := (a.mul_lt b a.format.unit).2.2
  unfold sumParts SignedUnits.toInt
  dsimp only
  split
  · rename_i hsign
    rw [wide_of_lt hsum, hsign]
    refine ⟨_, _, rfl, ?_⟩
    cases negative <;> simp [signed]
    omega
  · rename_i hsign
    split <;> refine ⟨_, _, rfl, ?_⟩ <;> revert hsign <;>
      cases a.units.negative <;> cases negative <;> simp [signed] <;> omega

theorem addParts_settles (r : Rounding) {negative : Bool} {number : ℚ}
    (hnumber : number * 10 ^ a.format.unit.decimals =
      (a.units.toInt + signed negative (b.units.magnitude : ℤ) : ℤ)) :
    Settles a.format a.format.unit.decimals r number (a.addParts negative b.units.magnitude) := by
  obtain ⟨sign, sum, hparts, hsum⟩ := a.sumParts_eq b negative
  rw [addParts, hparts, Settles, hnumber, ← hsum, r.apply_intCast]
  exact FixedPoint.parts_represented sign sum a.format

theorem value_eq (a : FixedPoint) :
    a.value = signed a.units.negative (a.units.magnitude / 10 ^ a.format.unit.decimals : ℚ) := by
  rw [value, a.units.cast_toInt, div_eq_mul_inv, div_eq_mul_inv, signed_mul_right]

theorem value_eq_zero : b.value = 0 ↔ b.units.magnitude = 0 := by
  rw [value, div_eq_zero_iff, Int.cast_eq_zero, ← Int.natAbs_eq_zero, b.units.natAbs_toInt]
  simp

theorem round_settles (a : FixedPoint) (r : Rounding) {decimals : ℕ} (h : decimals ≤ 80) :
    Settles a.format decimals r a.value (a.round decimals r) := by
  have hscale := a.format.unit.le
  unfold Settles round
  rw [if_neg (by omega)]
  by_cases hle : a.format.unit.decimals ≤ decimals
  · rw [if_pos hle]
    obtain ⟨k, rfl⟩ := Nat.exists_eq_add_of_le hle
    have hexact : a.value * 10 ^ (a.format.unit.decimals + k) = (a.units.toInt * 10 ^ k : ℤ) := by
      rw [pow_add, ← mul_assoc, a.value_mul, ← a.units.cast_toInt]
      push_cast
      rfl
    rw [hexact, r.apply_intCast]
    exact .inl ⟨a, rfl, rfl, by rw [← hexact, mul_div_cancel_right₀ _ (by positivity)]⟩
  · rw [if_neg hle]
    obtain ⟨k, hk⟩ := Nat.exists_eq_add_of_le (not_le.mp hle).le
    have hnumber : a.value * 10 ^ decimals =
        signed a.units.negative (a.units.magnitude / (10 ^ k : ℕ) : ℚ) := by
      rw [div_eq_mul_inv, signed_mul_right, ← a.value_mul, hk, pow_add]
      push_cast
      field_simp
    rw [hnumber, hk, Nat.add_sub_cancel_left, tens_eq (by omega)]
    dsimp only
    have hmagnitude := a.magnitude_le
    have hpow : 10 ^ k ≤ 10 ^ 80 := Nat.pow_le_pow_right (by decide) (by omega)
    have hwide : 2 ^ 256 + 10 ^ 80 < wideModulus := by decide +kernel
    rcases @rounded_cases a.units.magnitude (10 ^ k) (by omega) (Nat.pow_pos (by decide))
      a.units.negative r with ⟨hrounded, happly⟩ | ⟨q, hrounded, happly, hq⟩
    · rw [hrounded, happly]
      rfl
    · have hvalue : ((signed a.units.negative (q : ℤ) : ℤ) / 10 ^ decimals : ℚ) =
          (signed a.units.negative ((q * 10 ^ k : ℕ) : ℤ) : ℤ) / 10 ^ a.format.unit.decimals := by
        rw [cast_signed, cast_signed, Nat.cast_mul, signed_mul_right, hk, pow_add]
        push_cast
        field_simp
      rw [hrounded, happly, ok_bind, wide_of_lt (by omega), ok_bind]
      dsimp only
      rw [hvalue]
      exact parts_represented _ _ _

theorem compare_cross (a b : FixedPoint) :
    Ord.compare (a.units.magnitude * 10 ^ b.format.unit.decimals)
      (b.units.magnitude * 10 ^ a.format.unit.decimals) =
    Ord.compare (a.units.magnitude / 10 ^ a.format.unit.decimals : ℚ)
      (b.units.magnitude / 10 ^ b.format.unit.decimals) := by
  have hpos : (0 : ℚ) < 10 ^ a.format.unit.decimals * 10 ^ b.format.unit.decimals := by positivity
  rw [← cmp_eq_compare, ← cmp_eq_compare, ← (@Nat.strictMono_cast ℚ _ _ _).cmp_map_eq,
    ← cmp_mul_pos_right hpos (_ / _) (_ / _)]
  congr 1 <;> push_cast <;> field_simp

theorem value_neg_iff (a : FixedPoint) : a.value < 0 ↔ a.units.negative = true := by
  rw [value_eq, signed]
  split
  · rename_i hneg
    have hpos : (0 : ℚ) < a.units.magnitude :=
      Nat.cast_pos.mpr (Nat.pos_of_ne_zero (a.units.normal hneg))
    simp only [hneg, iff_true, neg_neg_iff_pos]
    positivity
  · rename_i hneg
    exact ⟨fun h => absurd h (not_lt.mpr (by positivity)), fun h => absurd h hneg⟩

theorem compare_eq (a b : FixedPoint) : a.compare b = Ord.compare a.value b.value := by
  have ha := a.value_neg_iff
  have hb := b.value_neg_iff
  simp only [compare, tens_eq (DecimalUnit.le _), Nat.mod_eq_of_lt (a.mul_lt b b.format.unit).2.1,
    Nat.mod_eq_of_lt (b.mul_lt a a.format.unit).2.1, compare_cross]
  split
  · split
    · rename_i hneg
      exact (compare_lt_iff_lt.mpr ((ha.mpr hneg).trans_le (not_lt.mp (by grind)))).symm
    · exact (compare_gt_iff_gt.mpr ((hb.mpr (by grind)).trans_le (not_lt.mp (by grind)))).symm
  · rename_i hsame
    rw [value_eq a, value_eq b, ← not_not.mp hsame]
    cases a.units.negative with
    | false => rfl
    | true =>
      have hanti : StrictAnti (Neg.neg : ℚ → ℚ) := fun _ _ h => neg_lt_neg h
      rw [if_pos rfl, ← cmp_eq_compare, ← cmp_eq_compare]
      exact (hanti.cmp_map_eq _ _).symm

/-- What the operations compute on the way fits 1024 bits. -/
structure Fits (a b : FixedPoint) (unit : DecimalUnit) (r : Rounding) : Prop where
  power : tens unit.decimals = 10 ^ unit.decimals
  sum : a.units.magnitude + b.units.magnitude < wideModulus
  product : a.units.magnitude * b.units.magnitude < wideModulus
  scaled : a.units.magnitude * 10 ^ unit.decimals < wideModulus
  quotient : ∀ n < wideModulus, ∀ d negative, rounded n d negative r ≠ .error .overflow
  rescaled : ∀ q, rounded a.units.magnitude (10 ^ unit.decimals) a.units.negative r = .ok q →
    q * 10 ^ unit.decimals < wideModulus

theorem fits (a b : FixedPoint) (unit : DecimalUnit) (r : Rounding) : a.Fits b unit r := by
  have hpow : 10 ^ unit.decimals ≤ 10 ^ 80 := Nat.pow_le_pow_right (by decide) unit.le
  have hwide : 2 ^ 256 + 10 ^ 80 < wideModulus := by decide +kernel
  have hmagnitude := a.magnitude_le
  obtain ⟨hmul, hscaled, hadd⟩ := a.mul_lt b unit
  refine ⟨tens_eq unit.le, hadd, hmul, hscaled, fun n hn d negative h => ?_, fun q hq => ?_⟩
  · rcases Nat.eq_zero_or_pos d with rfl | hd
    · cases h
    · rcases rounded_cases hn hd negative r with ⟨hrounded, -⟩ | ⟨q, hrounded, -⟩ <;>
        rw [hrounded] at h <;> cases h
  · rcases @rounded_cases a.units.magnitude (10 ^ unit.decimals) (by omega)
      (Nat.pow_pos (by decide)) a.units.negative r with ⟨hrounded, -⟩ | ⟨q', hrounded, -, hle⟩
    · rw [hrounded] at hq
      cases hq
    · rw [hrounded] at hq
      cases hq
      omega

/-- Checked arithmetic is exact. -/
theorem fixed_point_exact (a : FixedPoint) (r : Rounding) :
    (∀ b, a.format = b.format →
      Settles a.format a.format.unit.decimals r (a.value + b.value) (a.checkedAdd b) ∧
      Settles a.format a.format.unit.decimals r (a.value - b.value) (a.checkedSub b) ∧
      Settles a.format a.format.unit.decimals r (a.value * b.value) (a.checkedMul b r) ∧
      if b.value = 0 then a.checkedDiv b r = .error .divisionByZero
      else Settles a.format a.format.unit.decimals r (a.value / b.value) (a.checkedDiv b r)) ∧
    (∀ format, Settles format format.unit.decimals r a.value (a.withFormat format r)) ∧
    (∀ decimals, if decimals ≤ 80 then Settles a.format decimals r a.value (a.round decimals r)
      else a.round decimals r = .error .format) ∧
    (∀ b unit, a.Fits b unit r) ∧
    ∀ b, a.compare b = Ord.compare a.value b.value := by
  refine ⟨fun b hsame => ?_, fun format => ?_, fun decimals => ?_, fun b unit => a.fits b unit r,
    a.compare_eq⟩
  · have htens := tens_eq a.format.unit.le
    have hpos : 0 < 10 ^ a.format.unit.decimals := Nat.pow_pos (by decide)
    obtain ⟨hmul, hscaled, -⟩ := a.mul_lt b a.format.unit
    have ha := a.value_mul
    have hb := b.value_mul
    rw [← hsame] at hb
    refine ⟨?_, ?_, ?_, ?_⟩
    · rw [checkedAdd, same_ok hsame, ok_bind]
      apply addParts_settles
      rw [add_mul, ha, hb, Int.cast_add, cast_signed, a.units.cast_toInt]
    · rw [checkedSub, same_ok hsame, ok_bind]
      apply addParts_settles
      rw [sub_mul, ha, hb, Int.cast_add, cast_signed, a.units.cast_toInt]
      cases b.units.negative <;> simp [signed, sub_eq_add_neg]
    · simp only [checkedMul, same_ok hsame, ok_bind, wide_of_lt hmul, htens]
      apply settles_rounded hmul hpos
      rw [Nat.cast_mul, div_eq_mul_inv, signed_mul_right, ← signed_mul_signed, ← ha, ← hb]
      push_cast
      field_simp
    · simp only [checkedDiv, same_ok hsame, ok_bind, htens,
        wide_of_lt hscaled, value_eq_zero]
      split
      · rename_i hzero
        rw [hzero]
        rfl
      · rename_i hne
        apply settles_rounded hscaled (Nat.pos_of_ne_zero hne)
        push_cast
        rw [mul_div_right_comm, signed_mul_right, ← signed_div_signed, ← ha, ← hb]
        field_simp
  · simp only [withFormat, ok_bind, tens_eq (DecimalUnit.le _),
      wide_of_lt (a.mul_lt a format.unit).2.1]
    apply settles_rounded (a.mul_lt a format.unit).2.1 (Nat.pow_pos (by decide))
    push_cast
    rw [mul_div_right_comm, signed_mul_right, div_eq_mul_inv, signed_mul_right, ← a.value_mul]
    field_simp
  · split
    · exact a.round_settles r ‹_›
    · exact if_pos (by omega)

/-- The one value of the field that is congruent to the exact units. -/
def Wraps (format : FixedFormat) (units : ℤ) (result : Except FixedError FixedPoint) : Prop :=
  ∃ v, result = .ok v ∧ ∀ w : FixedPoint,
    w = v ↔ w.format = format ∧ w.units.toInt ≡ units [ZMOD 2 ^ format.width]

theorem eq_of_modEq (hformat : a.format = b.format)
    (h : a.units.toInt ≡ b.units.toInt [ZMOD 2 ^ a.format.width]) : a = b := by
  have hunits := SignedUnits.toInt_injective (a.inRange.eq (hformat ▸ b.inRange) h)
  obtain ⟨v, _, hv⟩ := b
  cases hformat
  cases hunits
  rfl

theorem wraps_parts {units : ℤ} (hrange : format.InRange (signed negative (m : ℤ)))
    (hunits : signed negative (m : ℤ) ≡ units [ZMOD 2 ^ format.width]) :
    Wraps format units (parts negative m format) := by
  obtain ⟨v, hparts, rfl, hv⟩ := parts_of_inRange hrange
  rw [← hv] at hunits
  refine ⟨v, hparts, fun w => ⟨?_, ?_⟩⟩
  · rintro rfl
    exact ⟨rfl, hunits⟩
  · rintro ⟨hformat, hw⟩
    exact eq_of_modEq hformat (hformat ▸ hw.trans hunits.symm)

/-- `residue` in `wrapping_parts` is congruent to the signed magnitude. -/
theorem residue_modEq (negative : Bool) (m p : ℕ) (hp : 0 < p) :
    ∃ residue, (if negative ∧ m % p ≠ 0 then p - m % p else m % p) = residue ∧ residue < p ∧
      (residue : ℤ) ≡ signed negative (m : ℤ) [ZMOD p] := by
  have hlt := Nat.mod_lt m hp
  have hm : (m % p : ℕ) ≡ (m : ℤ) [ZMOD p] := by
    exact Int.mod_modEq m p
  refine ⟨_, rfl, by split <;> omega, ?_⟩
  cases negative with
  | false => simpa [signed] using hm
  | true =>
    have hzero : ((p : ℕ) : ℤ) ≡ 0 [ZMOD p] := Int.modEq_zero_iff_dvd.mpr dvd_rfl
    simp only [signed, if_true, true_and]
    split
    · rw [Nat.cast_sub hlt.le]
      simpa using hzero.sub hm
    · rename_i hrem
      rw [not_not.mp hrem] at hm ⊢
      simpa using hm.neg

theorem wraps_wrappingParts (negative : Bool) (m : ℕ) (format : FixedFormat) :
    Wraps format (signed negative (m : ℤ)) (wrappingParts negative m format) := by
  have hwidth := format.two_pow_width
  obtain ⟨residue, hresidue, hlt, hcongr⟩ :=
    residue_modEq negative m (2 ^ format.width) (Nat.pow_pos (by decide))
  simp only [wrappingParts, Nat.and_two_pow_sub_one_eq_mod, hresidue]
  split
  · rename_i hbit
    have hle := (FixedFormat.testBit_iff hbit.1 hlt).mp hbit.2
    rw [if_pos hbit.1] at hwidth
    refine wraps_parts ?_ (Int.ModEq.trans ?_ hcongr)
    · rw [FixedFormat.InRange, if_pos hbit.1, signed_true]
      omega
    · rw [signed_true, Nat.cast_sub hlt.le]
      simp [Int.modEq_iff_dvd]
  · rename_i hbit
    refine wraps_parts ?_ hcongr
    rw [FixedFormat.InRange, signed_false]
    by_cases hsigned : format.signed = true
    · have hsmall := mt (FixedFormat.testBit_iff hsigned hlt).mpr fun h => hbit ⟨hsigned, h⟩
      omega
    · rw [if_neg hsigned] at hwidth ⊢
      omega

/-- Wrapping arithmetic is exact arithmetic modulo the width. -/
theorem wrapping_arithmetic_modular (a b : FixedPoint) (hsame : a.format = b.format) :
    Wraps a.format (a.units.toInt + b.units.toInt) (a.wrappingAdd b) ∧
    Wraps a.format (a.units.toInt - b.units.toInt) (a.wrappingSub b) ∧
    Wraps a.format ((a.units.toInt * b.units.toInt).tdiv (10 ^ a.format.unit.decimals))
      (a.wrappingMul b) ∧
    if b.units.toInt = 0 then a.wrappingDiv b = .error .divisionByZero
    else Wraps a.format ((a.units.toInt * 10 ^ a.format.unit.decimals).tdiv b.units.toInt)
      (a.wrappingDiv b) := by
  have htens := tens_eq a.format.unit.le
  obtain ⟨hmul, hscaled, -⟩ := a.mul_lt b a.format.unit
  have hten : (10 : ℤ) ^ a.format.unit.decimals =
      signed false ((10 ^ a.format.unit.decimals : ℕ) : ℤ) := by simp [signed]
  refine ⟨?_, ?_, ?_, ?_⟩
  · obtain ⟨sign, sum, hparts, hsum⟩ := a.sumParts_eq b b.units.negative
    rw [wrappingAdd, same_ok hsame, ok_bind, hparts]
    exact hsum ▸ wraps_wrappingParts sign sum a.format
  · obtain ⟨sign, sum, hparts, hsum⟩ := a.sumParts_eq b !b.units.negative
    have hneg : signed (!b.units.negative) (b.units.magnitude : ℤ) = -b.units.toInt := by
      unfold SignedUnits.toInt
      cases b.units.negative <;> simp [signed]
    rw [wrappingSub, same_ok hsame, ok_bind, hparts, sub_eq_add_neg, ← hneg]
    exact hsum ▸ wraps_wrappingParts sign sum a.format
  · simp only [wrappingMul, same_ok hsame, ok_bind, wide_of_lt hmul, htens]
    rw [hten, SignedUnits.toInt, SignedUnits.toInt, signed_mul_signed, ← Nat.cast_mul, tdiv_signed,
      Bool.bne_false]
    exact wraps_wrappingParts _ _ _
  · have hzero : b.units.toInt = 0 ↔ b.units.magnitude = 0 := by
      rw [← b.units.natAbs_toInt, Int.natAbs_eq_zero]
    simp only [wrappingDiv, same_ok hsame, ok_bind, wide_of_lt hscaled, htens,
      hzero]
    split
    · rfl
    · rw [hten, SignedUnits.toInt, SignedUnits.toInt, signed_mul_signed, ← Nat.cast_mul,
        tdiv_signed, Bool.bne_false]
      exact wraps_wrappingParts _ _ _

/-- The least value of a signed byte. -/
def lowest : FixedPoint where
  units := ⟨true, 128, by decide +kernel, by decide⟩
  format := ⟨true, 8, ⟨0, by decide⟩, by decide⟩
  inRange := by decide +kernel

theorem wrapping_arithmetic_lowest : lowest.format = lowest.format ∧
    Wraps lowest.format (-256) (lowest.wrappingAdd lowest) :=
  ⟨rfl, (wrapping_arithmetic_modular lowest lowest rfl).1⟩

end FixedPoint

end QuaiSdk
