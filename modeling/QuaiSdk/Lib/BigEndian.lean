import Mathlib.Tactic.Ring
import Mathlib.Tactic.Linarith

/-!
# Big-endian numbers

Fixed-width big-endian bytes, their value, and the minimal form without leading zeros.
-/

namespace BigEndian

open List Nat

/-- The low `width` bytes of a number, most significant first. -/
def toBytes : ℕ → ℕ → List UInt8
  | 0, _ => []
  | width + 1, n => UInt8.ofNat (n / 256 ^ width) :: toBytes width n

def valueFrom (acc : ℕ) (bytes : List UInt8) : ℕ := bytes.foldl (fun n b => n * 256 + b.toNat) acc

def value (bytes : List UInt8) : ℕ := valueFrom 0 bytes

def strip (bytes : List UInt8) : List UInt8 := bytes.dropWhile (· == 0)

@[simp] theorem length_toBytes (width n : ℕ) : (toBytes width n).length = width := by
  induction width with
  | zero => rfl
  | succ width ih => rw [toBytes, length_cons, ih]

@[simp] theorem valueFrom_cons (acc : ℕ) (b : UInt8) (bytes : List UInt8) :
    valueFrom acc (b :: bytes) = valueFrom (acc * 256 + b.toNat) bytes := rfl

theorem valueFrom_eq (acc : ℕ) (bytes : List UInt8) :
    valueFrom acc bytes = acc * 256 ^ bytes.length + value bytes := by
  induction bytes generalizing acc with
  | nil => simp [valueFrom, value]
  | cons b bytes ih =>
    rw [value, valueFrom_cons, valueFrom_cons, ih, ih (0 * 256 + b.toNat), length_cons]
    ring

theorem value_cons (b : UInt8) (bytes : List UInt8) :
    value (b :: bytes) = b.toNat * 256 ^ bytes.length + value bytes := by
  rw [value, valueFrom_cons, valueFrom_eq]
  ring

theorem value_lt (bytes : List UInt8) : value bytes < 256 ^ bytes.length := by
  induction bytes with
  | nil => exact one_pos
  | cons b bytes ih =>
    have hb : b.toNat + 1 ≤ 256 := b.toNat_lt
    rw [value_cons, length_cons, pow_succ, mul_comm (256 ^ bytes.length)]
    have := mul_le_mul_right (256 ^ bytes.length) hb
    rw [add_mul, one_mul] at this
    omega

/-- Order of `memcmp`; a proper beginning comes first. -/
def memcmpLe : List UInt8 → List UInt8 → Bool
  | [], _ => true
  | _ :: _, [] => false
  | x :: a, y :: b => x < y || x == y && memcmpLe a b

theorem memcmpLe_iff {a b : List UInt8} (hlen : a.length = b.length) :
    memcmpLe a b ↔ value a ≤ value b := by
  induction a generalizing b with
  | nil => rw [length_eq_zero_iff.mp hlen.symm]; exact iff_of_true rfl le_rfl
  | cons x a ih =>
    cases b with
    | nil => cases hlen
    | cons y b =>
      have hlen' : a.length = b.length := succ.inj hlen
      have ha := value_lt a
      have hb := value_lt b
      rw [hlen'] at ha
      rw [memcmpLe, value_cons, value_cons, hlen', Bool.or_eq_true, Bool.and_eq_true, ih hlen',
        decide_eq_true_iff, beq_iff_eq, UInt8.lt_iff_toNat_lt, ← UInt8.toNat_inj]
      -- the leading bytes decide unless they are equal
      rcases lt_trichotomy x.toNat y.toNat with hlt | heq | hgt
      · have := mul_le_mul_right (256 ^ b.length) hlt
        rw [succ_mul] at this
        omega
      · rw [heq]
        omega
      · have := mul_le_mul_right (256 ^ b.length) hgt
        rw [succ_mul] at this
        omega

theorem value_toBytes (width n : ℕ) : value (toBytes width n) = n % 256 ^ width := by
  induction width with
  | zero => rw [pow_zero, mod_one]; rfl
  | succ width ih =>
    have hbyte : (UInt8.ofNat (n / 256 ^ width)).toNat = n / 256 ^ width % 256 := by simp
    rw [toBytes, value_cons, ih, length_toBytes, hbyte, pow_succ, mod_mul]
    ring

theorem memcmpLe_toBytes {width a b : ℕ} (ha : a < 256 ^ width) (hb : b < 256 ^ width) :
    memcmpLe (toBytes width a) (toBytes width b) ↔ a ≤ b := by
  rw [memcmpLe_iff (by rw [length_toBytes, length_toBytes]), value_toBytes, value_toBytes,
    mod_eq_of_lt ha, mod_eq_of_lt hb]

theorem toBytes_add (width n k : ℕ) : toBytes width (k * 256 ^ width + n) = toBytes width n := by
  induction width generalizing k with
  | zero => rfl
  | succ width ih =>
    have hsplit : k * 256 ^ (width + 1) + n = k * 256 * 256 ^ width + n := by ring
    have hpos : 0 < 256 ^ width := Nat.pow_pos (by decide)
    rw [toBytes, toBytes, hsplit, ih, Nat.mul_comm (k * 256), Nat.mul_add_div hpos]
    congr 1
    apply UInt8.toNat_inj.mp
    simp

theorem toBytes_value (bytes : List UInt8) : toBytes bytes.length (value bytes) = bytes := by
  induction bytes with
  | nil => rfl
  | cons b bytes ih =>
    have hpos : 0 < 256 ^ bytes.length := Nat.pow_pos (by decide)
    rw [length_cons, value_cons, toBytes, toBytes_add, ih, Nat.mul_comm,
      Nat.mul_add_div hpos, Nat.div_eq_of_lt (value_lt bytes), Nat.add_zero]
    congr 1
    apply UInt8.toNat_inj.mp
    simp

theorem value_append (front back : List UInt8) :
    value (front ++ back) = value front * 256 ^ back.length + value back := by
  rw [value, valueFrom, foldl_append]
  exact valueFrom_eq _ back

variable {bytes a b : List UInt8}

theorem eq_of_value_eq (hlength : a.length = b.length) (h : value a = value b) : a = b := by
  rw [← toBytes_value a, ← toBytes_value b, hlength, h]

theorem value_take_le (hlength : a.length = b.length) (h : value a ≤ value b) (k : ℕ) :
    value (a.take k) ≤ value (b.take k) := by
  have ha := value_append (a.take k) (a.drop k)
  have hb := value_append (b.take k) (b.drop k)
  have hlt := value_lt (b.drop k)
  rw [take_append_drop] at ha hb
  rw [length_drop] at ha hb hlt
  rw [ha, hb, hlength] at h
  by_contra hgt
  have hmul := mul_le_mul_right (256 ^ (b.length - k)) (succ_le_of_lt (not_le.mp hgt))
  rw [succ_mul] at hmul
  omega

theorem take_eq_of_between {x : List UInt8} {k : ℕ} (hax : a.length = x.length)
    (hxb : x.length = b.length) (hlow : value a ≤ value x) (hhigh : value x ≤ value b)
    (h : a.take k = b.take k) : x.take k = a.take k := by
  apply eq_of_value_eq
  · rw [length_take, length_take, hax]
  · apply le_antisymm
    · rw [h]
      exact value_take_le hxb hhigh k
    · exact value_take_le hax hlow k

theorem value_strip (bytes : List UInt8) : value (strip bytes) = value bytes := by
  induction bytes with
  | nil => rfl
  | cons b bytes ih =>
    unfold strip at ih ⊢
    rw [dropWhile_cons]
    by_cases hb : b = 0
    · subst hb
      rw [value_cons]
      simpa using ih
    · rw [if_neg (by simpa using hb)]

theorem length_strip_le (bytes : List UInt8) : (strip bytes).length ≤ bytes.length :=
  (dropWhile_sublist _).length_le

theorem head?_strip_ne_zero (bytes : List UInt8) : (strip bytes).head? ≠ some 0 := by
  intro h
  have := head?_dropWhile_not (· == 0) bytes
  unfold strip at h
  rw [h] at this
  simp at this

theorem value_eq_zero_iff : value bytes = 0 ↔ ∀ b ∈ bytes, b = 0 := by
  induction bytes with
  | nil => exact ⟨fun _ b hb => absurd hb not_mem_nil, fun _ => rfl⟩
  | cons b bytes ih =>
    have hpos : 256 ^ bytes.length ≠ 0 := by positivity
    rw [value_cons, Nat.add_eq_zero_iff, Nat.mul_eq_zero, or_iff_left hpos, ih, forall_mem_cons]
    refine and_congr_left' ?_
    rw [← UInt8.toNat_inj]
    rfl

theorem toBytes_value_pad {width : ℕ} (h : bytes.length ≤ width) :
    toBytes width (value bytes) = replicate (width - bytes.length) 0 ++ bytes := by
  have hzeros : value (replicate (width - bytes.length) 0) = 0 :=
    value_eq_zero_iff.mpr fun b hb => eq_of_mem_replicate hb
  apply eq_of_value_eq
  · rw [length_toBytes, length_append, length_replicate]
    omega
  · have hlt := (value_lt bytes).trans_le (Nat.pow_le_pow_right (by decide : 0 < 256) h)
    rw [value_append, hzeros, value_toBytes, mod_eq_of_lt hlt, Nat.zero_mul, Nat.zero_add]

theorem strip_toBytes_value {width : ℕ} (h : bytes.length ≤ width) (hhead : bytes.headD 0 ≠ 0) :
    strip (toBytes width (value bytes)) = bytes := by
  have hskip : strip (replicate (width - bytes.length) 0 ++ bytes) = strip bytes := by
    rw [strip, dropWhile_append_of_pos fun b hb => by simp [eq_of_mem_replicate hb]]
    rfl
  rw [toBytes_value_pad h, hskip]
  cases bytes with
  | nil => rfl
  | cons => exact dropWhile_cons_of_neg (by simpa using hhead)

theorem value_eq_max_iff : value bytes + 1 = 256 ^ bytes.length ↔ ∀ b ∈ bytes, b = 255 := by
  induction bytes with
  | nil => exact ⟨fun _ b hb => absurd hb not_mem_nil, fun _ => rfl⟩
  | cons b bytes ih =>
    have hb : b.toNat + 1 ≤ 256 := b.toNat_lt
    have hlt := value_lt bytes
    have hmax : b = 255 ↔ b.toNat = 255 := by
      rw [← UInt8.toNat_inj]
      rfl
    have hsum : b.toNat * 256 ^ bytes.length + 256 ^ bytes.length ≤ 256 * 256 ^ bytes.length := by
      have := mul_le_mul_right (256 ^ bytes.length) hb
      rwa [add_mul, one_mul] at this
    rw [value_cons, length_cons, pow_succ, mul_comm (256 ^ bytes.length),
      forall_mem_cons, hmax, ← ih]
    constructor
    · intro h
      -- a smaller first byte leaves the number a whole power short
      have hfirst : b.toNat = 255 := by
        by_contra hne
        have hsmall : b.toNat + 2 ≤ 256 := by omega
        have := mul_le_mul_right (256 ^ bytes.length) hsmall
        rw [add_mul] at this
        omega
      exact ⟨hfirst, by omega⟩
    · rintro ⟨hfirst, h⟩
      rw [hfirst]
      omega

theorem take_zero_iff {bytes : List UInt8} (k : ℕ) :
    (∀ b ∈ bytes.take k, b = 0) ↔ value bytes < 256 ^ (bytes.drop k).length := by
  have hsplit := value_append (bytes.take k) (bytes.drop k)
  have hlt := value_lt (bytes.drop k)
  rw [take_append_drop] at hsplit
  rw [← value_eq_zero_iff, hsplit]
  constructor
  · intro h
    rw [h]
    omega
  · intro h
    by_contra hne
    have := mul_le_mul_right (256 ^ (bytes.drop k).length) (one_le_iff_ne_zero.mpr hne)
    omega

theorem take_max_iff (k : ℕ) : (∀ b ∈ bytes.take k, b = 255) ↔
      256 ^ bytes.length ≤ value bytes + 256 ^ (bytes.drop k).length := by
  have hsplit := value_append (bytes.take k) (bytes.drop k)
  have hlt := value_lt (bytes.drop k)
  have hfront := value_lt (bytes.take k)
  have hpow : 256 ^ bytes.length = 256 ^ (bytes.take k).length * 256 ^ (bytes.drop k).length := by
    rw [← pow_add, ← length_append, take_append_drop]
  rw [take_append_drop] at hsplit
  rw [← value_eq_max_iff, hsplit, hpow]
  constructor
  · intro h
    rw [← h, add_mul]
    omega
  · intro h
    by_contra hne
    have hsmall : value (bytes.take k) + 2 ≤ 256 ^ (bytes.take k).length := by omega
    have := mul_le_mul_right (256 ^ (bytes.drop k).length) hsmall
    rw [add_mul] at this
    omega

/-- The first byte has its high bit when the number is in the upper half. -/
theorem high_bit_iff {b : UInt8} : 0x80 ≤ b ↔ 128 * 256 ^ bytes.length ≤ value (b :: bytes) := by
  have hlt := value_lt bytes
  have hle : 0x80 ≤ b ↔ 128 ≤ b.toNat := UInt8.le_iff_toNat_le
  rw [value_cons, hle]
  constructor
  · intro h
    have := mul_le_mul_right (256 ^ bytes.length) h
    omega
  · intro h
    by_contra hne
    have hsmall : b.toNat + 1 ≤ 128 := by omega
    have := mul_le_mul_right (256 ^ bytes.length) hsmall
    rw [add_mul] at this
    omega

end BigEndian
