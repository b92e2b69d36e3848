import Mathlib.Algebra.BigOperators.Intervals
import Mathlib.Algebra.Order.BigOperators.Group.Finset
import Mathlib.Data.Finset.Sort
import Mathlib.Tactic.Ring
import Mathlib.Tactic.Linarith

/-!
# Inventories over a chain of units

A finite chain of units in which every unit is a whole multiple of the one below it, and inventories
that hold a count of each.  One unit may be broken into units of the next smaller kind; nothing may
be put together again.  `worth cap k` is the value an inventory holds in units of size at least `k`,
and everything here is stated by what an operation does to `worth`.
-/

open Finset Function

namespace Inventory

/-- Units `0 .. size - 1`, each dividing the next and strictly increasing. -/
structure Chain where
  size : ℕ
  unit : ℕ → ℕ
  pos : ∀ i, i < size → 0 < unit i
  dvd : ∀ i, i + 1 < size → unit i ∣ unit (i + 1)
  lt : ∀ i, i + 1 < size → unit i < unit (i + 1)

variable (C : Chain)

variable {j i k : ℕ} {cap : ℕ → ℕ} {out : List ℕ}

theorem Chain.unit_lt_of_lt (hij : i < j) (hj : j < C.size) : C.unit i < C.unit j := by
  induction j with
  | zero => omega
  | succ j ih =>
    rcases Nat.lt_succ_iff_lt_or_eq.mp hij with h | rfl
    · exact lt_trans (ih h (by omega)) (C.lt j hj)
    · exact C.lt i hj

theorem Chain.unit_le_of_le (hij : i ≤ j) (hj : j < C.size) : C.unit i ≤ C.unit j := by
  rcases Nat.lt_or_eq_of_le hij with h | rfl
  · exact (C.unit_lt_of_lt h hj).le
  · exact le_rfl

/-- Value held in units of index at least `k`. -/
def worth (cap : ℕ → ℕ) (k : ℕ) : ℕ := ∑ j ∈ Ico k C.size, cap j * C.unit j

theorem worth_update_of_lt (cap : ℕ → ℕ) {x : ℕ} (h : j < k) :
    worth C (update cap j x) k = worth C cap k := by
  apply Finset.sum_congr rfl
  intro i hi
  rw [update_of_ne (by have := (Finset.mem_Ico.mp hi).1; omega)]

theorem worth_update_of_le (cap : ℕ → ℕ) {x : ℕ} (hkj : k ≤ j) (hj : j < C.size) :
    worth C (update cap j x) k + cap j * C.unit j = worth C cap k + x * C.unit j := by
  have hmem : j ∈ Ico k C.size := Finset.mem_Ico.mpr ⟨hkj, hj⟩
  have hrest : ∑ i ∈ (Ico k C.size).erase j, update cap j x i * C.unit i =
      ∑ i ∈ (Ico k C.size).erase j, cap i * C.unit i := by
    apply Finset.sum_congr rfl
    intro i hi
    rw [update_of_ne (Finset.ne_of_mem_erase hi)]
  unfold worth
  rw [← Finset.add_sum_erase _ _ hmem, ← Finset.add_sum_erase _ (fun i => cap i * C.unit i) hmem,
    hrest]
  simp only [update_self]
  ring

theorem count_le_worth (cap : ℕ → ℕ) (hj : j < C.size) : cap j ≤ worth C cap 0 :=
  le_trans (Nat.le_mul_of_pos_right _ (C.pos j hj)) (Finset.single_le_sum
    (f := fun i => cap i * C.unit i) (fun _ _ => Nat.zero_le _)
    (Finset.mem_Ico.mpr ⟨Nat.zero_le j, hj⟩))

theorem exists_pos_of_worth_pos (h : 0 < worth C cap k) : ∃ j, k ≤ j ∧ j < C.size ∧ 0 < cap j := by
  by_contra hnone
  push Not at hnone
  have hzero : worth C cap k = 0 := by
    apply Finset.sum_eq_zero
    intro j hj
    obtain ⟨hkj, hlt⟩ := Finset.mem_Ico.mp hj
    rw [Nat.le_zero.mp (hnone j hkj hlt), Nat.zero_mul]
  omega

/-- Break one unit `j` into units `j - 1`. -/
def exchange (cap : ℕ → ℕ) (j : ℕ) : ℕ → ℕ :=
  update (update cap j (cap j - 1)) (j - 1)
    (cap (j - 1) + C.unit j / C.unit (j - 1))

theorem exchange_lower (cap : ℕ → ℕ) (j : ℕ) :
    exchange C cap (j + 1) j = cap j + C.unit (j + 1) / C.unit j := by
  simp [exchange]

theorem exchange_lower_pos (cap : ℕ → ℕ) (hj : j + 1 < C.size) : 0 < exchange C cap (j + 1) j := by
  rw [exchange_lower]
  have := Nat.div_pos (C.lt j hj).le (C.pos j (by omega))
  omega

/-- Breaking a unit keeps the value in all the sizes it passes through and takes one unit out of the
size it started from. -/
theorem worth_exchange (cap : ℕ → ℕ) (hj : j + 1 < C.size) (hpos : 0 < cap (j + 1)) (k : ℕ) :
    worth C (exchange C cap (j + 1)) k + (if k = j + 1 then C.unit (j + 1) else 0) =
      worth C cap k := by
  have hmul : C.unit (j + 1) / C.unit j * C.unit j = C.unit (j + 1) :=
    Nat.div_mul_cancel (C.dvd j hj)
  have hkeep : update cap (j + 1) (cap (j + 1) - 1) j = cap j := update_of_ne (by omega) _ _
  have hone : (cap (j + 1) - 1) * C.unit (j + 1) + C.unit (j + 1) = cap (j + 1) * C.unit (j + 1) := by
    rw [← Nat.succ_mul, Nat.succ_eq_add_one, Nat.sub_add_cancel hpos]
  unfold exchange
  simp only [Nat.add_sub_cancel]
  rcases Nat.lt_trichotomy k (j + 1) with hk | rfl | hk
  · have h1 := worth_update_of_le C (update cap (j + 1) (cap (j + 1) - 1))
      (j := j) (k := k) (x := cap j + C.unit (j + 1) / C.unit j) (by omega) (by omega)
    have h2 := worth_update_of_le C cap (j := j + 1) (k := k) (x := cap (j + 1) - 1) (by omega) hj
    rw [hkeep, Nat.add_mul, hmul] at h1
    rw [if_neg (by omega)]
    omega
  · have h2 := worth_update_of_le C cap (j := j + 1) (k := j + 1) (x := cap (j + 1) - 1) le_rfl hj
    rw [worth_update_of_lt C _ (by omega), if_pos rfl]
    omega
  · rw [worth_update_of_lt C _ (by omega), worth_update_of_lt C _ hk, if_neg (by omega)]
    omega

/-- Break one unit of each size from `i + depth` down to `i + 1`. -/
def cascade (i : ℕ) : ℕ → (ℕ → ℕ) → ℕ → ℕ
  | 0, cap => cap
  | depth + 1, cap => cascade i depth (exchange C cap (i + depth + 1))

/-- What a whole cascade does to `worth`: every size strictly above `i` and up to its source loses
one unit, every other size keeps its value, and slot `i` ends nonempty. -/
theorem worth_cascade (i depth : ℕ) (cap : ℕ → ℕ) (hsize : i + depth < C.size)
    (hpos : 0 < cap (i + depth)) :
    0 < cascade C i depth cap i ∧ ∀ k,
      worth C (cascade C i depth cap) k + (if i < k ∧ k ≤ i + depth then C.unit k else 0) =
        worth C cap k := by
  induction depth generalizing cap with
  | zero =>
    refine ⟨hpos, fun k => ?_⟩
    rw [if_neg (by omega)]
    rfl
  | succ depth ih =>
    have hstep := worth_exchange C cap (j := i + depth) (by omega) hpos
    obtain ⟨hlow, hrest⟩ := ih (exchange C cap (i + depth + 1)) (by omega)
      (exchange_lower_pos C cap (by omega))
    refine ⟨hlow, fun k => ?_⟩
    have h1 := hstep k
    have h2 := hrest k
    change worth C (cascade C i depth (exchange C cap (i + depth + 1))) k + _ = _
    by_cases hk : k = i + depth + 1
    · subst hk
      rw [if_pos rfl] at h1
      rw [if_neg (by omega)] at h2
      rw [if_pos (by omega)]
      omega
    · rw [if_neg hk] at h1
      by_cases hin : i < k ∧ k ≤ i + depth
      · rw [if_pos hin] at h2
        rw [if_pos (by omega)]
        omega
      · rw [if_neg hin] at h2
        rw [if_neg (by omega)]
        omega

/-- Spend one unit `i` obtained from the nonempty slot `i + depth`. -/
def draw (i depth : ℕ) (cap : ℕ → ℕ) : ℕ → ℕ :=
  update (cascade C i depth cap) i (cascade C i depth cap i - 1)

theorem worth_draw (i depth : ℕ) (cap : ℕ → ℕ) (hsize : i + depth < C.size)
    (hpos : 0 < cap (i + depth)) (k : ℕ) :
    worth C (draw C i depth cap) k +
      (if k ≤ i then C.unit i else if k ≤ i + depth then C.unit k else 0) = worth C cap k := by
  obtain ⟨hlow, hcascade⟩ := worth_cascade C i depth cap hsize hpos
  have hk := hcascade k
  have hone : (cascade C i depth cap i - 1) * C.unit i + C.unit i =
      cascade C i depth cap i * C.unit i := by
    rw [← Nat.succ_mul, Nat.succ_eq_add_one, Nat.sub_add_cancel hlow]
  unfold draw
  by_cases hki : k ≤ i
  · have hup := worth_update_of_le C (cascade C i depth cap) (j := i) (k := k)
      (x := cascade C i depth cap i - 1) hki (by omega)
    rw [if_neg (by omega)] at hk
    rw [if_pos hki]
    omega
  · rw [worth_update_of_lt C _ (by omega), if_neg hki]
    by_cases hsrc : k ≤ i + depth
    · rw [if_pos ⟨by omega, hsrc⟩] at hk
      rw [if_pos hsrc]
      exact hk
    · rw [if_neg (by omega)] at hk
      rw [if_neg hsrc]
      exact hk

/-- Value of the units in `out` of index at least `k`. -/
def demand (out : List ℕ) (k : ℕ) : ℕ := ((out.filter (k ≤ ·)).map C.unit).sum

@[simp] theorem demand_nil (k : ℕ) : demand C [] k = 0 := rfl

theorem demand_cons (i : ℕ) (out : List ℕ) (k : ℕ) :
    demand C (i :: out) k = (if k ≤ i then C.unit i else 0) + demand C out k := by
  unfold demand
  by_cases h : k ≤ i <;> simp [h]

theorem demand_append (out out' : List ℕ) (k : ℕ) :
    demand C (out ++ out') k = demand C out k + demand C out' k := by
  simp [demand]

theorem demand_zero (out : List ℕ) : demand C out 0 = (out.map C.unit).sum := by
  simp [demand]

theorem demand_perm {out' : List ℕ} (h : out.Perm out') (k : ℕ) :
    demand C out k = demand C out' k :=
  ((h.filter _).map _).sum_eq

/-- The units `out` can be split out of `cap`: no size is asked for more than the inventory holds in
units of that size and above. -/
def Covers (cap : ℕ → ℕ) (out : List ℕ) : Prop := ∀ k, demand C out k ≤ worth C cap k

/-- A stock `cap` from which `out` has been drawn still accounts for the original `cap₀`. -/
def Drawn (cap₀ cap : ℕ → ℕ) (out : List ℕ) : Prop :=
  (∀ k, worth C cap k + demand C out k ≤ worth C cap₀ k) ∧
    worth C cap 0 + demand C out 0 = worth C cap₀ 0

theorem Drawn.refl (cap : ℕ → ℕ) : Drawn C cap cap [] := ⟨fun _ => by simp, by simp⟩

theorem Drawn.covers {cap₀ : ℕ → ℕ} (h : Drawn C cap₀ cap out) : Covers C cap₀ out :=
  fun k => le_trans (Nat.le_add_left _ _) (h.1 k)

theorem Drawn.trans {cap₀ cap₁ cap₂ : ℕ → ℕ} {out' : List ℕ} (h₁ : Drawn C cap₀ cap₁ out)
    (h₂ : Drawn C cap₁ cap₂ out') :
    Drawn C cap₀ cap₂ (out ++ out') := by
  refine ⟨fun k => ?_, ?_⟩
  · have := h₁.1 k
    have := h₂.1 k
    rw [demand_append]
    omega
  · have := h₁.2
    have := h₂.2
    rw [demand_append]
    omega

theorem drawn_draw {depth : ℕ} (hsize : i + depth < C.size) (hpos : 0 < cap (i + depth)) :
    Drawn C cap (draw C i depth cap) [i] := by
  refine ⟨fun k => ?_, ?_⟩
  · have hk := worth_draw C i depth cap hsize hpos k
    rw [demand_cons, demand_nil, Nat.add_zero]
    by_cases hki : k ≤ i
    · simp only [if_pos hki] at hk ⊢
      exact hk.le
    · rw [if_neg hki]
      omega
  · have hk := worth_draw C i depth cap hsize hpos 0
    exact hk

/-- A stock that covers a descending list still covers its tail after its head is drawn. -/
theorem covers_tail_of_draw {depth : ℕ} (hsize : i + depth < C.size) (hpos : 0 < cap (i + depth))
    (hle : ∀ o ∈ out, o ≤ i) (h : Covers C cap (i :: out)) : Covers C (draw C i depth cap) out := by
  intro k
  by_cases hki : k ≤ i
  · have hk := worth_draw C i depth cap hsize hpos k
    have hc := h k
    rw [demand_cons, if_pos hki] at hc
    rw [if_pos hki] at hk
    omega
  · have hnone : out.filter (k ≤ ·) = [] := by
      rw [List.filter_eq_nil_iff]
      intro o ho
      have := hle o ho
      simp only [decide_eq_true_eq]
      omega
    simp [demand, hnone]

end Inventory
