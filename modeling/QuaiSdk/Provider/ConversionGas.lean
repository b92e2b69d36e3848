import QuaiSdk.Provider.ZoneHeader
import QuaiSdk.Wallet.Denominate

/-!
# Gas of a conversion

The budget for the outputs of a Quai-to-Qi conversion.  It is computed from the radix of each
denomination and covers the decomposition of every amount that the settlement may come down to.
-/

namespace QuaiSdk.Provider

open Result Denomination Wallet

/-- The bound on one digit of a greedy decomposition; the last one has no radix. -/
def outputDigit (quote i : ℕ) : ℕ :=
  match values[i + 1]? with
  | some next => min (quote / unit i) (next / unit i - 1)
  | none => quote / unit i

/-- The loop of `conversion_output_bound`, over the first denominations. -/
def countOutputs (quote : ℕ) : ℕ → Except ProviderError ℕ
  | 0 => .ok 0
  | i + 1 => do
    let count ← countOutputs quote i
    let digit := outputDigit quote i
    if 2 ^ 64 ≤ digit then .error (.invalidResult "conversion output bound overflow")
    else okOr (checkedAddU64 count digit) (.invalidResult "conversion output bound overflow")

def conversionOutputBound (quote : ℕ) : Except ProviderError ℕ := do
  let count ← countOutputs quote values.length
  if 65535 < count then .error (.invalidResult "conversion output bound exceeds node limit")
  else .ok count

def destinationGas (outputs : ℕ) : ℕ := 21000 + 9000 * outputs

def originGas (data : Bytes) : ℕ := 42000 + (data.map fun b => if b = 0 then 4 else 16).sum

def conversionGasBudget (estimate quote : ℕ) (data : Bytes) : Except ProviderError ℕ := do
  let outputs ← conversionOutputBound quote
  okOr (checkedAddU64 (max estimate (destinationGas outputs)) (originGas data))
    (.invalidResult "conversion gas budget overflow")

theorem countOutputs_eq_ok {quote n c : ℕ} (h : countOutputs quote n = .ok c) :
    c = ((List.range n).map (outputDigit quote)).sum := by
  induction n generalizing c with
  | zero =>
    cases h
    rfl
  | succ n ih =>
    simp only [countOutputs, eq_ok, checkedAddU64] at h
    obtain ⟨count, hcount, -, h⟩ := h
    split at h
    · cases h
      rw [List.range_succ, List.map_append, List.sum_append, ← ih hcount, List.map_singleton,
        List.sum_singleton]
    · cases h

theorem conversionOutputBound_eq_ok {quote c : ℕ} (h : conversionOutputBound quote = .ok c) :
    c = ((List.range 15).map (outputDigit quote)).sum ∧ c ≤ 65535 := by
  simp only [conversionOutputBound, eq_ok, not_lt] at h
  obtain ⟨count, hcount, hle, rfl⟩ := h
  exact ⟨countOutputs_eq_ok hcount, hle⟩

theorem outputDigit_mono {quote quote' : ℕ} (h : quote ≤ quote') (i : ℕ) :
    outputDigit quote i ≤ outputDigit quote' i := by
  have hdiv := Nat.div_le_div_right (c := unit i) h
  unfold outputDigit
  split <;> omega

/-- How many outputs the greedy decomposition has in the first denominations. -/
def greedyOutputs : ℕ → ℕ → ℕ
  | 0, _ => 0
  | i + 1, a => a / unit i + greedyOutputs i (a % unit i)

theorem digit_le {i quote a : ℕ} (hi : i < 15) (ha : a ≤ quote)
    (hlt : ∀ next ∈ values[i + 1]?, a < next) : a / unit i ≤ outputDigit quote i := by
  have hdiv := Nat.div_le_div_right (c := unit i) ha
  unfold outputDigit
  split
  · rename_i next hnext
    have hdvd : unit i ∣ next :=
      (by decide : ∀ i < 15, ∀ next ∈ values[i + 1]?, unit i ∣ next) i hi next hnext
    have hradix : a / unit i < next / unit i := Nat.div_lt_div_of_lt_of_dvd hdvd (hlt next hnext)
    omega
  · exact hdiv

theorem greedyOutputs_le {quote n a : ℕ} (hn : n ≤ 15) (ha : a ≤ quote)
    (hlt : ∀ next ∈ values[n]?, a < next) :
    greedyOutputs n a ≤ ((List.range n).map (outputDigit quote)).sum := by
  induction n generalizing a with
  | zero => exact le_rfl
  | succ i ih =>
    have hrest : a % unit i ≤ quote := (Nat.mod_le _ _).trans ha
    have hbelow : ∀ next ∈ values[i]?, a % unit i < next := by
      intro next hnext
      have hunit : unit i = next := by
        rw [unit, List.getD_eq_getElem?_getD, Option.mem_def.mp hnext, Option.getD_some]
      rw [← hunit]
      exact Nat.mod_lt _ (chain.pos i hn)
    have hsum := ih (by omega) hrest hbelow
    have hdigit := digit_le hn ha hlt
    rw [greedyOutputs, List.range_succ, List.map_append, List.sum_append, List.map_singleton,
      List.sum_singleton]
    omega

theorem largestUnit_room {d : Denomination} {maxOutputs n value : ℕ} {result : List Denomination}
    (hvalue : n * d.value ≤ value) (hroom : result.length + n ≤ maxOutputs) :
    largestUnit d maxOutputs n (value, result) =
      .ok (value - n * d.value, result ++ List.replicate n d) := by
  induction n generalizing value result with
  | zero => simp [largestUnit]
  | succ n ih =>
    rw [Nat.succ_mul] at hvalue ⊢
    have hlength : (result ++ [d]).length + n ≤ maxOutputs := by
      rw [List.length_append, List.length_singleton]
      omega
    rw [largestUnit, if_neg (by omega), if_neg (by omega), ih (by omega) hlength, List.append_assoc,
      List.singleton_append, ← List.replicate_succ, Nat.sub_sub, Nat.add_comm d.value]

/-- With room for all digits the loop goes through. -/
theorem largestBelow_room {maxOutputs n value : ℕ} {result : List Denomination} (hn : n ≤ 15)
    (hroom : result.length + greedyOutputs n value ≤ maxOutputs) :
    ∃ s, largestBelow maxOutputs n (value, result) = .ok s ∧ (0 < n → s.1 = 0) := by
  induction n generalizing value result with
  | zero => exact ⟨(value, result), rfl, nofun⟩
  | succ i ih =>
    have hi : i < 15 := hn
    rw [greedyOutputs] at hroom
    have hmod : value - value / unit i * unit i = value % unit i := by
      rw [Nat.mod_eq_sub, Nat.mul_comm]
    rw [largestBelow, ofIndex, dif_pos hi, okOr_some, ok_bind,
      largestUnit_room (Nat.div_mul_le_self _ _) (by show _ + value / unit i ≤ _; omega), ok_bind]
    change ∃ s, largestBelow maxOutputs i (value - value / unit i * unit i, _) = .ok s ∧ _
    rw [hmod]
    have hrest : (result ++ List.replicate (value / unit i) (⟨i, hi⟩ : Denomination)).length +
        greedyOutputs i (value % unit i) ≤ maxOutputs := by
      rw [List.length_append, List.length_replicate]
      omega
    obtain ⟨s, hs, hzero⟩ := ih (by omega) hrest
    refine ⟨s, hs, fun _ => ?_⟩
    cases i with
    | zero =>
      cases hs
      exact Nat.mod_one value
    | succ i => exact hzero (Nat.succ_pos i)

theorem denominateLargest_room {a c : ℕ} (h : greedyOutputs 15 a ≤ c) :
    ∃ out, denominateLargest a c = .ok out ∧ out.length ≤ c := by
  have hroom : ([] : List Denomination).length + greedyOutputs 15 a ≤ c := by
    rwa [List.length_nil, Nat.zero_add]
  obtain ⟨s, hs, hzero⟩ := largestBelow_room le_rfl hroom
  have hout : denominateLargest a c = .ok s.2 := by
    rw [denominateLargest, hs, ok_bind, if_neg (not_not.mpr (hzero (by decide)))]
  exact ⟨s.2, hout, (denominateLargest_spec hout).2⟩

theorem originGas_le (data : Bytes) : originGas data ≤ 42000 + 16 * data.length := by
  unfold originGas
  induction data with
  | nil => exact le_rfl
  | cons b data ih =>
    rw [List.map_cons, List.sum_cons, List.length_cons]
    split <;> omega

/-- The bound covers every amount up to the quote, and the budget its gas; no sum leaves 64 bits. -/
theorem conversion_budget_covers {quote c : ℕ} (h : conversionOutputBound quote = .ok c) :
    (∀ a ≤ quote, ∃ out, denominateLargest a c = .ok out ∧ out.length ≤ c) ∧
    (∀ quote' c', quote ≤ quote' → conversionOutputBound quote' = .ok c' → c ≤ c') ∧
    destinationGas c < 2 ^ 64 ∧
    ∀ estimate data,
      (data.length ≤ maxRpcDataBytes → originGas data < 2 ^ 64) ∧
      ∀ g, conversionGasBudget estimate quote data = .ok g →
        originGas data ≤ g ∧ g < 2 ^ 64 ∧ estimate ≤ g - originGas data ∧
        ∀ a ≤ quote, ∀ out, denominateLargest a c = .ok out →
          21000 + 9000 * out.length ≤ g - originGas data := by
  obtain ⟨hsum, hlimit⟩ := conversionOutputBound_eq_ok h
  refine ⟨?_, ?_, ?_, ?_⟩
  · intro a ha
    apply denominateLargest_room
    rw [hsum]
    exact greedyOutputs_le le_rfl ha nofun
  · intro quote' c' hle h'
    rw [hsum, (conversionOutputBound_eq_ok h').1]
    exact List.sum_le_sum fun i _ => outputDigit_mono hle i
  · unfold destinationGas
    omega
  · intro estimate data
    have horigin := originGas_le data
    refine ⟨?_, ?_⟩
    · unfold maxRpcDataBytes
      omega
    · intro g hg
      simp only [conversionGasBudget, h, ok_bind, okOr_eq_ok, checkedAddU64] at hg
      split at hg
      · cases hg
        refine ⟨by omega, by omega, by omega, ?_⟩
        intro a _ out hout
        have hlength := (denominateLargest_spec hout).2
        unfold destinationGas
        omega
      · cases hg

/-- A quote of 387060 Qits that settles at 386286. -/
theorem conversion_budget_covers_orchard :
    conversionOutputBound 387060 = .ok 28 ∧
      (∃ out, denominateLargest 386286 28 = .ok out ∧ out.length ≤ 28) ∧
      conversionGasBudget 129000 387060 [0, 100] = .ok 315020 := by
  have hbound : conversionOutputBound 387060 = .ok 28 := by decide +kernel
  exact ⟨hbound, (conversion_budget_covers hbound).1 386286 (by decide), by decide +kernel⟩

end QuaiSdk.Provider
