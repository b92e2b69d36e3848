import QuaiSdk.Lib.Method
import QuaiSdk.Wallet.SelectionSound

/-!
# Converging on a fee

`select_with_fee`: the coins are validated once, then chosen anew for each larger fee until the
estimator's quote is covered.  The estimator is the caller's and may keep state of its own.
-/

namespace QuaiSdk.Wallet

open Result

variable {σ : Type}

abbrev Estimator (σ : Type) := CoinSelection → Method SelectionError σ ℕ

/-- The rounds of `select_with_fee` that are left, at a fee. -/
def feeRounds (buckets : Buckets) (request : SelectionRequest) (estimate : Estimator σ) :
    ℕ → ℕ → Method SelectionError σ CoinSelection
  | 0, _ => Method.fail .feeDidNotConverge
  | rounds + 1, fee => do
    let current := { request with fee }
    let required ← Method.lift (okOr (checkedAdd current.target current.fee) .overflow)
    let selection ← Method.lift (choose buckets current required false)
    let quoted ← estimate selection
    if quoted ≤ current.fee then pure selection
    else if request.maxFee < quoted then Method.fail .feeBudgetExceeded
    else feeRounds buckets request estimate rounds quoted

def selectWithFee (coins : List CandidateCoin) (request : SelectionRequest) (maxRounds : ℕ)
    (estimate : Estimator σ) : Method SelectionError σ CoinSelection :=
  if ¬(1 ≤ maxRounds ∧ maxRounds ≤ 32) then Method.fail .invalidRequest
  else do
    Method.lift (validateRequest request)
    let buckets ← Method.lift (validateAndBucket coins request)
    feeRounds buckets request estimate maxRounds request.fee

def Estimator.recorded (estimate : Estimator σ) :
    Estimator (σ × List (CoinSelection × Except SelectionError ℕ)) :=
  fun selection (s, calls) =>
    let (answer, s') := estimate selection s
    (answer, s', calls ++ [(selection, answer)])

/-- The calls of a run that returned a selection: all quotes but the last were too high. -/
structure Converged (sel : CoinSelection)
    (calls : List (CoinSelection × Except SelectionError ℕ)) : Prop where
  last : ∃ earlier quoted, calls = earlier ++ [(sel, .ok quoted)] ∧ quoted ≤ sel.fee ∧
    ∀ call ∈ earlier, ∃ higher, call.2 = .ok higher ∧ call.1.fee < higher

theorem Converged.cons {sel selection : CoinSelection} {quoted : ℕ}
    {calls : List (CoinSelection × Except SelectionError ℕ)} (hquoted : selection.fee < quoted)
    (h : Converged sel calls) : Converged sel ((selection, .ok quoted) :: calls) := by
  obtain ⟨earlier, lastQuote, rfl, hlast, hearlier⟩ := h.last
  refine ⟨(selection, .ok quoted) :: earlier, lastQuote, rfl, hlast, ?_⟩
  exact List.forall_mem_cons.mpr ⟨⟨quoted, rfl, hquoted⟩, hearlier⟩

theorem feeRounds_eq_ok {buckets : Buckets} {request : SelectionRequest} {estimate : Estimator σ}
    {rounds fee : ℕ} {s s' : σ} {sel : CoinSelection} (hfee : fee ≤ request.maxFee)
    (h : feeRounds buckets request estimate rounds fee s = (.ok sel, s'))
    (before : List (CoinSelection × Except SelectionError ℕ)) :
    (fee ≤ sel.fee ∧ sel.fee ≤ request.maxFee) ∧
    choose buckets { request with fee := sel.fee } (request.target + sel.fee) false = .ok sel ∧
    request.target + sel.fee < 2 ^ 256 ∧
    ∃ calls, feeRounds buckets request estimate.recorded rounds fee (s, before) =
        (.ok sel, (s', before ++ calls)) ∧ calls.length ≤ rounds ∧ Converged sel calls := by
  induction rounds generalizing fee s before with
  | zero => cases h
  | succ rounds ih =>
    obtain ⟨required, hrequired, hafter⟩ := Method.lift_bind_eq_ok.mp h
    obtain ⟨selection, hchoose, hafter⟩ := Method.lift_bind_eq_ok.mp hafter
    obtain ⟨quoted, s₁, hquoted, hafter⟩ := Method.bind_eq_ok.mp hafter
    have hown : selection.fee = fee := by
      simp only [choose, eq_ok] at hchoose
      obtain ⟨inputs, -, -, spent, -, changed, -, -, hsel⟩ := hchoose
      cases hsel
      rfl
    obtain ⟨hsum, hbound⟩ := checkedAdd_eq_some (okOr_eq_ok.mp hrequired)
    rw [hsum] at hbound
    -- the same round of the recorded estimator
    have hrecorded : feeRounds buckets request estimate.recorded (rounds + 1) fee (s, before) =
        (if quoted ≤ fee then pure selection
          else if request.maxFee < quoted then Method.fail .feeBudgetExceeded
          else feeRounds buckets request estimate.recorded rounds quoted)
          (s₁, before ++ [(selection, .ok quoted)]) := by
      rw [feeRounds]
      rw [hrequired]
      show (Method.lift (choose buckets { request with fee } required false) >>= _) _ = _
      rw [hchoose]
      show (estimate.recorded selection >>= _) _ = _
      simp only [Method.bind_apply, Estimator.recorded, hquoted]
    rw [hrecorded]
    by_cases hcovered : quoted ≤ fee
    · rw [if_pos hcovered, Method.pure_eq_ok] at hafter
      obtain ⟨rfl, rfl⟩ := hafter
      rw [hsum] at hchoose
      rw [if_pos hcovered, hown]
      refine ⟨⟨le_rfl, hfee⟩, hchoose, hbound, [(selection, .ok quoted)], rfl, ?_, ?_⟩
      · rw [List.length_singleton]
        omega
      · refine ⟨[], quoted, rfl, ?_, fun call hcall => absurd hcall List.not_mem_nil⟩
        rw [hown]
        exact hcovered
    · rw [if_neg hcovered, Method.ite_fail_eq_ok] at hafter
      obtain ⟨hbudget, hrest⟩ := hafter
      rw [if_neg hcovered, if_neg hbudget]
      obtain ⟨⟨hlow, hhigh⟩, hfinal, hamount, calls, hcalls, hlength, hconverged⟩ :=
        ih (not_lt.mp hbudget) hrest (before ++ [(selection, .ok quoted)])
      refine ⟨⟨by omega, hhigh⟩, hfinal, hamount, (selection, .ok quoted) :: calls, ?_, ?_, ?_⟩
      · rw [hcalls, List.append_assoc]
        rfl
      · rw [List.length_cons]
        omega
      · exact hconverged.cons (by rw [hown]; omega)

theorem validateAndBucket_fee (coins : List CandidateCoin) (request : SelectionRequest)
    (fee : ℕ) : validateAndBucket coins { request with fee } = validateAndBucket coins request := by
  have hscan : ∀ (coins : List CandidateCoin) (seen : List OutPoint) (buckets : Buckets),
      scan { request with fee } (fun buckets coin => .ok (buckets.push coin)) coins seen buckets =
        scan request (fun buckets coin => .ok (buckets.push coin)) coins seen buckets := by
    intro coins
    induction coins with
    | nil => exact fun _ _ => rfl
    | cons coin rest ih =>
      intro seen buckets
      rw [scan, scan]
      simp only [ok_bind, ih]
      rfl
  rw [validateAndBucket, validateAndBucket, hscan]

/-- Whatever the estimator answers, a returned selection is what a fresh selection at its fee gives,
the fee stays between the request's and its maximum, and the rounds end with the first quote that is
covered. -/
theorem selectWithFee_converged (coins : List CandidateCoin) (request : SelectionRequest)
    (maxRounds : ℕ) (estimate : Estimator σ) (s s' : σ) (sel : CoinSelection)
    (h : selectWithFee coins request maxRounds estimate s = (.ok sel, s')) :
    selectFewest coins { request with fee := sel.fee } = .ok sel ∧
    request.fee ≤ sel.fee ∧ sel.fee ≤ request.maxFee ∧
    ∃ calls, selectWithFee coins request maxRounds estimate.recorded (s, []) =
        (.ok sel, (s', calls)) ∧ calls.length ≤ maxRounds ∧
      ∃ earlier quoted, calls = earlier ++ [(sel, .ok quoted)] ∧ quoted ≤ sel.fee ∧
        ∀ call ∈ earlier, ∃ higher, call.2 = .ok higher ∧ call.1.fee < higher := by
  unfold selectWithFee at h ⊢
  rw [Method.ite_fail_eq_ok] at h
  obtain ⟨hrounds, h⟩ := h
  obtain ⟨u, hvalid, hafter⟩ := Method.lift_bind_eq_ok.mp h
  obtain ⟨buckets, hbuckets, hrun⟩ := Method.lift_bind_eq_ok.mp hafter
  have hrequest := hvalid
  rw [validateRequest, ite_error_eq_ok, not_or, not_not] at hrequest
  obtain ⟨⟨htarget, hbounded⟩, -⟩ := hrequest
  obtain ⟨⟨hlow, hhigh⟩, hchoose, hamount, calls, hcalls, hlength, hconverged⟩ :=
    feeRounds_eq_ok hbounded.1 hrun []
  refine ⟨?_, hlow, hhigh, calls, ?_, hlength, hconverged.last⟩
  · have hcurrent : validateRequest { request with fee := sel.fee } = .ok () := by
      rw [validateRequest, if_neg]
      rw [not_or, not_not]
      exact ⟨htarget, hhigh, hbounded.2⟩
    rw [selectFewest, selectFewestInner, hcurrent, ok_bind]
    rw [checkedAdd, if_pos hamount, okOr_some, ok_bind, validateAndBucket_fee, hbuckets, ok_bind]
    exact hchoose
  · rw [if_neg hrounds, hvalid]
    rw [hbuckets]
    exact hcalls

def perItem : Estimator ℕ := fun selection asked =>
  (.ok (selection.inputs.length + selection.spendOutputs.length), asked + 1)

def unpricedQits : SelectionRequest := { sixtyFiveQits with fee := 0, maxFee := 9 }

theorem selectWithFee_converged_unpriced :
    ∃ sel, selectWithFee [hundredQits 0, hundredQits 1] unpricedQits 4 perItem 0 = (.ok sel, 2) ∧
      selectFewest [hundredQits 0, hundredQits 1] { unpricedQits with fee := sel.fee } = .ok sel ∧
      sel.fee = 4 := by
  obtain ⟨sel, hsel, hfee⟩ :
      ∃ sel, selectWithFee [hundredQits 0, hundredQits 1] unpricedQits 4 perItem 0 =
        (.ok sel, 2) ∧ sel.fee = 4 := ⟨_, rfl, rfl⟩
  exact ⟨sel, hsel, (selectWithFee_converged _ _ _ perItem 0 2 sel hsel).1, hfee⟩

end QuaiSdk.Wallet
