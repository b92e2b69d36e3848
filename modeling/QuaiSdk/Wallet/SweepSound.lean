import QuaiSdk.Wallet.SelectionSound

/-!
# Funding

What every selector guarantees to a caller that builds a transaction from its result: the inputs are
eligible coins of the snapshot, and they pay for the outputs and the requested fee, no more and no
less.  The fewest-input selectors have it from `SelectionSound`; here it is shown for the sweeps,
whose aggregating mode walks a window over the coins with unchecked arithmetic.
-/

namespace QuaiSdk.Wallet

open Result Denomination List

/-- Eligible inputs that pay exactly for the outputs and the requested fee. -/
structure CoinSelection.Funded (coins : List CandidateCoin) (request : SelectionRequest)
    (sel : CoinSelection) : Prop where
  eligible : ∀ coin ∈ sel.inputs, coin ∈ coins ∧ coin.Eligible request
  conserved : coinTotal sel.inputs =
    total sel.spendOutputs + total sel.changeOutputs + request.fee
  fee : sel.fee = request.fee
  feeBound : request.fee ≤ request.maxFee

variable {coins : List CandidateCoin} {request : SelectionRequest} {sel : CoinSelection}
  {start stop : ℕ} {policy : AggregationPolicy}

theorem mem_eligible {coin : CandidateCoin} :
    coin ∈ eligible request coins ↔ coin ∈ coins ∧ coin.Eligible request := by
  rw [eligible, mem_filter, decide_eq_true_iff]

theorem selectFewestInner_funded {aggregatedSpend : Bool}
    (h : selectFewestInner coins request aggregatedSpend = .ok sel) :
    sel.Funded coins request ∧ total sel.spendOutputs = request.target := by
  obtain ⟨-, -, hbounded, hchosen⟩ := selectFewestInner_spec h
  have hchange := hchosen.change
  have hvalue := hchosen.inputValue
  have hspend := hchosen.spend
  refine ⟨⟨fun coin hcoin => ?_, by omega, hchosen.fee, hbounded.1⟩, hspend⟩
  exact mem_eligible.mp (hchosen.inputs.subset hcoin)

theorem total_replicate (n : ℕ) (d : Denomination) : total (replicate n d) = n * d.value := by
  simp [total]

/-- The loop moves value into outputs; the unit coin at the end leaves nothing over. -/
theorem combineBelow_spec {maxOutputs n : ℕ} {s s' : ℕ × List Denomination}
    (h : combineBelow maxOutputs n s = .ok s') :
    s'.1 + total s'.2 = s.1 + total s.2 ∧ (0 < n → s'.1 = 0) ∧
      (s.2.length ≤ maxOutputs → s'.2.length ≤ maxOutputs) ∧
      ∀ d ∈ s'.2, d ∈ s.2 ∨ d.index < n := by
  induction n generalizing s with
  | zero =>
    cases h
    exact ⟨rfl, fun hpos => absurd hpos (lt_irrefl 0), id, fun d hd => .inl hd⟩
  | succ i ih =>
    obtain ⟨remaining, outputs⟩ := s
    simp only [combineBelow, eq_ok] at h
    obtain ⟨d, hd, room, hroom, hcount, hrest⟩ := h
    obtain ⟨-, hroom⟩ := checkedSub_eq_ok.mp hroom
    obtain ⟨hsum, hzero, hlength, hindex⟩ := ih hrest
    have hdivmod := Nat.mod_add_div' remaining d.value
    rw [total_append, total_replicate] at hsum
    dsimp only at hsum hlength hindex ⊢
    refine ⟨by omega, fun _ => ?_, fun hle => hlength ?_, fun e he => ?_⟩
    · rcases Nat.eq_zero_or_pos i with rfl | hpos
      · -- the last round divides by the unit coin
        cases hrest
        rw [value_of_index_zero (index_of_ofIndex hd), Nat.mod_one]
      · exact hzero hpos
    · rw [length_append, length_replicate]
      omega
    · rcases hindex e he with hmem | hlt
      · rcases mem_append.mp hmem with hmem | hmem
        · exact .inl hmem
        · rw [eq_of_mem_replicate hmem, index_of_ofIndex hd]
          exact .inr (Nat.lt_succ_self i)
      · exact .inr (by omega)

theorem sweepOutputs_total {maximum : Option Denomination} {s : SweepScan}
    {outputs : List Denomination} (h : sweepOutputs request maximum s = .ok outputs) :
    total outputs = s.total - request.fee := by
  cases maximum with
  | none =>
    obtain ⟨⟨out, rest⟩, hout, rfl⟩ := map_eq_ok.mp (mapError_eq_ok.mp h)
    exact (denominateAvailable_spec hout).1
  | some =>
    simp only [sweepOutputs, sweepCombine, eq_ok] at h
    obtain ⟨⟨remaining, out⟩, hout, -, hok⟩ := h
    obtain ⟨hsum, hzero, -⟩ := combineBelow_spec hout
    cases hok
    have hdone := hzero (Nat.succ_pos _)
    simp only [total_nil] at hsum hdone ⊢
    omega

theorem sweepAll_funded {maximum : Option Denomination}
    (h : sweepAll coins request maximum = .ok sel) :
    sel.Funded coins request ∧ sel.inputs = eligible request coins ∧ sel.changeOutputs = [] := by
  obtain ⟨hbounded, -, s, hinputs, -, htotal, -, hfunds, houtputs, hsel, hchange, -, hfee⟩ :=
    sweepAll_spec h
  have hvalue := sweepOutputs_total houtputs
  refine ⟨⟨fun coin hcoin => ?_, ?_, hfee, hbounded.1⟩, hsel.trans hinputs, hchange⟩
  · rw [hsel, hinputs] at hcoin
    exact mem_eligible.mp hcoin
  · rw [hsel, hchange, total_nil, ← htotal, hvalue]
    omega

theorem growAggregate_spec {wanted : ℕ} {s s' : ℕ × ℕ} (h : growAggregate wanted coins s = .ok s') :
    ∃ n, s'.1 = s.1 + coinTotal (coins.take n) ∧ s'.2 = s.2 + n := by
  induction coins generalizing s with
  | nil =>
    rw [growAggregate, ite_error_eq_ok] at h
    cases h.2
    exact ⟨0, rfl, rfl⟩
  | cons coin rest ih =>
    obtain ⟨value, stop⟩ := s
    rw [growAggregate] at h
    by_cases hmore : value < wanted
    · rw [if_pos hmore] at h
      obtain ⟨n, hvalue, hstop⟩ := ih h
      refine ⟨n + 1, ?_, ?_⟩
      · rw [hvalue, take_succ_cons, coinTotal_cons]
        omega
      · omega
    · rw [if_neg hmore] at h
      cases h
      exact ⟨0, by simp, rfl⟩

theorem shrinkAggregate_spec {total fee : ℕ} {s s' : ℕ × ℕ}
    (h : shrinkAggregate total fee coins s = .ok s') :
    ∃ n, s'.1 + coinTotal (coins.take n) = s.1 ∧ s'.2 = s.2 + n := by
  induction coins generalizing s with
  | nil =>
    simp only [shrinkAggregate, eq_ok] at h
    obtain ⟨outside, -, -, hok⟩ := h
    cases hok
    exact ⟨0, rfl, rfl⟩
  | cons coin rest ih =>
    rw [shrinkAggregate, bind_eq_ok] at h
    obtain ⟨outside, -, h⟩ := h
    by_cases hmore : outside < fee
    · rw [if_pos hmore, bind_eq_ok] at h
      obtain ⟨value', hvalue', hrest⟩ := h
      obtain ⟨hle, hsub⟩ := checkedSub_eq_ok.mp hvalue'
      obtain ⟨n, hvalue, hstart⟩ := ih hrest
      refine ⟨n + 1, ?_, ?_⟩
      · rw [take_succ_cons, coinTotal_cons]
        omega
      · omega
    · rw [if_neg hmore] at h
      cases h
      exact ⟨0, by simp, rfl⟩

def outside (start stop i : ℕ) (coins : List CandidateCoin) : List CandidateCoin :=
  coins.take (start - i) ++ coins.drop (stop - i)

variable {i : ℕ}

theorem outside_cons_in (h : start ≤ i ∧ i < stop) (coin : CandidateCoin)
    (rest : List CandidateCoin) :
    outside start stop i (coin :: rest) = outside start stop (i + 1) rest := by
  have hstart : start - i = 0 := by omega
  have hstart' : start - (i + 1) = 0 := by omega
  have hstop : stop - i = (stop - (i + 1)) + 1 := by omega
  rw [outside, outside, hstart, hstart', hstop, drop_succ_cons, take_zero, take_zero]

theorem outside_cons_out (hwindow : start ≤ stop) (h : ¬(start ≤ i ∧ i < stop))
    (coin : CandidateCoin) (rest : List CandidateCoin) :
    outside start stop i (coin :: rest) = coin :: outside start stop (i + 1) rest := by
  unfold outside
  by_cases hbefore : i < start
  · have hstart : start - i = (start - (i + 1)) + 1 := by omega
    have hstop : stop - i = (stop - (i + 1)) + 1 := by omega
    rw [hstart, hstop, take_succ_cons, drop_succ_cons, cons_append]
  · have hstart : start - i = 0 := by omega
    have hstart' : start - (i + 1) = 0 := by omega
    have hstop : stop - i = 0 := by omega
    have hstop' : stop - (i + 1) = 0 := by omega
    rw [hstart, hstart', hstop, hstop', take_zero, take_zero, drop_zero,
      drop_zero, nil_append, nil_append]

theorem feeInputs_outside (hwindow : start ≤ stop) {s s' : List CandidateCoin × ℕ}
    (h : feeInputs request start stop i coins s = .ok s') :
    ∃ added : List CandidateCoin, added.Sublist (outside start stop i coins) ∧
      s'.1 = s.1 ++ added ∧ s'.2 = s.2 + coinTotal added ∧
      (request.fee ≤ s.2 + coinTotal (outside start stop i coins) → request.fee ≤ s'.2) ∧
      (s.1.length ≤ request.maxInputs → s'.1.length ≤ request.maxInputs) := by
  induction coins generalizing i s with
  | nil =>
    cases h
    refine ⟨[], nil_sublist _, by simp, by simp, fun hfee => ?_, id⟩
    rw [outside, take_nil, drop_nil, append_nil, coinTotal_nil] at hfee
    exact hfee
  | cons coin rest ih =>
    obtain ⟨inputs, feeValue⟩ := s
    rw [feeInputs] at h
    by_cases hdone : request.fee ≤ feeValue
    · rw [if_pos hdone] at h
      cases h
      exact ⟨[], nil_sublist _, by simp, by simp, fun _ => hdone, id⟩
    rw [if_neg hdone] at h
    by_cases hinside : start ≤ i ∧ i < stop
    · rw [if_pos hinside] at h
      rw [outside_cons_in hinside]
      exact ih h
    · rw [if_neg hinside, ite_error_eq_ok] at h
      obtain ⟨hlimit, hnext⟩ := h
      rw [outside_cons_out hwindow hinside]
      obtain ⟨added, hsub, hinputs, hvalue, hfee, hbound⟩ := ih hnext
      refine ⟨coin :: added, hsub.cons_cons coin, ?_, ?_, fun hle => hfee ?_, fun hle => hbound ?_⟩
      · rw [hinputs, append_assoc]
        rfl
      · rw [hvalue, coinTotal_cons]
        omega
      · rw [coinTotal_cons] at hle
        omega
      · dsimp only at hle ⊢
        rw [length_append, length_singleton]
        omega

theorem slice_eq_ok {α : Type} {list out : List α} : slice list start stop = .ok out ↔
      (start ≤ stop ∧ stop ≤ list.length) ∧ (list.take stop).drop start = out := by
  unfold slice
  by_cases h : start ≤ stop ∧ stop ≤ list.length
  · simp [h]
  · simp [h]

/-- A window is worth what lies before its right end less what lies before its left end. -/
theorem coinTotal_window (coins : List CandidateCoin) (h : start ≤ stop) :
    coinTotal (coins.take stop) =
      coinTotal (coins.take start) + coinTotal ((coins.take stop).drop start) := by
  conv_lhs => rw [← take_append_drop start (coins.take stop), coinTotal_append,
    take_take, Nat.min_eq_left h]

theorem aggregateOrdered_spec {ordered : List CandidateCoin} {totalValue smallValue : ℕ}
    (h : aggregateOrdered ordered totalValue smallValue request policy = .ok sel) :
    (∀ coin ∈ sel.inputs, coin ∈ ordered) ∧ sel.fee = request.fee ∧ sel.changeOutputs = [] ∧
      coinTotal sel.inputs = total sel.spendOutputs + total sel.changeOutputs + request.fee := by
  simp only [aggregateOrdered, eq_ok] at h
  obtain ⟨large, -, wanted, -, ⟨grown, stop⟩, hgrow, ⟨value, start⟩, hshrink, ⟨fees, feeValue⟩, hfees,
    -, width, hwidth, room, -, -, window, hwindow, refund, hrefund, ⟨r₁, outputs₁⟩, houtputs₁,
    ⟨r₂, outputs₂⟩, houtputs₂, -, -, hsel⟩ := h
  obtain ⟨n, hgrown, hstop⟩ := growAggregate_spec hgrow
  obtain ⟨m, hshrunk, hstart⟩ := shrinkAggregate_spec hshrink
  obtain ⟨⟨hle, -⟩, rfl⟩ := slice_eq_ok.mp hwindow
  obtain ⟨added, hsub, hadded, hfeeValue, -⟩ := feeInputs_outside hle hfees
  obtain ⟨hcovered, hrefund⟩ := checkedSub_eq_ok.mp hrefund
  obtain ⟨hsum₁, hzero₁, -⟩ := combineBelow_spec houtputs₁
  obtain ⟨hsum₂, hzero₂, -⟩ := combineBelow_spec houtputs₂
  cases hsel
  simp only [Nat.zero_add, nil_append, total_nil] at *
  subst hadded hstop hstart
  have hwindowTotal := coinTotal_window ordered hle
  refine ⟨fun coin hcoin => ?_, trivial, trivial, ?_⟩
  · rcases mem_append.mp hcoin with hcoin | hcoin
    · exact (mem_append.mp (hsub.subset hcoin)).elim mem_of_mem_take mem_of_mem_drop
    · exact mem_of_mem_take (mem_of_mem_drop hcoin)
  · rw [coinTotal_append]
    omega

theorem foldlM_aggregateKeep {s s' : AggregateScan}
    (h : coins.foldlM (aggregateKeep policy) s = .ok s') :
    s'.buckets = coins.foldl Buckets.push s.buckets := by
  induction coins generalizing s with
  | nil =>
    cases h
    rfl
  | cons coin rest ih =>
    simp only [foldlM_cons, aggregateKeep, bind_eq_ok] at h
    obtain ⟨s₁, ⟨sum, -, small, -, hs₁⟩, hrest⟩ := h
    cases hs₁
    rw [ih hrest, foldl_cons]

theorem selectAggregate_funded (h : selectAggregate coins request policy = .ok sel) :
    sel.Funded coins request ∧ sel.changeOutputs = [] := by
  simp only [selectAggregate, eq_ok, not_or, not_not] at h
  obtain ⟨⟨-, hbounded⟩, -, s, hscan, -, hordered⟩ := h
  obtain ⟨-, hfold⟩ := scan_eq_ok.mp hscan
  have hbuckets : s.buckets = bucketsOf (eligible request coins) := by
    rw [foldlM_aggregateKeep hfold, foldl_push]
    rfl
  obtain ⟨hmem, hfee, hchange, hconserved⟩ := aggregateOrdered_spec hordered
  refine ⟨⟨fun coin hcoin => ?_, hconserved, hfee, hbounded.1⟩, hchange⟩
  have hin := hmem coin hcoin
  rw [hbuckets] at hin
  exact mem_eligible.mp ((ordered_perm _).mem_iff.mp hin)

def SweepMode.SpendsAll : SweepMode → Prop
  | .aggregateThreshold _ => False
  | .preserveDenominations => True
  | .aggregate _ => True

theorem selectSweep_funded {mode : SweepMode} (h : selectSweep coins request mode = .ok sel) :
    sel.Funded coins request ∧ sel.changeOutputs = [] ∧
      (mode.SpendsAll → sel.inputs = eligible request coins) := by
  cases mode with
  | aggregateThreshold =>
    obtain ⟨hfunded, hchange⟩ := selectAggregate_funded h
    exact ⟨hfunded, hchange, False.elim⟩
  | preserveDenominations | aggregate =>
    obtain ⟨hfunded, hall, hchange⟩ := sweepAll_funded h
    exact ⟨hfunded, hchange, fun _ => hall⟩

end QuaiSdk.Wallet
