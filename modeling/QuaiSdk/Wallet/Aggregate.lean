import QuaiSdk.Wallet.Fewest
import QuaiSdk.Wallet.SweepSound

/-!
# The aggregation window

`select_aggregate` walks a window over the ascending coins.  Its right end stops inside the small
coins and its left end stops before it, so no index leaves the list, no subtraction goes below zero,
and what is outside the window pays the fee.
-/

namespace QuaiSdk.Wallet

open Result Denomination FailsWith List Nat AggregationPolicy

variable {request : SelectionRequest} {ordered coins : List CandidateCoin} {start stop i : ℕ}
  {policy : AggregationPolicy} {s : AggregateScan}

theorem take_small (h : ordered.Pairwise fun a b => a.value ≤ b.value) (d : Denomination) :
    ordered.take (ordered.filter fun coin => decide (coin.denomination.index ≤ d.index)).length =
      ordered.filter fun coin => decide (coin.denomination.index ≤ d.index) := by
  induction ordered with
  | nil => rfl
  | cons coin rest ih =>
    obtain ⟨hfirst, hrest⟩ := pairwise_cons.mp h
    by_cases hsmall : coin.denomination.index ≤ d.index
    · rw [filter_cons, if_pos (decide_eq_true hsmall), length_cons, take_succ_cons, ih hrest]
    · -- nothing behind a large coin is small
      have hnone : (coin :: rest).filter
          (fun coin => decide (coin.denomination.index ≤ d.index)) = [] := by
        rw [filter_eq_nil_iff]
        intro c hc hindex
        rw [decide_eq_true_eq] at hindex
        rcases mem_cons.mp hc with rfl | hc
        · exact hsmall hindex
        · exact absurd (hfirst c hc) (not_le.mpr (value_lt_of_index_lt (by omega)))
      rw [hnone, length_nil, take_zero]

theorem growAggregate_of_le {wanted value stop k : ℕ} {coins : List CandidateCoin}
    (h : wanted ≤ value + coinTotal (coins.take k)) :
    ∃ n ≤ k, n ≤ coins.length ∧ growAggregate wanted coins (value, stop) =
        .ok (value + coinTotal (coins.take n), stop + n) := by
  induction coins generalizing value stop k with
  | nil =>
    rw [take_nil, coinTotal_nil, add_zero] at h
    refine ⟨0, zero_le k, le_rfl, ?_⟩
    rw [growAggregate, if_neg (not_lt.mpr h)]
    rfl
  | cons coin rest ih =>
    rw [growAggregate]
    by_cases hmore : value < wanted
    · cases k with
      | zero =>
        rw [take_zero, coinTotal_nil] at h
        omega
      | succ k =>
        rw [take_succ_cons, coinTotal_cons, ← add_assoc] at h
        obtain ⟨n, hle, hlength, hgrow⟩ := @ih (value + coin.value) (stop + 1) k h
        refine ⟨n + 1, succ_le_succ hle, succ_le_succ hlength, ?_⟩
        rw [if_pos hmore, hgrow, take_succ_cons, coinTotal_cons, add_assoc,
          add_assoc stop, add_comm 1]
    · refine ⟨0, zero_le k, zero_le _, ?_⟩
      rw [if_neg hmore, take_zero, coinTotal_nil, add_zero, add_zero]

/-- The second loop ends within the window: an empty one leaves the whole total for the fee. -/
theorem shrinkAggregate_of_le {total fee start n : ℕ} {coins : List CandidateCoin}
    (hvalue : coinTotal (coins.take n) ≤ total) (hfee : fee ≤ total) (hlength : n ≤ coins.length) :
    ∃ m ≤ n, fee + coinTotal ((coins.take n).drop m) ≤ total ∧
      shrinkAggregate total fee coins (coinTotal (coins.take n), start) =
        .ok (coinTotal ((coins.take n).drop m), start + m) := by
  induction coins generalizing start n with
  | nil =>
    rw [take_nil] at hvalue ⊢
    refine ⟨0, zero_le n, hfee, ?_⟩
    rw [shrinkAggregate, checkedSub, if_pos hvalue, ok_bind, if_neg (by rw [coinTotal_nil]; omega)]
    rfl
  | cons coin rest ih =>
    rw [shrinkAggregate, checkedSub, if_pos hvalue, ok_bind]
    by_cases hmore : total - coinTotal ((coin :: rest).take n) < fee
    · cases n with
      | zero =>
        rw [take_zero, coinTotal_nil] at hmore
        omega
      | succ n =>
        rw [take_succ_cons, coinTotal_cons] at hvalue hmore ⊢
        obtain ⟨m, hle, henough, hshrink⟩ := @ih (start + 1) n (by omega)
          (le_of_succ_le_succ hlength)
        refine ⟨m + 1, succ_le_succ hle, ?_, ?_⟩
        · exact henough
        · rw [if_pos hmore, checkedSub, if_pos (le_add_right _ _), ok_bind,
            Nat.add_sub_cancel_left, hshrink, drop_succ_cons, Nat.add_assoc, Nat.add_comm 1]
    · refine ⟨0, Nat.zero_le n, ?_, ?_⟩
      · rw [drop_zero]
        omega
      · rw [if_neg hmore, drop_zero]
        rfl

theorem feeInputs_fails (request : SelectionRequest) (start stop i : ℕ)
    (coins : List CandidateCoin) (s : List CandidateCoin × ℕ) :
    FailsWith (· = SelectionError.limitExceeded) (feeInputs request start stop i coins s) := by
  induction coins generalizing i s with
  | nil => exact ok s
  | cons coin rest ih =>
    refine ite (ok _) (ite (ih _ _) ?_)
    exact ite (error rfl) (ih _ _)

theorem outside_append_window_perm (h : start ≤ stop) (coins : List CandidateCoin) :
    (outside start stop 0 coins ++ (coins.take stop).drop start).Perm coins := by
  have hsplit : coins = coins.take start ++ ((coins.take stop).drop start ++ coins.drop stop) := by
    conv_lhs => rw [← take_append_drop stop coins, ← take_append_drop start (coins.take stop),
      take_take, min_eq_left h, append_assoc]
  conv_rhs => rw [hsplit]
  rw [outside, Nat.sub_zero, Nat.sub_zero, append_assoc]
  exact List.Perm.append_left _ perm_append_comm

/-- Combining keeps within the output bound, so its subtraction never goes below zero. -/
theorem combineBelow_fails {maxOutputs n : ℕ} (hn : n ≤ 15) {s : ℕ × List Denomination}
    (hlength : s.2.length ≤ maxOutputs) :
    FailsWith (· = Fault.returned .limitExceeded) (combineBelow maxOutputs n s) := by
  induction n generalizing s with
  | zero => exact ok s
  | succ i ih =>
    obtain ⟨remaining, outputs⟩ := s
    have hi : i < 15 := hn
    rw [combineBelow, ofIndex, dif_pos hi, okOr_some, ok_bind]
    rw [checkedSub, if_pos hlength, ok_bind]
    split
    · exact error rfl
    · refine ih (by omega) ?_
      rw [length_append, length_replicate]
      dsimp only at hlength
      omega

def AggregationPolicy.small (policy : AggregationPolicy) (coins : List CandidateCoin) :
    List CandidateCoin :=
  coins.filter fun coin => decide (coin.denomination.index ≤ policy.maximumInput.index)

structure Window (ordered : List CandidateCoin) (request : SelectionRequest)
    (policy : AggregationPolicy) (start stop : ℕ) : Prop where
  found : ∃ grown,
    growAggregate (coinTotal (policy.small ordered) -
        (request.fee - (coinTotal ordered - coinTotal (policy.small ordered)))) ordered (0, 0) =
      .ok (grown, stop) ∧
    shrinkAggregate (coinTotal ordered) request.fee ordered (grown, 0) =
      .ok (coinTotal ((ordered.take stop).drop start), start)
  le : start ≤ stop
  length : stop ≤ ordered.length
  small : ∀ coin ∈ (ordered.take stop).drop start,
    coin.denomination.index ≤ policy.maximumInput.index
  fee : request.fee ≤ coinTotal (outside start stop 0 ordered)

theorem coinTotal_small_le (policy : AggregationPolicy) (coins : List CandidateCoin) :
    coinTotal (policy.small coins) ≤ coinTotal coins := by
  induction coins with
  | nil => exact le_rfl
  | cons coin rest ih =>
    unfold small at ih ⊢
    rw [filter_cons]
    split
    · rw [coinTotal_cons, coinTotal_cons]
      omega
    · rw [coinTotal_cons]
      omega

theorem exists_window (hordered : ordered.Pairwise fun a b => a.value ≤ b.value)
    (policy : AggregationPolicy) (hfee : request.fee < coinTotal ordered) :
    ∃ start stop, Window ordered request policy start stop := by
  have hfront := take_small hordered policy.maximumInput
  obtain ⟨stop, hle, hlength, hgrow⟩ := @growAggregate_of_le (coinTotal (policy.small ordered) -
      (request.fee - (coinTotal ordered - coinTotal (policy.small ordered)))) 0 0
    (policy.small ordered).length ordered (by
      rw [small, hfront]
      omega)
  have hwhole : coinTotal (ordered.take stop) ≤ coinTotal ordered := by
    conv_rhs => rw [← take_append_drop stop ordered, coinTotal_append]
    omega
  obtain ⟨start, hstart, henough, hshrink⟩ := @shrinkAggregate_of_le (coinTotal ordered)
    request.fee 0 stop ordered hwhole hfee.le hlength
  rw [zero_add, zero_add] at hgrow
  rw [zero_add] at hshrink
  refine ⟨start, stop, ⟨_, hgrow, hshrink⟩, hstart, hlength, fun coin hcoin => ?_, ?_⟩
  · have hmem : coin ∈ ordered.take (policy.small ordered).length :=
      (take_sublist_take_left hle).subset (mem_of_mem_drop hcoin)
    rw [small, hfront] at hmem
    exact of_decide_eq_true (mem_filter.mp hmem).2
  · have hall := coinTotal_perm (outside_append_window_perm hstart ordered)
    rw [coinTotal_append] at hall
    omega

structure Aggregated (ordered : List CandidateCoin) (request : SelectionRequest)
    (policy : AggregationPolicy) (sel : CoinSelection) : Prop where
  inputs : ∃ start stop fees feeValue, Window ordered request policy start stop ∧
    feeInputs request start stop 0 ordered ([], 0) = .ok (fees, feeValue) ∧
    sel.inputs = fees ++ (ordered.take stop).drop start
  subperm : sel.inputs.Subperm ordered
  inputValue : coinTotal sel.inputs = sel.inputValue
  conserved : sel.inputValue = total sel.spendOutputs + request.fee
  fee : sel.fee = request.fee
  change : sel.changeOutputs = []
  outputs : ∀ d ∈ sel.spendOutputs, d.index ≤ policy.maximumOutput.index
  reduction : policy.requireReduction = true → sel.spendOutputs.length < sel.inputs.length

theorem aggregateOrdered_fails (hordered : ordered.Pairwise fun a b => a.value ≤ b.value)
    (policy : AggregationPolicy) (hfee : request.fee < coinTotal ordered) :
    FailsWith (fun e => e = Fault.returned .limitExceeded ∨ e = Fault.returned .invalidRequest)
      (aggregateOrdered ordered (coinTotal ordered) (coinTotal (policy.small ordered)) request
        policy) := by
  obtain ⟨start, stop, hwindow⟩ := exists_window hordered policy hfee
  obtain ⟨grown, hgrow, hshrink⟩ := hwindow.found
  have hsmall := coinTotal_small_le policy ordered
  unfold aggregateOrdered
  rw [checkedSub, if_pos hsmall, ok_bind, checkedSub, if_pos (by omega), ok_bind, hgrow, ok_bind]
  dsimp only
  rw [hshrink, ok_bind]
  refine bind_of_ok ?_ fun s hfees => ?_
  · exact mapError_of (feeInputs_fails _ _ _ _ _ _) fun _ he => .inl (congrArg Fault.returned he)
  obtain ⟨fees, feeValue⟩ := s
  obtain ⟨added, -, hadded, -, henough, hbound⟩ :=
    feeInputs_outside hwindow.le (mapError_eq_ok.mp hfees)
  have hcovered : request.fee ≤ feeValue := henough (by
    rw [zero_add]
    exact hwindow.fee)
  have hroom : fees.length ≤ request.maxInputs := hbound (zero_le _)
  rw [if_neg (not_lt.mpr hcovered), checkedSub, if_pos hwindow.le, ok_bind, checkedSub,
    if_pos hroom, ok_bind]
  refine ite (error (.inl rfl)) ?_
  rw [slice_eq_ok.mpr ⟨⟨hwindow.le, hwindow.length⟩, rfl⟩, ok_bind, checkedSub, if_pos hcovered,
    ok_bind]
  have hindex : policy.maximumOutput.index + 1 ≤ 15 := policy.maximumOutput.isLt
  refine bind_of_ok
    (fun e he => .inl (combineBelow_fails hindex (zero_le _) e he)) fun s₁ hfirst => ?_
  have hlength := (combineBelow_spec hfirst).2.2.1 (zero_le _)
  refine bind (fun e he => .inl (combineBelow_fails
    (s := (feeValue - request.fee, s₁.2)) hindex hlength e he)) fun s₂ => ?_
  exact ite (error (.inr rfl)) (ite (error (.inl rfl)) (ok _))

theorem aggregateOrdered_aggregated (hordered : ordered.Pairwise fun a b => a.value ≤ b.value)
    (hfee : request.fee < coinTotal ordered) {sel : CoinSelection}
    (h : aggregateOrdered ordered (coinTotal ordered)
      (coinTotal (policy.small ordered)) request policy = .ok sel) :
    Aggregated ordered request policy sel := by
  obtain ⟨start, stop, hwindow⟩ := exists_window hordered policy hfee
  obtain ⟨grown, hgrow, hshrink⟩ := hwindow.found
  obtain ⟨-, hfeeEq, hchange, hconserved⟩ := aggregateOrdered_spec h
  have hsmall := coinTotal_small_le policy ordered
  unfold aggregateOrdered at h
  rw [checkedSub, if_pos hsmall, ok_bind, checkedSub, if_pos (by omega), ok_bind, hgrow,
    ok_bind] at h
  dsimp only at h
  rw [hshrink, ok_bind] at h
  simp only [eq_ok] at h
  obtain ⟨⟨fees, feeValue⟩, hfees, -, width, -, room, -, -, window, hslice, refund, -,
    ⟨r₁, outputs₁⟩, houtputs₁, ⟨r₂, outputs₂⟩, houtputs₂, hpolicy, -, hsel⟩ := h
  obtain ⟨-, rfl⟩ := slice_eq_ok.mp hslice
  obtain ⟨added, hsub, hadded, hfeeValue, -, -⟩ := feeInputs_outside hwindow.le hfees
  rw [zero_add] at hfeeValue
  dsimp only at hadded hfeeValue houtputs₂ hpolicy
  subst hadded hfeeValue
  obtain ⟨-, -, -, hindex₁⟩ := combineBelow_spec houtputs₁
  obtain ⟨-, -, -, hindex₂⟩ := combineBelow_spec houtputs₂
  cases hsel
  have hvalue : coinTotal (fees ++ (ordered.take stop).drop start) =
      coinTotal ((ordered.take stop).drop start) + coinTotal fees := by
    rw [coinTotal_append, add_comm]
  refine ⟨⟨start, stop, fees, _, hwindow, hfees, rfl⟩, ?_, hvalue, ?_, rfl, rfl, ?_, ?_⟩
  · exact (hsub.append_right _).subperm.trans
      (outside_append_window_perm hwindow.le ordered).subperm
  · rw [hvalue, total_nil] at hconserved
    omega
  · intro d hd
    rcases hindex₂ d hd with hmem | hlt
    · rcases hindex₁ d hmem with hmem | hlt
      · cases hmem
      · omega
    · omega
  · intro hrequired
    by_contra hmany
    exact hpolicy (.inr ⟨hrequired, not_lt.mp hmany⟩)

theorem foldlM_aggregateKeep_totals {s' : AggregateScan}
    (h : coins.foldlM (aggregateKeep policy) s = .ok s') :
    s'.total = s.total + coinTotal coins ∧
      s'.smallValue = s.smallValue + coinTotal (policy.small coins) := by
  induction coins generalizing s with
  | nil =>
    cases h
    exact ⟨rfl, rfl⟩
  | cons coin rest ih =>
    simp only [foldlM_cons, aggregateKeep, bind_eq_ok] at h
    obtain ⟨s₁, ⟨sum, hsum, small, hsmall, hs₁⟩, hrest⟩ := h
    cases hs₁
    obtain ⟨htotal, hvalue⟩ := ih hrest
    have hsum := (checkedAdd_eq_some (okOr_eq_ok.mp hsum)).1
    dsimp only at htotal hvalue
    unfold AggregationPolicy.small at hvalue ⊢
    unfold addSmall at hsmall
    rw [coinTotal_cons, filter_cons]
    by_cases hindex : coin.denomination.index ≤ policy.maximumInput.index
    · rw [if_pos hindex] at hsmall
      have hsmall := (checkedAdd_eq_some (okOr_eq_ok.mp hsmall)).1
      rw [if_pos (decide_eq_true hindex), coinTotal_cons]
      omega
    · rw [if_neg hindex] at hsmall
      cases hsmall
      rw [if_neg (by simpa using hindex)]
      omega

def ascending (request : SelectionRequest) (coins : List CandidateCoin) : List CandidateCoin :=
  (bucketsOf (eligible request coins)).ordered

/-- The snapshot loop leaves the ascending coins and their totals to the rest. -/
theorem selectAggregate_scan
    (h : scan request (aggregateKeep policy) coins [] ⟨Buckets.empty, 0, 0⟩ = .ok s) :
    s.buckets.ordered = ascending request coins ∧ s.total = coinTotal (ascending request coins) ∧
      s.smallValue = coinTotal (policy.small (ascending request coins)) := by
  obtain ⟨-, hfold⟩ := scan_eq_ok.mp h
  have hperm := ordered_perm (eligible request coins)
  have hbuckets : s.buckets = bucketsOf (eligible request coins) := by
    rw [foldlM_aggregateKeep hfold, foldl_push]
    rfl
  obtain ⟨htotal, hsmall⟩ := foldlM_aggregateKeep_totals hfold
  rw [zero_add] at htotal hsmall
  refine ⟨by rw [hbuckets]; rfl, ?_, ?_⟩
  · rw [htotal, ascending, coinTotal_perm hperm]
  · rw [hsmall, ascending, small, small, coinTotal_perm (hperm.filter _)]

theorem scan_fails {seen : List OutPoint} : FailsWith (fun e => e = .invalidCoin ∨ e = .overflow)
      (scan request (aggregateKeep policy) coins seen s) := by
  induction coins generalizing seen s with
  | nil => exact ok s
  | cons coin rest ih =>
    have hkeep : FailsWith (fun e => e = .invalidCoin ∨ e = .overflow)
        (aggregateKeep policy s coin) := by
      refine bind (okOr (.inr rfl)) fun total => ?_
      refine bind ?_ fun small => ok _
      exact ite (okOr (.inr rfl)) (ok _)
    exact ite (error (.inl rfl)) (ite (bind hkeep fun s₁ => ih) ih)

/-- Whatever the coins, the request and the policy, the aggregating selector does not panic, its
last check of the fee never fails, and its selections spend distinct eligible coins, in value exactly
the outputs and the fee, within the bounds of the policy. -/
theorem selectAggregate_sound (coins : List CandidateCoin) (request : SelectionRequest)
    (policy : AggregationPolicy) :
    selectAggregate coins request policy ≠ .error .panic ∧
    (selectAggregate coins request policy = .error (.returned .insufficientFunds) →
      coinTotal (eligible request coins) ≤ request.fee ∨
        ∀ coin ∈ eligible request coins,
          policy.maximumInput.index < coin.denomination.index) ∧
    ∀ sel, selectAggregate coins request policy = .ok sel →
      (sel.inputs.map CandidateCoin.outpoint).Nodup ∧
      (∀ coin ∈ sel.inputs, coin ∈ coins ∧ coin.Eligible request) ∧
      (sel.inputs.map fun coin => coin.denomination.value).sum = sel.inputValue ∧
      sel.inputValue = total sel.spendOutputs + sel.fee ∧ sel.fee = request.fee ∧
      (∃ start stop fees feeValue, Window (ascending request coins) request policy start stop ∧
        feeInputs request start stop 0 (ascending request coins) ([], 0) = .ok (fees, feeValue) ∧
        sel.inputs = fees ++ ((ascending request coins).take stop).drop start ∧
        ∀ coin ∈ ((ascending request coins).take stop).drop start,
          coin.denomination.index ≤ policy.maximumInput.index) ∧
      (∀ d ∈ sel.spendOutputs ++ sel.changeOutputs, d.index ≤ policy.maximumOutput.index) ∧
      (policy.requireReduction = true →
        (sel.spendOutputs ++ sel.changeOutputs).length < sel.inputs.length) := by
  have hperm := ordered_perm (eligible request coins)
  have hsum : coinTotal (ascending request coins) = coinTotal (eligible request coins) :=
    coinTotal_perm hperm
  have hordered := ordered_ascending (eligible request coins)
  have hfails : FailsWith (fun e => e ≠ Fault.panic ∧ (e = .returned .insufficientFunds →
      coinTotal (eligible request coins) ≤ request.fee ∨
        ∀ coin ∈ eligible request coins, policy.maximumInput.index < coin.denomination.index))
      (selectAggregate coins request policy) := by
    refine ite (error ⟨nofun, nofun⟩)
      (ite (error ⟨nofun, nofun⟩) ?_)
    refine bind_of_ok ?_ fun s hs => ?_
    · refine mapError_of scan_fails ?_
      rintro e (rfl | rfl)
      · exact ⟨nofun, nofun⟩
      · exact ⟨nofun, nofun⟩
    obtain ⟨hbuckets, htotal, hsmall⟩ := selectAggregate_scan (mapError_eq_ok.mp hs)
    split
    · next hshort =>
      refine error ⟨nofun, fun _ => ?_⟩
      rcases hshort with hshort | hshort
      · rw [htotal, hsum] at hshort
        exact .inl hshort
      · -- a small coin would have a value
        refine .inr fun coin hcoin => ?_
        by_contra hindex
        have hmem : coin ∈ policy.small (ascending request coins) :=
          mem_filter.mpr ⟨hperm.mem_iff.mpr hcoin, decide_eq_true (not_lt.mp hindex)⟩
        have hvalue := value_le_coinTotal hmem
        have hpos := coin.denomination.value_pos
        unfold CandidateCoin.value at hvalue
        omega
    · next hfunds =>
      rw [not_or, not_le, htotal] at hfunds
      rw [hbuckets, htotal, hsmall]
      intro e he
      rcases aggregateOrdered_fails hordered policy hfunds.1 e he with rfl | rfl
      · exact ⟨nofun, nofun⟩
      · exact ⟨nofun, nofun⟩
  refine ⟨fun h => (hfails _ h).1 rfl, fun h => (hfails _ h).2 rfl, fun sel h => ?_⟩
  simp only [selectAggregate, eq_ok] at h
  obtain ⟨-, -, s, hscan, hfunds, hsel⟩ := h
  obtain ⟨hbuckets, htotal, hsmall⟩ := selectAggregate_scan hscan
  obtain ⟨⟨hnodup, -, -⟩, -⟩ := scan_eq_ok.mp hscan
  rw [not_or, not_le, htotal] at hfunds
  rw [hbuckets, htotal, hsmall] at hsel
  have hresult := aggregateOrdered_aggregated hordered hfunds.1 hsel
  have hsubperm := hresult.subperm.trans hperm.subperm
  obtain ⟨start, stop, fees, feeValue, hwindow, hfees, hinputs⟩ := hresult.inputs
  refine ⟨?_, fun coin hcoin => mem_eligible.mp (hsubperm.subset hcoin), ?_, ?_, hresult.fee,
    ⟨start, stop, fees, feeValue, hwindow, hfees, hinputs, hwindow.small⟩, ?_, ?_⟩
  · exact Subperm.nodup_map hsubperm (hnodup.sublist (filter_sublist.map _))
  · rw [← hresult.inputValue]
    exact sum_value_eq_coinTotal sel.inputs
  · rw [hresult.fee]
    exact hresult.conserved
  · rw [hresult.change, append_nil]
    exact hresult.outputs
  · rw [hresult.change, append_nil]
    exact hresult.reduction

def upToHundred : AggregationPolicy where
  maximumInput := .hundred
  maximumOutput := ⟨14, by decide⟩
  requireReduction := false

def sweepQits : SelectionRequest := { sixtyFiveQits with target := 0 }

theorem selectAggregate_sound_hundred :
    ∃ sel, selectAggregate [hundredQits 0, hundredQits 1] sweepQits upToHundred = .ok sel ∧
      sel.inputs.length = 2 ∧ sel.inputValue = total sel.spendOutputs + sel.fee := by
  obtain ⟨sel, hsel, hlength⟩ :
      ∃ sel, selectAggregate [hundredQits 0, hundredQits 1] sweepQits upToHundred = .ok sel ∧
        sel.inputs.length = 2 := ⟨_, rfl, rfl⟩
  obtain ⟨-, -, hsound⟩ :=
    selectAggregate_sound [hundredQits 0, hundredQits 1] sweepQits upToHundred
  exact ⟨sel, hsel, hlength, (hsound sel hsel).2.2.2.1⟩

end QuaiSdk.Wallet
