import QuaiSdk.Lib.Greedy
import QuaiSdk.Wallet.SelectionSound

/-!
# Selecting the fewest coins

When the selectors fail, and that they use as few coins as any choice of eligible coins could.
-/

namespace QuaiSdk.Wallet

open Result Inventory Denomination FailsWith SelectionError List

variable {coins : List CandidateCoin} {request : SelectionRequest} {required maxOutputs n fuel : ℕ}
  {s : List CandidateCoin × ℕ} {d : Denomination}

/-- The inner loop fails only at the output bound, as long as the counts stay in `u64`. -/
theorem allocateUnit_fails {s : Allocation} (hworth : worth chain s.capacity 0 < 2 ^ 64) :
    FailsWith (· = limitExceeded) (allocateUnit d maxOutputs fuel s) := by
  induction fuel generalizing s with
  | zero => exact ok s
  | succ fuel ih =>
    rw [allocateUnit]
    by_cases hlt : s.value < d.value
    · rw [if_pos hlt]
      exact ok s
    rw [if_neg hlt]
    cases hsource : findSource d.index s.capacity with
    | none => exact ok s
    | some source =>
      obtain ⟨hge, hlt15, hpos⟩ := findSource_spec hsource
      have hsum : d.index + (source - d.index) = source := by omega
      dsimp only
      split
      · exact error rfl
      · rw [breakDown_of_worth_lt d.index (source - d.index) (by omega)
          (by rw [hsum]; exact hpos) hworth, ok_bind]
        have hdraw := worth_draw chain d.index (source - d.index) s.capacity
          (show _ < 15 by omega) (by rw [hsum]; exact hpos) 0
        refine ih ?_
        show worth chain (draw chain d.index (source - d.index) s.capacity) 0 < 2 ^ 64
        omega

theorem allocateBelow_fails (hn : n ≤ 15) {s : Allocation}
    (hworth : worth chain s.capacity 0 < 2 ^ 64) :
    FailsWith (· = limitExceeded) (allocateBelow maxOutputs n s) := by
  induction n generalizing s with
  | zero => exact ok s
  | succ i ih =>
    have hi : i < 15 := hn
    rw [allocateBelow, ofIndex, dif_pos hi, okOr_some, ok_bind]
    refine bind_of_ok (allocateUnit_fails hworth) fun s₁ hunit => ?_
    obtain ⟨out, hout⟩ := allocateUnit_allocated hunit
    have hless := hout.drawn.2
    exact ih (by omega) (by omega)

theorem allocateBelow_done {s s' : Allocation} (h : allocateBelow maxOutputs (n + 1) s = .ok s') :
    s'.value = 0 ∨ findSource 0 s'.capacity = none := by
  induction n generalizing s with
  | zero =>
    obtain ⟨d, hd, hrest⟩ := bind_eq_ok.mp h
    obtain ⟨s₁, hunit, hlast⟩ := bind_eq_ok.mp hrest
    cases hlast
    have hindex := index_of_ofIndex (okOr_eq_ok.mp hd)
    have hdone := allocateUnit_done le_rfl hunit
    rw [value_of_index_zero hindex, hindex, Nat.lt_one_iff] at hdone
    exact hdone
  | succ n ih =>
    obtain ⟨d, hd, hrest⟩ := bind_eq_ok.mp h
    obtain ⟨s₁, hunit, hlast⟩ := bind_eq_ok.mp hrest
    exact ih hlast

/-- A value that the inventory holds is split out of it, unless there are too many outputs. -/
theorem denominateAvailable_fails {value : ℕ} {capacity : Capacity}
    (hworth : worth chain capacity 0 < 2 ^ 64) (hvalue : value ≤ worth chain capacity 0) :
    FailsWith (· = limitExceeded) (denominateAvailable value capacity maxOutputs) := by
  refine bind_of_ok (allocateBelow_fails le_rfl hworth) fun s hbelow => ?_
  obtain ⟨out, hout⟩ := allocateBelow_allocated hbelow
  have hdrawn : worth chain s.capacity 0 + demand chain (out.map index) 0 =
    worth chain capacity 0 := hout.drawn.2
  have hrest : s.value + total out = value := hout.value
  rw [demand_index_zero] at hdrawn
  have hzero : s.value = 0 := by
    rcases allocateBelow_done hbelow with hzero | hnone
    · exact hzero
    · -- without a source the inventory is worth nothing
      have hempty : worth chain s.capacity 0 = 0 := by
        by_contra hpos
        obtain ⟨source, hsource⟩ := exists_findSource (Nat.pos_of_ne_zero hpos)
        rw [hsource] at hnone
        cases hnone
      omega
  rw [if_neg (not_not.mpr hzero)]
  exact ok _

theorem largestUnit_fails {s : ℕ × List Denomination} :
    FailsWith (· = limitExceeded) (largestUnit d maxOutputs fuel s) := by
  induction fuel generalizing s with
  | zero => exact ok s
  | succ fuel ih =>
    rw [largestUnit]
    split
    · exact ok _
    · split
      · exact error rfl
      · exact ih

theorem largestBelow_fails (hn : n ≤ 15) {s : ℕ × List Denomination} :
    FailsWith (· = limitExceeded) (largestBelow maxOutputs n s) := by
  induction n generalizing s with
  | zero => exact ok s
  | succ i ih =>
    have hi : i < 15 := hn
    rw [largestBelow, ofIndex, dif_pos hi, okOr_some, ok_bind]
    exact bind largestUnit_fails fun s₁ => ih (by omega)

theorem denominateLargest_fails (value maxOutputs : ℕ) :
    FailsWith (· = limitExceeded) (denominateLargest value maxOutputs) := by
  refine bind_of_ok (largestBelow_fails le_rfl) fun s hbelow => ?_
  rw [if_neg (not_not.mpr ((largestBelow_spec hbelow).2.2 (Nat.succ_pos _)))]
  exact ok _

theorem accumulate_fails (hsum : s.2 + coinTotal coins < 2 ^ 256) :
    FailsWith (· = limitExceeded) (accumulate request required coins s) := by
  induction coins generalizing s with
  | nil => exact ok s
  | cons coin rest ih =>
    rw [coinTotal_cons] at hsum
    rw [accumulate]
    split
    · exact ok _
    · split
      · exact error rfl
      · rw [checkedAdd, if_pos (by omega), okOr_some, ok_bind]
        exact ih (by dsimp only at hsum ⊢; omega)

theorem accumulate_all (hsum : s.2 + coinTotal coins < 2 ^ 256)
    (hshort : s.2 + coinTotal coins < required)
    (hbound : s.1.length + coins.length ≤ request.maxInputs) :
    accumulate request required coins s = .ok (s.1 ++ coins, s.2 + coinTotal coins) := by
  induction coins generalizing s with
  | nil =>
    rw [append_nil]
    rfl
  | cons coin rest ih =>
    obtain ⟨chosen, total⟩ := s
    rw [coinTotal_cons] at hsum hshort ⊢
    rw [length_cons] at hbound
    dsimp only at hsum hshort hbound ⊢
    rw [accumulate, if_neg (by omega), if_neg (by omega), checkedAdd, if_pos (by omega), okOr_some,
      ok_bind, ih]
    · rw [append_assoc, Nat.add_assoc]
      rfl
    · omega
    · omega
    · rw [length_append, length_singleton]
      omega

theorem coinTotal_perm {coins' : List CandidateCoin} (h : coins.Perm coins') :
    coinTotal coins = coinTotal coins' :=
  ((h.map CandidateCoin.denomination).map Denomination.value).sum_eq

theorem value_le_coinTotal {coin : CandidateCoin} (h : coin ∈ coins) :
    coin.value ≤ coinTotal coins := by
  induction coins with
  | nil => cases h
  | cons c coins ih =>
    rw [coinTotal_cons]
    rcases mem_cons.mp h with rfl | h
    · omega
    · have := ih h
      omega

theorem coinTotal_lt (h : coins.length ≤ 100000) : coinTotal coins < 2 ^ 64 := by
  have := total_le (coins.map CandidateCoin.denomination)
  rw [length_map] at this
  unfold coinTotal
  omega

theorem chooseInputs_fails (hsize : coins.length ≤ 100000) (request : SelectionRequest)
    (required : ℕ) :
    FailsWith (· = limitExceeded) (chooseInputs (bucketsOf coins) request required) := by
  have htotal := coinTotal_lt hsize
  unfold chooseInputs
  split
  · exact ok _
  · apply accumulate_fails
    rw [coinTotal_perm (orderedRev_perm coins)]
    omega

theorem chooseInputs_short (hmax : 1 ≤ request.maxInputs)
    (h : chooseInputs (bucketsOf coins) request required = .ok s) (hshort : s.2 < required) :
    coinTotal coins < required ∧ coins.length ≤ request.maxInputs := by
  obtain ⟨-, hvalue, hlimit⟩ := chooseInputs_spec hmax h
  unfold chooseInputs at h
  split at h
  · next coin hfind =>
    -- a single coin is chosen because it is enough
    cases h
    have henough := find?_some hfind
    rw [decide_eq_true_eq] at henough
    omega
  · obtain ⟨n, -, hchosen, -, -, hall, -⟩ := accumulate_spec h
    have hperm := orderedRev_perm coins
    rw [nil_append, hall hshort, take_length] at hchosen
    rw [hchosen] at hvalue hlimit
    rw [← coinTotal_perm hperm, ← hperm.length_eq]
    omega

theorem chooseInputs_all (hsize : coins.length ≤ 100000) (hshort : coinTotal coins < required)
    (hbound : coins.length ≤ request.maxInputs) :
    chooseInputs (bucketsOf coins) request required =
      .ok ((bucketsOf coins).orderedRev, coinTotal coins) := by
  have htotal := coinTotal_lt hsize
  have hperm := orderedRev_perm coins
  have hnone : (bucketsOf coins).ordered.find? (fun coin => decide (required ≤ coin.value)) =
      none := by
    rw [find?_eq_none]
    intro coin hcoin
    have := value_le_coinTotal ((ordered_perm coins).mem_iff.mp hcoin)
    rw [decide_eq_true_eq]
    omega
  have hsum := coinTotal_perm hperm
  rw [chooseInputs, hnone]
  rw [accumulate_all, nil_append, hsum, Nat.zero_add]
  · omega
  · omega
  · rw [hperm.length_eq, length_nil]
    omega

theorem choose_fails (hsize : coins.length ≤ 100000) (hmax : 1 ≤ request.maxInputs)
    (hrequired : request.target ≤ required) (aggregatedSpend : Bool) :
    FailsWith (fun e => e = limitExceeded ∨ e = insufficientFunds ∧ coinTotal coins < required ∧
          coins.length ≤ request.maxInputs)
      (choose (bucketsOf coins) request required aggregatedSpend) := by
  have hlimit : ∀ {α : Type} {x : Except SelectionError α}, FailsWith (· = limitExceeded) x →
      FailsWith (fun e => e = limitExceeded ∨ e = insufficientFunds ∧ coinTotal coins < required ∧
          coins.length ≤ request.maxInputs) x := fun h e he => .inl (h e he)
  refine bind_of_ok (hlimit (chooseInputs_fails hsize request required)) fun s hs => ?_
  obtain ⟨chosen, total⟩ := s
  dsimp only
  split
  · next hshort =>
    obtain ⟨hfunds, hbound⟩ := chooseInputs_short hmax hs hshort
    exact error (.inr ⟨rfl, hfunds, hbound⟩)
  · next hcovered =>
    obtain ⟨hsub, hvalue, -⟩ := chooseInputs_spec hmax hs
    dsimp only at hsub hvalue
    have hworth : worth chain (tally (chosen.map CandidateCoin.denomination)) 0 = total := by
      rw [worth_tally, hvalue]
      rfl
    have hbound : total < 2 ^ 64 := by
      rw [hvalue]
      exact coinTotal_lt (hsub.length_le.trans hsize)
    -- the recipient's part leaves an inventory worth the rest
    have hspend : FailsWith (· = limitExceeded) (chooseSpend request
        (tally (chosen.map CandidateCoin.denomination)) aggregatedSpend) := by
      unfold chooseSpend
      split
      · exact (denominateLargest_fails _ _).map _
      · exact denominateAvailable_fails (by rw [hworth]; exact hbound) (by rw [hworth]; omega)
    refine bind_of_ok (hlimit hspend) fun spent hspent => ?_
    obtain ⟨spendOutputs, capacity⟩ := spent
    have hrest : worth chain capacity 0 ≤ total ∧ total - required ≤ worth chain capacity 0 := by
      unfold chooseSpend at hspent
      split at hspent
      · obtain ⟨out, -, hpair⟩ := map_eq_ok.mp hspent
        cases hpair
        omega
      · obtain ⟨htotal, -, hdrawn⟩ := denominateAvailable_spec hspent
        have hleft := hdrawn.2
        rw [demand_index_zero, htotal, hworth] at hleft
        omega
    have hsmall : worth chain capacity 0 < 2 ^ 64 := by omega
    refine bind (hlimit (denominateAvailable_fails hsmall hrest.2)) fun changed => ?_
    exact ite (error (.inl rfl)) (ok _)

structure ValidRequest (request : SelectionRequest) : Prop where
  target : 0 < request.target
  bounded : request.Bounded
  amount : request.target + request.fee < 2 ^ 256

theorem selectFewestInner_of_valid (hrequest : ValidRequest request) (hcoins : ValidSnapshot coins)
    (aggregatedSpend : Bool) :
    selectFewestInner coins request aggregatedSpend =
      choose (bucketsOf (eligible request coins)) request (request.target + request.fee)
        aggregatedSpend := by
  have htarget := hrequest.target
  have hvalid : ¬(request.target = 0 ∨ ¬request.Bounded) := by
    rw [not_or, not_not]
    exact ⟨by omega, hrequest.bounded⟩
  rw [selectFewestInner, validateRequest, if_neg hvalid, ok_bind, checkedAdd,
    if_pos hrequest.amount, okOr_some, ok_bind, validateAndBucket_eq_ok.mpr ⟨hcoins, rfl⟩, ok_bind]

theorem selectFewestInner_insufficient (hrequest : ValidRequest request)
    (hcoins : ValidSnapshot coins) (aggregatedSpend : Bool) :
    (selectFewestInner coins request aggregatedSpend = .error .insufficientFunds ↔
      coinTotal (eligible request coins) < request.target + request.fee ∧
        (eligible request coins).length ≤ request.maxInputs) ∧
    ∀ e, selectFewestInner coins request aggregatedSpend = .error e →
      e = .insufficientFunds ∨ e = .limitExceeded := by
  have hsize : (eligible request coins).length ≤ 100000 := (length_filter_le _ _).trans hcoins.size
  rw [selectFewestInner_of_valid hrequest hcoins]
  have hfails := choose_fails hsize hrequest.bounded.2.1.1 (Nat.le_add_right _ request.fee)
    aggregatedSpend
  refine ⟨⟨fun h => ?_, fun ⟨hshort, hbound⟩ => ?_⟩, fun e h => ?_⟩
  · rcases hfails _ h with hlimit | ⟨-, hfunds⟩
    · cases hlimit
    · exact hfunds
  · rw [choose, chooseInputs_all hsize hshort hbound, ok_bind]
    exact if_pos hshort
  · rcases hfails _ h with hlimit | ⟨hfunds, -⟩
    · exact .inr hlimit
    · exact .inl hfunds

/-- Both selectors report insufficient funds exactly when the eligible coins, all of which fit the
input bound, are not enough; every other failure is a bound. -/
theorem insufficient_iff (coins : List CandidateCoin) (request : SelectionRequest)
    (hrequest : ValidRequest request) (hcoins : ValidSnapshot coins) :
    (∀ select ∈ [selectFewest, selectFewestConverting],
      (select coins request = .error .insufficientFunds ↔
        coinTotal (coins.filter fun coin => decide (coin.Eligible request)) <
            request.target + request.fee ∧
          (coins.filter fun coin => decide (coin.Eligible request)).length ≤ request.maxInputs) ∧
      ∀ e, select coins request = .error e → e = .insufficientFunds ∨ e = .limitExceeded) := by
  intro select hselect
  rcases mem_cons.mp hselect with rfl | hselect
  · exact selectFewestInner_insufficient hrequest hcoins false
  · rw [mem_singleton.mp hselect]
    exact selectFewestInner_insufficient hrequest hcoins true

theorem validSnapshot_hundred : ValidSnapshot [hundredQits 0, hundredQits 1] where
  size := by decide
  distinct := by decide
  placed := by decide

/-- Two coins of 100 Qits do not pay 300. -/
theorem insufficient_iff_hundred :
    selectFewest [hundredQits 0, hundredQits 1] { sixtyFiveQits with target := 300 } =
      .error .insufficientFunds :=
  (insufficient_iff _ _ ⟨by decide, by decide, by decide⟩ validSnapshot_hundred selectFewest
    mem_cons_self).1.mpr (by decide)

theorem ordered_ascending (coins : List CandidateCoin) :
    (bucketsOf coins).ordered.Pairwise fun a b => a.value ≤ b.value := by
  unfold Buckets.ordered
  rw [pairwise_flatMap]
  have hbucket : ∀ {i : ℕ} {coin : CandidateCoin}, coin ∈ bucketsOf coins i →
      coin.value = unit i := by
    intro i coin hcoin
    have hindex := (mem_filter.mp hcoin).2
    rw [decide_eq_true_eq] at hindex
    rw [CandidateCoin.value, Denomination.value, hindex]
  refine ⟨fun i _ => ?_, ?_⟩
  · apply pairwise_of_forall_mem_list
    intro a ha b hb
    rw [hbucket ha, hbucket hb]
  · refine List.Pairwise.imp_of_mem ?_ (pairwise_lt_range (n := 15))
    intro i j hi hj hij a ha b hb
    rw [hbucket ha, hbucket hb]
    exact (chain.unit_lt_of_lt hij (mem_range.mp hj)).le

theorem orderedRev_descending (coins : List CandidateCoin) :
    Greedy.Descending CandidateCoin.value (bucketsOf coins).orderedRev := by
  have hrev : (bucketsOf coins).orderedRev = (bucketsOf coins).ordered.reverse :=
    reverse_flatMap.symm
  rw [hrev]
  exact pairwise_reverse.mpr (ordered_ascending coins)

theorem sum_value_eq_coinTotal (coins : List CandidateCoin) :
    (coins.map CandidateCoin.value).sum = coinTotal coins := by
  rw [coinTotal, Denomination.total, map_map]
  rfl

theorem chooseInputs_minimal (hrequired : 0 < required)
    (h : chooseInputs (bucketsOf coins) request required = .ok s) {some : List CandidateCoin}
    (hsome : some.Subperm coins) (hfewer : some.length < s.1.length) :
    coinTotal some < required := by
  unfold chooseInputs at h
  split at h
  · -- fewer than one coin are none
    cases h
    obtain rfl : some = [] := length_eq_zero_iff.mp (Nat.lt_one_iff.mp hfewer)
    exact hrequired
  · obtain ⟨n, hle, hchosen, -, -, -, hmin⟩ := accumulate_spec h
    have hlength : s.1.length = n := by
      rw [hchosen, nil_append, length_take]
      omega
    have hbest := Greedy.sum_le_of_subperm (orderedRev_descending coins)
      (hsome.trans (orderedRev_perm coins).symm.subperm)
    rw [sum_value_eq_coinTotal, sum_value_eq_coinTotal] at hbest
    have hshort := hmin some.length (by omega)
    omega

theorem chooseInputs_smallest {coin : CandidateCoin} {value : ℕ}
    (h : chooseInputs (bucketsOf coins) request required = .ok ([coin], value))
    (hvalue : required ≤ coin.value) {other : CandidateCoin} (hother : other ∈ coins)
    (henough : required ≤ other.value) : coin.value ≤ other.value := by
  unfold chooseInputs at h
  split at h
  · next found hfind =>
    cases h
    obtain ⟨-, before, after, hsplit, hbefore⟩ := find?_eq_some_iff_append.mp hfind
    have hascending := ordered_ascending coins
    rw [hsplit] at hascending
    have hmem := (ordered_perm coins).mem_iff.mpr hother
    rw [hsplit] at hmem
    rcases mem_append.mp hmem with hmem | hmem
    · -- what stands before it is not enough
      have hnot := hbefore other hmem
      rw [Bool.not_eq_true', decide_eq_false_iff_not] at hnot
      exact absurd henough hnot
    · rcases mem_cons.mp hmem with rfl | hmem
      · exact le_rfl
      · exact (pairwise_cons.mp (pairwise_append.mp hascending).2.1).1 other hmem
  · next hnone =>
    have hnot := find?_eq_none.mp hnone other ((ordered_perm coins).mem_iff.mpr hother)
    exact absurd (decide_eq_true henough) hnot

theorem selectFewestInner_inputs {aggregatedSpend : Bool} {sel : CoinSelection}
    (h : selectFewestInner coins request aggregatedSpend = .ok sel) :
    chooseInputs (bucketsOf (eligible request coins)) request (request.target + request.fee) =
      .ok (sel.inputs, sel.inputValue) := by
  simp only [selectFewestInner, bind_eq_ok] at h
  obtain ⟨-, -, required, hrequired, buckets, hbuckets, hchoose⟩ := h
  obtain ⟨-, rfl⟩ := validateAndBucket_eq_ok.mp hbuckets
  rw [(checkedAdd_eq_some (okOr_eq_ok.mp hrequired)).1] at hchoose
  simp only [choose, eq_ok] at hchoose
  obtain ⟨⟨chosen, total⟩, hinputs, -, spent, -, changed, -, -, hsel⟩ := hchoose
  cases hsel
  exact hinputs

/-- No smaller set of eligible coins covers the amount, and a single input is the smallest coin that
does. -/
theorem selectFewest_minimal (coins : List CandidateCoin) (request : SelectionRequest)
    (sel : CoinSelection) (h : selectFewest coins request = .ok sel) :
    (∀ set : Finset CandidateCoin, (∀ coin ∈ set, coin ∈ coins ∧ coin.Eligible request) →
      set.card < sel.inputs.length →
        ¬request.target + request.fee ≤ ∑ coin ∈ set, coin.denomination.value) ∧
    ∀ coin, sel.inputs = [coin] → ¬∃ other ∈ coins, other.Eligible request ∧
      request.target + request.fee ≤ other.denomination.value ∧
      other.denomination.index < coin.denomination.index := by
  obtain ⟨-, htarget, -, hchosen⟩ := selectFewestInner_spec h
  have hinputs := selectFewestInner_inputs h
  refine ⟨fun set hset hcard => not_le.mpr ?_, ?_⟩
  · have hsub : set.toList.Subperm (eligible request coins) := by
      refine set.nodup_toList.subperm fun coin hcoin => ?_
      obtain ⟨hmem, heligible⟩ := hset coin (Finset.mem_toList.mp hcoin)
      exact mem_filter.mpr ⟨hmem, decide_eq_true heligible⟩
    have hless := chooseInputs_minimal (by omega) hinputs hsub
      (by rw [Finset.length_toList]; exact hcard)
    rw [← sum_value_eq_coinTotal, Finset.sum_map_toList] at hless
    exact hless
  · rintro coin hsingle ⟨other, hother, heligible, henough, hsmaller⟩
    have hvalue := hchosen.inputValue
    have hchange := hchosen.change
    rw [hsingle, coinTotal_cons, coinTotal_nil] at hvalue
    rw [hsingle] at hinputs
    have hsmallest := chooseInputs_smallest hinputs (by omega)
      (mem_filter.mpr ⟨hother, decide_eq_true heligible⟩) henough
    exact absurd (value_lt_of_index_lt hsmaller) (not_lt.mpr hsmallest)

def hundredFiftyQits : SelectionRequest := { sixtyFiveQits with target := 150 }

theorem selectFewest_minimal_hundred :
    ∃ sel, selectFewest [hundredQits 0, hundredQits 1] hundredFiftyQits = .ok sel ∧
      sel.inputs.length = 2 ∧ ∀ set : Finset CandidateCoin,
        (∀ coin ∈ set, coin ∈ [hundredQits 0, hundredQits 1] ∧ coin.Eligible hundredFiftyQits) →
        set.card < 2 → ¬150 + 3 ≤ ∑ coin ∈ set, coin.denomination.value := by
  obtain ⟨sel, hsel, hlength⟩ :
      ∃ sel, selectFewest [hundredQits 0, hundredQits 1] hundredFiftyQits = .ok sel ∧
        sel.inputs.length = 2 := ⟨_, rfl, rfl⟩
  refine ⟨sel, hsel, hlength, fun set hset hcard => ?_⟩
  exact (selectFewest_minimal _ _ sel hsel).1 set hset (by rw [hlength]; exact hcard)

end QuaiSdk.Wallet
