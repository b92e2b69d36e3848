import QuaiSdk.Wallet.Denominate
import QuaiSdk.Wallet.Sweep

/-!
# Soundness of coin selection

Every selection takes distinct eligible coins from the snapshot, conserves value exactly, stays in its
bounds, and passes the wallet's own check of the node's denomination rule.
-/

namespace QuaiSdk.Wallet

open Result Inventory Denomination List CandidateCoin

def eligible (request : SelectionRequest) (coins : List CandidateCoin) : List CandidateCoin :=
  coins.filter fun coin => decide (coin.Eligible request)

variable {request : SelectionRequest} {coins : List CandidateCoin} {sel : CoinSelection}
  {aggregatedSpend : Bool}

theorem scan_eq_ok {σ : Type} {keep : σ → CandidateCoin → Except SelectionError σ}
    {seen : List OutPoint} {s s' : σ} : scan request keep coins seen s = .ok s' ↔
      ((coins.map outpoint).Nodup ∧ (∀ coin ∈ coins, coin.outpoint ∉ seen) ∧
        ∀ coin ∈ coins, coin.Placed) ∧ (eligible request coins).foldlM keep s = .ok s' := by
  induction coins generalizing seen s with
  | nil => simp [scan, eligible]
  | cons coin rest ih =>
    rw [scan, ite_error_eq_ok, not_or, not_not, eligible]
    -- an outpoint new to the rest is neither this one nor seen
    have hnew : (∀ c ∈ rest, c.outpoint ∉ coin.outpoint :: seen) ↔
        coin.outpoint ∉ rest.map outpoint ∧ ∀ c ∈ rest, c.outpoint ∉ seen := by
      simp only [mem_cons, not_or, forall_and, mem_map, not_exists, not_and]
    by_cases helig : coin.Eligible request
    · rw [if_pos helig, filter_cons, if_pos (decide_eq_true helig), foldlM_cons, bind_eq_ok,
        bind_eq_ok]
      simp only [ih, hnew, map_cons, nodup_cons, forall_mem_cons, eligible]
      tauto
    · rw [if_neg helig, filter_cons, if_neg (by simpa using helig), ih, hnew]
      simp only [map_cons, nodup_cons, forall_mem_cons, eligible]
      tauto

def bucketsOf (coins : List CandidateCoin) : Buckets :=
  fun i => coins.filter fun coin => decide (coin.denomination.index = i)

theorem foldl_push (coins : List CandidateCoin) (buckets : Buckets) :
    coins.foldl Buckets.push buckets = fun i => buckets i ++ bucketsOf coins i := by
  induction coins generalizing buckets with
  | nil =>
    funext i
    exact (append_nil _).symm
  | cons coin rest ih =>
    funext i
    rw [foldl_cons, ih]
    by_cases hi : coin.denomination.index = i
    · subst hi
      simp [Buckets.push, bucketsOf]
    · simp [Buckets.push, bucketsOf, hi, Function.update_of_ne (Ne.symm hi)]

structure ValidSnapshot (coins : List CandidateCoin) : Prop where
  size : coins.length ≤ 100000
  distinct : (coins.map outpoint).Nodup
  placed : ∀ coin ∈ coins, coin.Placed

theorem validateAndBucket_eq_ok {buckets : Buckets} :
    validateAndBucket coins request = .ok buckets ↔
      ValidSnapshot coins ∧ buckets = bucketsOf (eligible request coins) := by
  rw [validateAndBucket, ite_error_eq_ok, scan_eq_ok, foldlM_ok, foldl_push]
  constructor
  · rintro ⟨hsize, ⟨hnodup, -, hplaced⟩, h⟩
    exact ⟨⟨not_lt.mp hsize, hnodup, hplaced⟩, (Except.ok.inj h).symm⟩
  · rintro ⟨h, rfl⟩
    exact ⟨not_lt.mpr h.size, ⟨h.distinct, fun _ _ => not_mem_nil, h.placed⟩, rfl⟩

private theorem bucketed_perm (coins : List CandidateCoin) (n : ℕ) :
    ((range n).flatMap (bucketsOf coins)).Perm
      (coins.filter fun coin => decide (coin.denomination.index < n)) := by
  induction n with
  | zero => simp
  | succ n ih =>
    rw [range_succ, flatMap_append, flatMap_singleton]
    refine (ih.append_right _).trans ?_
    have hsplit := filter_append_perm (fun coin => decide (coin.denomination.index < n))
      (coins.filter fun coin => decide (coin.denomination.index < n + 1))
    rw [filter_filter, filter_filter] at hsplit
    refine List.Perm.trans (List.Perm.of_eq ?_) hsplit
    congr 1
    · refine filter_congr fun coin _ => ?_
      rw [Bool.eq_iff_iff]
      simp only [decide_eq_true_eq, Bool.and_eq_true]
      omega
    · refine filter_congr fun coin _ => ?_
      rw [Bool.eq_iff_iff]
      simp only [decide_eq_true_eq, Bool.and_eq_true, Bool.not_eq_true', decide_eq_false_iff_not]
      omega

theorem ordered_perm (coins : List CandidateCoin) : (bucketsOf coins).ordered.Perm coins := by
  refine (bucketed_perm coins 15).trans (List.Perm.of_eq ?_)
  rw [filter_eq_self]
  exact fun coin _ => decide_eq_true coin.denomination.isLt

theorem orderedRev_perm (coins : List CandidateCoin) : (bucketsOf coins).orderedRev.Perm coins := by
  have hrev : (bucketsOf coins).orderedRev = (bucketsOf coins).ordered.reverse :=
    reverse_flatMap.symm
  rw [hrev]
  exact (reverse_perm _).trans (ordered_perm coins)

@[simp] theorem coinTotal_nil : coinTotal [] = 0 := rfl

@[simp] theorem coinTotal_cons (coin : CandidateCoin) (coins : List CandidateCoin) :
    coinTotal (coin :: coins) = coin.value + coinTotal coins := by
  simp [coinTotal, CandidateCoin.value]

@[simp] theorem coinTotal_append (coins coins' : List CandidateCoin) :
    coinTotal (coins ++ coins') = coinTotal coins + coinTotal coins' := by
  simp [coinTotal]

theorem accumulate_spec {required : ℕ} {s s' : List CandidateCoin × ℕ}
    (h : accumulate request required coins s = .ok s') :
    ∃ n ≤ coins.length, s'.1 = s.1 ++ coins.take n ∧ s'.2 = s.2 + coinTotal (coins.take n) ∧
      (s.1.length ≤ request.maxInputs → s'.1.length ≤ request.maxInputs) ∧
      (s'.2 < required → n = coins.length) ∧
      ∀ m < n, s.2 + coinTotal (coins.take m) < required := by
  induction coins generalizing s with
  | nil =>
    cases h
    exact ⟨0, le_rfl, by simp⟩
  | cons coin rest ih =>
    obtain ⟨chosen, total⟩ := s
    rw [accumulate] at h
    by_cases hdone : required ≤ total
    · rw [if_pos hdone] at h
      cases h
      exact ⟨0, Nat.zero_le _, by simp, by simp, id, fun hshort => by omega, by simp⟩
    · rw [if_neg hdone, ite_error_eq_ok, bind_eq_ok] at h
      obtain ⟨hlimit, total', htotal, hrest⟩ := h
      have hsum := (checkedAdd_eq_some (okOr_eq_ok.mp htotal)).1
      obtain ⟨n, hle, hchosen, hvalue, hbound, hall, hmin⟩ := ih hrest
      refine ⟨n + 1, Nat.succ_le_succ hle, ?_, ?_, fun hle => hbound ?_, fun hshort => ?_, ?_⟩
      · rw [hchosen, take_succ_cons, append_assoc]
        rfl
      · rw [hvalue, hsum, take_succ_cons, coinTotal_cons]
        omega
      · simp only [length_append, length_singleton] at hle ⊢
        omega
      · rw [hall hshort, length_cons]
      · intro m hm
        cases m with
        | zero => exact not_le.mp hdone
        | succ m =>
          have := hmin m (by omega)
          rw [take_succ_cons, coinTotal_cons]
          omega

theorem chooseInputs_spec {required : ℕ} {s : List CandidateCoin × ℕ} (hmax : 1 ≤ request.maxInputs)
    (h : chooseInputs (bucketsOf coins) request required = .ok s) :
    s.1.Subperm coins ∧ s.2 = coinTotal s.1 ∧ s.1.length ≤ request.maxInputs := by
  unfold chooseInputs at h
  split at h
  · rename_i coin hfind
    cases h
    have hmem := (ordered_perm coins).mem_iff.mp (mem_of_find?_eq_some hfind)
    exact ⟨singleton_subperm_iff.mpr hmem, by simp, hmax⟩
  · obtain ⟨n, -, hchosen, hvalue, hbound, -⟩ := accumulate_spec h
    rw [nil_append] at hchosen
    refine ⟨?_, ?_, hbound (Nat.zero_le _)⟩
    · rw [hchosen]
      exact (take_sublist n _).subperm.trans (orderedRev_perm coins).subperm
    · rw [hvalue, hchosen, Nat.zero_add]

/-- What `choose` establishes about a selection among the coins it was given. -/
structure Chosen (coins : List CandidateCoin) (request : SelectionRequest)
    (aggregatedSpend : Bool) (sel : CoinSelection) : Prop where
  inputs : sel.inputs.Subperm coins
  inputValue : coinTotal sel.inputs = sel.inputValue
  spend : total sel.spendOutputs = request.target
  change : total sel.changeOutputs + (request.target + request.fee) = sel.inputValue
  fee : sel.fee = request.fee
  maxInputs : sel.inputs.length ≤ request.maxInputs
  maxOutputs : sel.spendOutputs.length + sel.changeOutputs.length ≤ request.maxOutputs
  messages : 3 * sel.inputs.length + (sel.spendOutputs.length + sel.changeOutputs.length) + 3 ≤
    maxTransactionMessages
  covers : Covers chain (tally (sel.inputs.map denomination))
    ((if aggregatedSpend then sel.changeOutputs else sel.spendOutputs ++ sel.changeOutputs).map
      index)

theorem choose_spec (hmax : 1 ≤ request.maxInputs)
    (h : choose (bucketsOf coins) request (request.target + request.fee) aggregatedSpend = .ok sel) :
    Chosen coins request aggregatedSpend sel := by
  simp only [choose, eq_ok] at h
  obtain ⟨⟨chosen, total⟩, hinputs, hfunds, ⟨spend, capacity⟩, hspend, ⟨change, rest⟩, hchange,
    hmessages, hsel⟩ := h
  dsimp only at hfunds hspend hchange hmessages
  obtain ⟨hsub, hvalue, hlimit⟩ := chooseInputs_spec hmax hinputs
  obtain ⟨hchangeTotal, hchangeLength, hchangeDrawn⟩ := denominateAvailable_spec hchange
  -- the recipient's part: from the shared inventory, or largest first without touching it
  have hspendSpec : Denomination.total spend = request.target ∧ spend.length ≤ request.maxOutputs ∧
      Covers chain (tally (chosen.map denomination))
        ((if aggregatedSpend then change else spend ++ change).map index) := by
    cases aggregatedSpend with
    | true =>
      obtain ⟨out, hout, hpair⟩ := map_eq_ok.mp hspend
      obtain ⟨rfl, rfl⟩ := Prod.mk.inj hpair
      obtain ⟨htotal, hlength⟩ := denominateLargest_spec hout
      exact ⟨htotal, hlength, hchangeDrawn.covers chain⟩
    | false =>
      obtain ⟨htotal, hlength, hdrawn⟩ := denominateAvailable_spec hspend
      refine ⟨htotal, hlength, ?_⟩
      have hboth := (hdrawn.trans chain hchangeDrawn).covers chain
      rw [← map_append] at hboth
      exact hboth
  obtain ⟨hspendTotal, hspendLength, hcovers⟩ := hspendSpec
  cases hsel
  exact
    { inputs := hsub
      inputValue := hvalue.symm
      spend := hspendTotal
      change := by
        change Denomination.total change + _ = total
        omega
      fee := rfl
      maxInputs := hlimit
      maxOutputs := by
        change spend.length + change.length ≤ request.maxOutputs
        omega
      messages := by
        change 3 * chosen.length + (spend.length + change.length) + 3 ≤ maxTransactionMessages
        omega
      covers := hcovers }

theorem selectFewestInner_spec (h : selectFewestInner coins request aggregatedSpend = .ok sel) :
    (coins.map outpoint).Nodup ∧ request.target ≠ 0 ∧ request.Bounded ∧
      Chosen (eligible request coins) request aggregatedSpend sel := by
  simp only [selectFewestInner, validateRequest, bind_eq_ok, ite_error_eq_ok, not_or, not_not] at h
  obtain ⟨-, ⟨⟨htarget, hbounded⟩, -⟩, required, hrequired, buckets, hbuckets, hchoose⟩ := h
  obtain ⟨hsnapshot, rfl⟩ := validateAndBucket_eq_ok.mp hbuckets
  rw [(checkedAdd_eq_some (okOr_eq_ok.mp hrequired)).1] at hchoose
  exact ⟨hsnapshot.distinct, htarget, hbounded, choose_spec hbounded.2.1.1 hchoose⟩

/-- A selection that spends distinct eligible coins of the snapshot and leaves exactly its fee. -/
structure CoinSelection.Sound (coins : List CandidateCoin) (request : SelectionRequest)
    (sel : CoinSelection) : Prop where
  distinct : (sel.inputs.map outpoint).Nodup
  fromSnapshot : ∀ coin ∈ sel.inputs, coin ∈ coins
  spendable : ∀ coin ∈ sel.inputs, coin.address.zone = request.zone ∧ coin.reserved = false ∧
    coin.unlockHeight ≤ request.candidateHeight ∧
    ∀ height, coin.expiresAt = some height → request.candidateHeight < height
  inputValue : (sel.inputs.map fun coin => coin.denomination.value).sum = sel.inputValue
  conserved : sel.inputValue =
    total sel.spendOutputs + total sel.changeOutputs + sel.fee
  spend : total sel.spendOutputs = request.target
  fee : sel.fee = request.fee
  maxInputs : sel.inputs.length ≤ request.maxInputs
  maxOutputs : sel.spendOutputs.length + sel.changeOutputs.length ≤ request.maxOutputs
  messages : 3 * sel.inputs.length + (sel.spendOutputs.length + sel.changeOutputs.length) + 3 ≤
    maxTransactionMessages

theorem Subperm.nodup_map {α β : Type*} {f : α → β} {l l' : List α} (h : l.Subperm l')
    (hnodup : (l'.map f).Nodup) : (l.map f).Nodup := by
  obtain ⟨m, hperm, hsub⟩ := subperm_iff.mp h
  exact ((hperm.map f).nodup_iff.mpr hnodup).sublist (hsub.map f)

theorem Chosen.sound (hnodup : (coins.map outpoint).Nodup)
    (h : Chosen (eligible request coins) request aggregatedSpend sel) :
    sel.Sound coins request where
  distinct := Subperm.nodup_map h.inputs (hnodup.sublist (filter_sublist.map _))
  fromSnapshot := fun coin hcoin => (mem_filter.mp (h.inputs.subset hcoin)).1
  spendable := fun coin hcoin => of_decide_eq_true (mem_filter.mp (h.inputs.subset hcoin)).2
  inputValue := by
    rw [← h.inputValue, coinTotal, Denomination.total, map_map]
    rfl
  conserved := by
    have := h.change
    rw [h.spend, h.fee]
    omega
  spend := h.spend
  fee := h.fee
  maxInputs := h.maxInputs
  maxOutputs := h.maxOutputs
  messages := h.messages

/-- Whatever the snapshot and the request, both selectors return only sound selections. -/
theorem selectFewest_sound (coins : List CandidateCoin) (request : SelectionRequest)
    (sel : CoinSelection)
    (h : selectFewest coins request = .ok sel ∨ selectFewestConverting coins request = .ok sel) :
    sel.Sound coins request := by
  rcases h with h | h
  · obtain ⟨hnodup, -, -, hchosen⟩ := selectFewestInner_spec h
    exact hchosen.sound hnodup
  · obtain ⟨hnodup, -, -, hchosen⟩ := selectFewestInner_spec h
    exact hchosen.sound hnodup

def cyprusQi : QiAddress where
  address := ⟨0x00 :: 0x80 :: replicate 18 0, rfl⟩
  zone := .cyprus1
  zone_eq := rfl
  ledger_eq := rfl

def hundredQits (index : UInt16) : CandidateCoin where
  outpoint := ⟨⟨0x01 :: replicate 31 0, rfl⟩, index⟩
  address := cyprusQi
  denomination := .hundred
  unlockHeight := 0
  expiresAt := none
  reserved := false

def sixtyFiveQits : SelectionRequest where
  zone := .cyprus1
  candidateHeight := 7
  target := 65
  fee := 3
  maxFee := 5
  maxInputs := 4
  maxOutputs := 16

theorem selectFewest_sound_hundred :
    ∃ sel, selectFewest [hundredQits 0, hundredQits 1] sixtyFiveQits = .ok sel ∧
      sel.Sound [hundredQits 0, hundredQits 1] sixtyFiveQits :=
  ⟨_, rfl, selectFewest_sound _ _ _ (.inl rfl)⟩

theorem Chosen.inputs_ne_nil (htarget : request.target ≠ 0)
    (h : Chosen coins request aggregatedSpend sel) :
    sel.inputs.map denomination ≠ [] := by
  intro hnil
  have hvalue := h.inputValue
  have hchange := h.change
  rw [coinTotal, hnil, total_nil] at hvalue
  omega

theorem sweepScan_spec {s : SweepScan}
    (h : coins.foldlM (sweepKeep request) ⟨[], Capacity.empty, 0⟩ = .ok s) :
    s.inputs = coins ∧ s.capacity = tally (s.inputs.map denomination) ∧
      s.total = coinTotal s.inputs ∧ s.inputs.length ≤ request.maxInputs := by
  -- the loop keeps the inventory, the total and the bound, and pushes every coin
  suffices hrun : ∀ (coins done : List CandidateCoin) (s s' : SweepScan), s.inputs = done →
      s.capacity = tally (s.inputs.map denomination) →
      s.total = coinTotal s.inputs → s.inputs.length ≤ request.maxInputs →
      coins.foldlM (sweepKeep request) s = .ok s' →
      s'.inputs = done ++ coins ∧ s'.capacity = tally (s'.inputs.map denomination) ∧
        s'.total = coinTotal s'.inputs ∧ s'.inputs.length ≤ request.maxInputs by
    exact hrun coins [] _ s rfl rfl rfl (Nat.zero_le _) h
  intro coins
  induction coins with
  | nil =>
    intro done s s' hinputs hcapacity htotal hbound hfold
    cases hfold
    exact ⟨by rw [hinputs, append_nil], hcapacity, htotal, hbound⟩
  | cons coin rest ih =>
    intro done s s' hinputs hcapacity htotal hbound hfold
    simp only [foldlM_cons, sweepKeep, bind_eq_ok, ite_error_eq_ok] at hfold
    obtain ⟨s₁, ⟨hlimit, total, hsum, hs₁⟩, hrest⟩ := hfold
    cases hs₁
    have hsum := (checkedAdd_eq_some (okOr_eq_ok.mp hsum)).1
    have hnext := ih (done ++ [coin]) _ s' (by simp [hinputs]) ?_ ?_ ?_ hrest
    · rw [append_assoc] at hnext
      exact hnext
    · simp [tally, hcapacity]
    · simp [hsum, htotal]
    · simp only [length_append, length_singleton]
      omega

theorem sweepAll_spec {maximum : Option Denomination} (h : sweepAll coins request maximum = .ok sel) :
    request.Bounded ∧ (coins.map outpoint).Nodup ∧
      ∃ s : SweepScan, s.inputs = eligible request coins ∧
        s.capacity = tally (s.inputs.map denomination) ∧
        s.total = coinTotal s.inputs ∧ s.inputs.length ≤ request.maxInputs ∧
        request.fee < s.total ∧ sweepOutputs request maximum s = .ok sel.spendOutputs ∧
        sel.inputs = s.inputs ∧ sel.changeOutputs = [] ∧ sel.inputValue = s.total ∧
        sel.fee = request.fee := by
  simp only [sweepAll, eq_ok, not_or, not_not] at h
  obtain ⟨⟨-, hbounded⟩, -, s, hscan, hfunds, outputs, houtputs, -, hsel⟩ := h
  obtain ⟨⟨hnodup, -, -⟩, hfold⟩ := scan_eq_ok.mp hscan
  obtain ⟨hinputs, hcapacity, htotal, hbound⟩ := sweepScan_spec hfold
  cases hsel
  exact ⟨hbounded, hnodup, s, hinputs, hcapacity, htotal, hbound, by omega, houtputs, rfl, rfl,
    rfl, rfl⟩

/-- What the selectors build for the Qi ledger passes `preserves_denominations`: all outputs of an
ordinary transfer or of a preserving sweep, the change of a conversion. -/
theorem selections_preserve_denominations (coins : List CandidateCoin)
    (request : SelectionRequest) (sel : CoinSelection) :
    ((selectFewest coins request = .ok sel ∨
        selectSweep coins request .preserveDenominations = .ok sel) →
      preservesDenominations (sel.inputs.map denomination)
        (sel.spendOutputs ++ sel.changeOutputs) = .ok ()) ∧
    (selectFewestConverting coins request = .ok sel →
      preservesDenominations (sel.inputs.map denomination)
        sel.changeOutputs = .ok ()) := by
  refine ⟨?_, fun h => ?_⟩
  · rintro (h | h)
    · obtain ⟨-, htarget, hbounded, hchosen⟩ := selectFewestInner_spec h
      have := hchosen.maxInputs
      have := hchosen.maxOutputs
      obtain ⟨-, ⟨-, hmaxIn⟩, -, hmaxOut⟩ := hbounded
      exact preservesDenominations_of_covers (hchosen.inputs_ne_nil htarget)
        (by rw [length_map]; omega) (by rw [length_append]; omega) hchosen.covers
    · obtain ⟨hbounded, -, s, -, hcapacity, htotal, hlength, hfunds, houtputs, hinputs, hchange, -⟩ :=
        sweepAll_spec h
      obtain ⟨⟨out, rest⟩, hout, hfst⟩ := map_eq_ok.mp (mapError_eq_ok.mp houtputs)
      obtain ⟨-, hbound, hdrawn⟩ := denominateAvailable_spec hout
      obtain ⟨-, ⟨-, hmaxIn⟩, -, hmaxOut⟩ := hbounded
      rw [hcapacity] at hdrawn
      rw [show out = sel.spendOutputs from hfst] at hbound hdrawn
      rw [hinputs, hchange, append_nil]
      refine preservesDenominations_of_covers (fun hnil => ?_) (by rw [length_map]; omega)
        (by omega) (hdrawn.covers chain)
      rw [coinTotal, hnil, total_nil] at htotal
      omega
  · obtain ⟨-, htarget, hbounded, hchosen⟩ := selectFewestInner_spec h
    have := hchosen.maxInputs
    have := hchosen.maxOutputs
    obtain ⟨-, ⟨-, hmaxIn⟩, -, hmaxOut⟩ := hbounded
    exact preservesDenominations_of_covers (hchosen.inputs_ne_nil htarget)
      (by rw [length_map]; omega) (by omega) hchosen.covers

theorem selections_preserve_denominations_hundred :
    ∃ sel converting sweep,
      selectFewest [hundredQits 0, hundredQits 1] sixtyFiveQits = .ok sel ∧
      selectSweep [hundredQits 0, hundredQits 1] { sixtyFiveQits with target := 0 }
        .preserveDenominations = .ok sweep ∧
      selectFewestConverting [hundredQits 0, hundredQits 1] sixtyFiveQits = .ok converting ∧
      preservesDenominations (sel.inputs.map denomination)
        (sel.spendOutputs ++ sel.changeOutputs) = .ok () ∧
      preservesDenominations (sweep.inputs.map denomination)
        (sweep.spendOutputs ++ sweep.changeOutputs) = .ok () ∧
      preservesDenominations (converting.inputs.map denomination)
        converting.changeOutputs = .ok () :=
  ⟨_, _, _, rfl, rfl, rfl,
    (selections_preserve_denominations [hundredQits 0, hundredQits 1] sixtyFiveQits _).1 (.inl rfl),
    (selections_preserve_denominations [hundredQits 0, hundredQits 1]
      { sixtyFiveQits with target := 0 } _).1 (.inr rfl),
    (selections_preserve_denominations [hundredQits 0, hundredQits 1] sixtyFiveQits _).2 rfl⟩

end QuaiSdk.Wallet
