import QuaiSdk.Wallet.Selection

/-!
# Splitting an inventory

What the two denomination loops produce.  `denominateAvailable` is the general drawing of units from
an inventory over the denomination chain; `preservesDenominations` accepts every list of outputs that
the inventory covers.
-/

namespace QuaiSdk.Wallet

open Result Inventory Denomination List Nat

/-- Breaking a coin is the exchange of the chain, refused only when a count leaves `u64`. -/
theorem breakCoin_succ (capacity : Capacity) {j : ℕ} (hj : j + 1 < 15) :
    breakCoin capacity (j + 1) =
      if exchange chain capacity (j + 1) j < 2 ^ 64 then .ok (exchange chain capacity (j + 1))
      else .error .overflow := by
  have hlower : Function.update capacity (j + 1) (capacity (j + 1) - 1) j = capacity j :=
    Function.update_of_ne (by omega) _ _
  have hj' : j < 15 := by omega
  simp only [breakCoin, ofIndex, hj, hj', Nat.add_sub_cancel, dif_pos, okOr_some, ok_bind, hlower,
    exchange_lower, checkedAddU64, value]
  change (okOr (if capacity j + unit (j + 1) / unit j < 2 ^ 64 then _ else _) _ >>= _) =
    if capacity j + unit (j + 1) / unit j < 2 ^ 64 then _ else _
  by_cases h : capacity j + unit (j + 1) / unit j < 2 ^ 64
  · simp only [if_pos h, okOr_some, ok_bind]
    rfl
  · simp only [if_neg h, okOr_none, error_bind]

variable {maxOutputs fuel n i : ℕ} {capacity capacity' : Capacity} {s s' : Allocation}
  {d : Denomination} {outputs : List Denomination}

theorem breakDown_eq_cascade {depth : ℕ} (hsize : i + depth < 15)
    (h : breakDown i depth capacity = .ok capacity') :
    capacity' = cascade chain i depth capacity := by
  induction depth generalizing capacity with
  | zero => exact (Except.ok.inj h).symm
  | succ depth ih =>
    rw [breakDown, bind_eq_ok] at h
    obtain ⟨c, hc, hrest⟩ := h
    rw [breakCoin_succ capacity (show i + depth + 1 < 15 from hsize)] at hc
    split at hc
    · rw [ih (by omega) hrest, ← Except.ok.inj hc]
      rfl
    · cases hc

/-- An inventory worth less than `2 ^ 64` in all never overflows a slot. -/
theorem breakDown_of_worth_lt (i depth : ℕ) (hsize : i + depth < 15)
    (hpos : 0 < capacity (i + depth)) (hworth : worth chain capacity 0 < 2 ^ 64) :
    breakDown i depth capacity = .ok (cascade chain i depth capacity) := by
  induction depth generalizing capacity with
  | zero => rfl
  | succ depth ih =>
    have hstep : i + depth + 1 < chain.size := hsize
    have hlow : i + depth < chain.size := by omega
    have hkeep := worth_exchange chain capacity hstep hpos 0
    rw [if_neg (by omega), add_zero] at hkeep
    rw [← hkeep] at hworth
    have hslot : exchange chain capacity (i + depth + 1) (i + depth) < 2 ^ 64 :=
      lt_of_le_of_lt (count_le_worth chain _ hlow) hworth
    rw [breakDown, breakCoin_succ capacity hstep, if_pos hslot, ok_bind]
    exact ih hlow (exchange_lower_pos chain capacity hstep) hworth

theorem findSource_spec {source : ℕ} (h : findSource i capacity = some source) :
    i ≤ source ∧ source < 15 ∧ 0 < capacity source := by
  have hmem := mem_of_find?_eq_some h
  have hpos := find?_some h
  rw [mem_range'_1] at hmem
  exact ⟨hmem.1, by omega, of_decide_eq_true hpos⟩

theorem exists_findSource (h : 0 < worth chain capacity i) :
    ∃ source, findSource i capacity = some source := by
  obtain ⟨j, hij, hj, hpos⟩ := exists_pos_of_worth_pos chain h
  have hj15 : j < 15 := hj
  apply Option.isSome_iff_exists.mp
  rw [findSource, find?_isSome]
  exact ⟨j, by rw [mem_range'_1]; omega, decide_eq_true hpos⟩

/-- What the loops of `denominate_available` keep: the outputs pushed so far were drawn from the
inventory and account for the value taken off, within the output bound. -/
structure Allocated (maxOutputs : ℕ) (s s' : Allocation) (out : List Denomination) : Prop where
  result : s'.result = s.result ++ out
  value : s'.value + total out = s.value
  drawn : Drawn chain s.capacity s'.capacity (out.map index)
  bound : s.result.length ≤ maxOutputs → s'.result.length ≤ maxOutputs

namespace Allocated

variable {maxOutputs : ℕ} {s s₁ s₂ : Allocation} {out out' : List Denomination}

theorem refl : Allocated maxOutputs s s [] where
  result := (append_nil _).symm
  value := rfl
  drawn := Drawn.refl chain _
  bound := id

theorem trans (h₁ : Allocated maxOutputs s s₁ out) (h₂ : Allocated maxOutputs s₁ s₂ out') :
    Allocated maxOutputs s s₂ (out ++ out') where
  result := by rw [h₂.result, h₁.result, append_assoc]
  value := by
    have := h₁.value
    have := h₂.value
    rw [total_append]
    omega
  drawn := by
    rw [map_append]
    exact h₁.drawn.trans chain h₂.drawn
  bound := h₂.bound ∘ h₁.bound

end Allocated

def Allocation.take (s : Allocation) (d : Denomination) (source : ℕ) : Allocation where
  value := s.value - d.value
  capacity := draw chain d.index (source - d.index) s.capacity
  result := s.result ++ [d]

theorem allocated_take {source : ℕ} (hsource : findSource d.index s.capacity = some source)
    (hvalue : d.value ≤ s.value) (hlimit : s.result.length ≠ maxOutputs) :
    Allocated maxOutputs s (s.take d source) [d] where
  result := rfl
  value := by
    change s.value - d.value + total [d] = s.value
    rw [total_cons, total_nil]
    omega
  drawn := by
    obtain ⟨hle, hlt, hpos⟩ := findSource_spec hsource
    have hsum : d.index + (source - d.index) = source := by omega
    exact drawn_draw chain (show _ < 15 by omega) (by rw [hsum]; exact hpos)
  bound := fun h => by
    change (s.result ++ [d]).length ≤ maxOutputs
    rw [length_append, length_singleton]
    omega

theorem allocateUnit_succ (h : allocateUnit d maxOutputs (fuel + 1) s = .ok s') :
    (s' = s ∧ (s.value < d.value ∨ findSource d.index s.capacity = none)) ∨
      ∃ source, findSource d.index s.capacity = some source ∧ d.value ≤ s.value ∧
        s.result.length ≠ maxOutputs ∧
        allocateUnit d maxOutputs fuel (s.take d source) = .ok s' := by
  rw [allocateUnit] at h
  by_cases hlt : s.value < d.value
  · rw [if_pos hlt] at h
    exact .inl ⟨(Except.ok.inj h).symm, .inl hlt⟩
  rw [if_neg hlt] at h
  cases hsource : findSource d.index s.capacity with
  | none =>
    rw [hsource] at h
    exact .inl ⟨(Except.ok.inj h).symm, .inr rfl⟩
  | some source =>
    simp only [hsource, eq_ok] at h
    obtain ⟨hlimit, capacity, hcapacity, hrest⟩ := h
    obtain ⟨hle, hlt15, -⟩ := findSource_spec hsource
    rw [breakDown_eq_cascade (by omega) hcapacity] at hrest
    exact .inr ⟨source, rfl, by omega, hlimit, hrest⟩

theorem allocateUnit_allocated (h : allocateUnit d maxOutputs fuel s = .ok s') :
    ∃ out, Allocated maxOutputs s s' out := by
  induction fuel generalizing s with
  | zero =>
    cases h
    exact ⟨[], Allocated.refl⟩
  | succ fuel ih =>
    obtain ⟨rfl, -⟩ | ⟨source, hsource, hvalue, hlimit, hrest⟩ := allocateUnit_succ h
    · exact ⟨[], Allocated.refl⟩
    · obtain ⟨out, hout⟩ := ih hrest
      exact ⟨_, (allocated_take hsource hvalue hlimit).trans hout⟩

/-- With `value / unit` rounds of fuel the inner loop ends by its own condition. -/
theorem allocateUnit_done (hfuel : s.value / d.value ≤ fuel)
    (h : allocateUnit d maxOutputs fuel s = .ok s') :
    s'.value < d.value ∨ findSource d.index s'.capacity = none := by
  induction fuel generalizing s with
  | zero =>
    cases h
    exact .inl (lt_of_div_eq_zero d.value_pos (le_zero.mp hfuel))
  | succ fuel ih =>
    obtain ⟨rfl, hstop⟩ | ⟨source, -, hvalue, -, hrest⟩ := allocateUnit_succ h
    · exact hstop
    · refine ih ?_ hrest
      change (s.value - d.value) / d.value ≤ fuel
      rw [div_eq_sub_div d.value_pos hvalue] at hfuel
      omega

theorem allocateBelow_allocated (h : allocateBelow maxOutputs n s = .ok s') :
    ∃ out, Allocated maxOutputs s s' out := by
  induction n generalizing s with
  | zero =>
    cases h
    exact ⟨[], Allocated.refl⟩
  | succ i ih =>
    simp only [allocateBelow, bind_eq_ok] at h
    obtain ⟨d, -, s₁, hunit, hrest⟩ := h
    obtain ⟨out, hout⟩ := allocateUnit_allocated hunit
    obtain ⟨out', hout'⟩ := ih hrest
    exact ⟨_, hout.trans hout'⟩

/-- The outputs of `denominate_available` sum to the value, fit the bound and are drawn from the
inventory that was passed in. -/
theorem denominateAvailable_spec {value : ℕ} {out : List Denomination}
    (h : denominateAvailable value capacity maxOutputs = .ok (out, capacity')) :
    total out = value ∧ out.length ≤ maxOutputs ∧
      Drawn chain capacity capacity' (out.map index) := by
  simp only [denominateAvailable, bind_eq_ok, ite_error_eq_ok] at h
  obtain ⟨s, hs, hzero, hpair⟩ := h
  obtain ⟨out', hout⟩ := allocateBelow_allocated hs
  obtain ⟨rfl, rfl⟩ := Prod.mk.inj (Except.ok.inj hpair)
  have hresult : s.result = out' := hout.result
  have hvalue : s.value + total out' = value := hout.value
  have hbound := hout.bound (zero_le _)
  refine ⟨?_, hbound, ?_⟩
  · rw [hresult]
    omega
  · rw [hresult]
    exact hout.drawn

theorem value_of_index_zero {d : Denomination} (h : d.index = 0) : d.value = 1 := by
  rw [Denomination.value, h]
  rfl

theorem largestUnit_spec {s s' : ℕ × List Denomination}
    (h : largestUnit d maxOutputs fuel s = .ok s') :
    s'.1 + total s'.2 = s.1 + total s.2 ∧ (s.2.length ≤ maxOutputs → s'.2.length ≤ maxOutputs) ∧
      (s.1 / d.value ≤ fuel → s'.1 < d.value) := by
  induction fuel generalizing s with
  | zero =>
    cases h
    exact ⟨rfl, id, fun hfuel => Nat.lt_of_div_eq_zero d.value_pos (Nat.le_zero.mp hfuel)⟩
  | succ fuel ih =>
    obtain ⟨value, result⟩ := s
    rw [largestUnit] at h
    by_cases hlt : value < d.value
    · rw [if_pos hlt] at h
      cases h
      exact ⟨rfl, id, fun _ => hlt⟩
    · rw [if_neg hlt, ite_error_eq_ok] at h
      obtain ⟨hsum, hbound, hdone⟩ := ih h.2
      simp only [total_append, total_cons, total_nil, length_append,
        length_singleton] at hsum hbound hdone ⊢
      refine ⟨by omega, fun hle => hbound (by omega), fun hfuel => hdone ?_⟩
      rw [Nat.div_eq_sub_div d.value_pos (not_lt.mp hlt)] at hfuel
      omega

theorem largestBelow_spec {s s' : ℕ × List Denomination} (h : largestBelow maxOutputs n s = .ok s') :
    s'.1 + total s'.2 = s.1 + total s.2 ∧
      (s.2.length ≤ maxOutputs → s'.2.length ≤ maxOutputs) ∧ (0 < n → s'.1 = 0) := by
  induction n generalizing s with
  | zero =>
    cases h
    exact ⟨rfl, id, fun hpos => absurd hpos (lt_irrefl 0)⟩
  | succ i ih =>
    simp only [largestBelow, bind_eq_ok] at h
    obtain ⟨d, hd, s₁, hunit, hrest⟩ := h
    obtain ⟨hsum, hbound, hdone⟩ := largestUnit_spec hunit
    obtain ⟨hsum', hbound', hzero⟩ := ih hrest
    refine ⟨hsum'.trans hsum, hbound' ∘ hbound, fun _ => ?_⟩
    rcases Nat.eq_zero_or_pos i with rfl | hpos
    · -- the last round takes unit coins
      cases hrest
      have hlt := hdone le_rfl
      rw [value_of_index_zero (index_of_ofIndex (okOr_eq_ok.mp hd))] at hlt
      omega
    · exact hzero hpos

theorem denominateLargest_spec {value : ℕ} {out : List Denomination}
    (h : denominateLargest value maxOutputs = .ok out) :
    total out = value ∧ out.length ≤ maxOutputs := by
  simp only [denominateLargest, eq_ok] at h
  obtain ⟨s, hs, hzero, hout⟩ := h
  obtain ⟨hsum, hbound, -⟩ := largestBelow_spec hs
  cases hout
  simp only [total_nil] at hsum
  exact ⟨by omega, hbound (zero_le _)⟩

theorem allocateBelow_skip {m : ℕ} (hmn : m ≤ n) (hn : n ≤ 15)
    (h : ∀ i, m ≤ i → i < n → s.value < unit i) :
    allocateBelow maxOutputs n s = allocateBelow maxOutputs m s := by
  induction n, hmn using le_induction with
  | base => rfl
  | succ n hmn ih =>
    have hlt : n < 15 := hn
    have hfuel : s.value / unit n = 0 := div_eq_of_lt (h n hmn (lt_succ_self n))
    rw [← ih (by omega) fun i hi hin => h i hi (by omega)]
    simp only [allocateBelow, ofIndex, hlt, dif_pos, okOr_some, ok_bind, value, hfuel, allocateUnit]

theorem allocateBelow_of_value_eq_zero (hn : n ≤ 15) (h : s.value = 0) :
    allocateBelow maxOutputs n s = .ok s := by
  rw [allocateBelow_skip (zero_le n) hn fun i _ hi => by
    rw [h]
    exact chain.pos i (show i < 15 by omega)]
  rfl

theorem checkOutput_of_le_worth {output : Denomination}
    (hle : output.value ≤ worth chain capacity output.index)
    (hworth : worth chain capacity 0 < 2 ^ 64) :
    ∃ source, findSource output.index capacity = some source ∧ checkOutput capacity output =
        .ok (draw chain output.index (source - output.index) capacity) := by
  obtain ⟨source, hsource⟩ := exists_findSource (lt_of_lt_of_le output.value_pos hle)
  obtain ⟨hge, hlt, hpos⟩ := findSource_spec hsource
  have hsum : output.index + (source - output.index) = source := by omega
  have hbreak := breakDown_of_worth_lt output.index (source - output.index)
    (by omega) (by rw [hsum]; exact hpos) hworth
  have hskip : ∀ i, output.index + 1 ≤ i → i < 15 → output.value < unit i := fun i hi hi15 =>
    chain.unit_lt_of_lt hi hi15
  have hone : output.value / output.value = 1 := Nat.div_self output.value_pos
  refine ⟨source, hsource, ?_⟩
  unfold checkOutput denominateAvailable
  rw [allocateBelow_skip output.isLt le_rfl hskip]
  simp only [allocateBelow, ofIndex_index, okOr_some, ok_bind, hone, allocateUnit, lt_irrefl,
    if_false, hsource, length_nil, zero_ne_one, hbreak, nil_append]
  rw [allocateBelow_of_value_eq_zero output.isLt.le (Nat.sub_self _)]
  simp [draw]

theorem checkOutputs_of_covers (hsorted : outputs.Pairwise fun a b => b.index ≤ a.index)
    (hworth : worth chain capacity 0 < 2 ^ 64) (hcovers : Covers chain capacity (outputs.map index)) :
    ∃ capacity', outputs.foldlM checkOutput capacity = .ok capacity' := by
  induction outputs generalizing capacity with
  | nil => exact ⟨capacity, rfl⟩
  | cons output rest ih =>
    obtain ⟨hfirst, hrest⟩ := pairwise_cons.mp hsorted
    have hunit : output.value ≤ worth chain capacity output.index := by
      have := hcovers output.index
      rw [map_cons, demand_cons, if_pos le_rfl] at this
      exact le_trans (le_add_right _ _) this
    obtain ⟨source, hsource, hcheck⟩ := checkOutput_of_le_worth hunit hworth
    obtain ⟨hge, hlt, hpos⟩ := findSource_spec hsource
    have hsum : output.index + (source - output.index) = source := by omega
    have hsize : output.index + (source - output.index) < chain.size := by rw [hsum]; exact hlt
    rw [← hsum] at hpos
    have hless := worth_draw chain _ _ capacity hsize hpos 0
    rw [foldlM_cons, hcheck, ok_bind]
    refine ih hrest (by omega) (covers_tail_of_draw chain hsize hpos ?_ hcovers)
    intro o ho
    obtain ⟨d, hd, rfl⟩ := mem_map.mp ho
    exact hfirst d hd

def atLeast (k : ℕ) (ds : List Denomination) : List Denomination :=
  ds.filter fun d => decide (k ≤ d.index)

theorem total_atLeast_cons (k : ℕ) (d : Denomination) (ds : List Denomination) :
    total (atLeast k (d :: ds)) = (if k ≤ d.index then d.value else 0) + total (atLeast k ds) := by
  unfold atLeast
  by_cases h : k ≤ d.index <;> simp [h]

section

variable (ds : List Denomination)

theorem atLeast_zero : atLeast 0 ds = ds :=
  filter_eq_self.mpr fun d _ => decide_eq_true (zero_le d.index)

theorem demand_map_index (k : ℕ) : demand chain (ds.map index) k = total (atLeast k ds) := by
  induction ds with
  | nil => rfl
  | cons d ds ih =>
    rw [map_cons, demand_cons, ih, total_atLeast_cons]
    rfl

theorem worth_foldl_add (capacity : Capacity) (k : ℕ) :
    worth chain (ds.foldl Capacity.add capacity) k =
      worth chain capacity k + total (atLeast k ds) := by
  induction ds generalizing capacity with
  | nil => rfl
  | cons d ds ih =>
    have hstep : worth chain (Capacity.add capacity d) k =
        worth chain capacity k + if k ≤ d.index then d.value else 0 := by
      unfold Capacity.add
      by_cases h : k ≤ d.index
      · have hadd := worth_update_of_le chain capacity (j := d.index) (k := k)
          (x := capacity d.index + 1) h d.isLt
        have hunit : chain.unit d.index = d.value := rfl
        rw [add_mul, one_mul, hunit] at hadd
        rw [if_pos h]
        omega
      · rw [worth_update_of_lt chain capacity (by omega), if_neg h, add_zero]
    rw [foldl_cons, ih, hstep, total_atLeast_cons]
    omega

theorem worth_tally_atLeast (k : ℕ) : worth chain (tally ds) k = total (atLeast k ds) := by
  have hempty : worth chain Capacity.empty k = 0 := by simp [worth, Capacity.empty]
  rw [tally, worth_foldl_add, hempty, zero_add]

theorem worth_tally : worth chain (tally ds) 0 = total ds := by
  rw [worth_tally_atLeast, atLeast_zero]

theorem total_le : total ds ≤ ds.length * 1000000000 := by
  induction ds with
  | nil => rfl
  | cons d ds ih =>
    have hd : d.value ≤ 1000000000 :=
      chain.unit_le_of_le (i := d.index) (j := 14) (by have := d.isLt; omega) (by decide)
    rw [total_cons, length_cons, add_mul]
    omega

end

/-- Within the message bounds, `preserves_denominations` accepts whatever the inputs cover. -/
theorem preservesDenominations_of_covers {inputs : List Denomination} (hnil : inputs ≠ [])
    (hin : inputs.length ≤ 4096) (hout : outputs.length ≤ 4096)
    (hcovers : Covers chain (tally inputs) (outputs.map index)) :
    preservesDenominations inputs outputs = .ok () := by
  have hperm : (descending outputs).Perm outputs := perm_insertionSort _ _
  have hworth : worth chain (tally inputs) 0 < 2 ^ 64 := by
    have := total_le inputs
    rw [worth_tally]
    omega
  have hsorted : (descending outputs).Pairwise fun a b => b.index ≤ a.index :=
    pairwise_insertionSort (fun a b : Denomination => b.index ≤ a.index) outputs
  have hdesc : Covers chain (tally inputs) ((descending outputs).map index) := fun k => by
    rw [demand_perm chain (hperm.map index) k]
    exact hcovers k
  obtain ⟨capacity', hok⟩ := checkOutputs_of_covers hsorted hworth hdesc
  have hguard : ¬(inputs = [] ∨ 4096 < inputs.length ∨ 4096 < outputs.length) := by
    rintro (h | h | h)
    · exact hnil h
    · omega
    · omega
  rw [preservesDenominations, if_neg hguard, hok]
  rfl

theorem drawn_of_checkOutputs (h : outputs.foldlM checkOutput capacity = .ok capacity') :
    Drawn chain capacity capacity' (outputs.map index) := by
  induction outputs generalizing capacity with
  | nil =>
    cases h
    exact Drawn.refl chain _
  | cons output rest ih =>
    rw [foldlM_cons, bind_eq_ok] at h
    obtain ⟨capacity₁, hcheck, hrest⟩ := h
    obtain ⟨⟨result, after⟩, havailable, hresult⟩ := bind_eq_ok.mp hcheck
    rw [ite_error_eq_ok, not_not] at hresult
    obtain ⟨rfl, hafter⟩ := hresult
    cases hafter
    obtain ⟨-, -, hdrawn⟩ := denominateAvailable_spec havailable
    have hboth := hdrawn.trans chain (ih hrest)
    rwa [← map_append] at hboth

/-- `preserves_denominations` decides the node's rule: nothing may be combined, so from every size
on the outputs are worth no more than the inputs. -/
theorem preservesDenominations_iff {inputs outputs : List Denomination} (hnil : inputs ≠ [])
    (hin : inputs.length ≤ 4096) (hout : outputs.length ≤ 4096) :
    preservesDenominations inputs outputs = .ok () ↔
      ∀ k : Denomination, total (outputs.filter fun d => decide (k.index ≤ d.index)) ≤
        total (inputs.filter fun d => decide (k.index ≤ d.index)) := by
  constructor
  · intro h k
    rw [preservesDenominations, ite_error_eq_ok, bind_eq_ok] at h
    obtain ⟨-, capacity, hfold, -⟩ := h
    have hcovers := (drawn_of_checkOutputs hfold).covers chain k.index
    have hperm : (descending outputs).Perm outputs := perm_insertionSort _ _
    rw [demand_perm chain (hperm.map index), demand_map_index, worth_tally_atLeast] at hcovers
    exact hcovers
  · intro h
    refine preservesDenominations_of_covers hnil hin hout fun k => ?_
    rw [demand_map_index, worth_tally_atLeast]
    by_cases hk : k < 15
    · exact h ⟨k, hk⟩
    · -- there is no denomination that large
      have hnone : atLeast k outputs = [] := filter_eq_nil_iff.mpr fun d _ => by
        have := d.isLt
        rw [decide_eq_true_eq]
        omega
      rw [hnone, total_nil]
      exact zero_le _

/-- Coins of 100 and 5 Qits split into 50, 5 and 50. -/
theorem preservesDenominations_iff_split :
    preservesDenominations [⟨1, by decide⟩, ⟨4, by decide⟩]
      [⟨3, by decide⟩, ⟨1, by decide⟩, ⟨3, by decide⟩] = .ok () := by
  have hrule : ∀ k < 15,
      total (atLeast k [⟨3, by decide⟩, ⟨1, by decide⟩, ⟨3, by decide⟩]) ≤
        total (atLeast k [⟨1, by decide⟩, ⟨4, by decide⟩]) := by decide
  exact (preservesDenominations_iff (by decide) (by decide) (by decide)).mpr fun k =>
    hrule k.index k.isLt

end QuaiSdk.Wallet
