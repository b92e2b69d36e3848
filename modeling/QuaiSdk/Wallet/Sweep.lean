import QuaiSdk.Wallet.Selection

/-!
# Sweeping and threshold aggregation

`select_sweep` and `select_aggregate`.  The aggregating selectors index a slice and subtract without
checks, so their models can also end in a panic.
-/

namespace QuaiSdk.Wallet

open Result

structure AggregationPolicy where
  maximumInput : Denomination
  maximumOutput : Denomination
  requireReduction : Bool
  deriving DecidableEq

inductive SweepMode where
  | aggregateThreshold (policy : AggregationPolicy)
  | preserveDenominations
  | aggregate (maximum : Denomination)
  deriving DecidableEq

/-- An error the selector returns, or a panic of an unchecked operation. -/
inductive Fault where
  | returned (error : SelectionError)
  | panic
  deriving DecidableEq

def checkedSub (a b : ℕ) : Except Fault ℕ := if b ≤ a then .ok (a - b) else .error .panic

theorem checkedSub_eq_ok {a b c : ℕ} : checkedSub a b = .ok c ↔ b ≤ a ∧ c = a - b := by
  unfold checkedSub
  by_cases h : b ≤ a
  · simp [h, eq_comm]
  · simp [h]

/-- An unchecked slice `list[start..stop]`. -/
def slice {α : Type} (list : List α) (start stop : ℕ) : Except Fault (List α) :=
  if start ≤ stop ∧ stop ≤ list.length then .ok ((list.take stop).drop start) else .error .panic

/-- `for i in (0..n).rev()` of the combining decompositions: as many of each unit as fit. -/
def combineBelow (maxOutputs : ℕ) :
    ℕ → ℕ × List Denomination → Except Fault (ℕ × List Denomination)
  | 0, s => .ok s
  | i + 1, (remaining, outputs) => do
    let denomination ← okOr (Denomination.ofIndex i) (Fault.returned .invalidCoin)
    let count := remaining / denomination.value
    let room ← checkedSub maxOutputs outputs.length
    if room < count then .error (.returned .limitExceeded)
    else
      combineBelow maxOutputs i
        (remaining % denomination.value, outputs ++ List.replicate count denomination)

structure SweepScan where
  inputs : List CandidateCoin
  capacity : Capacity
  total : ℕ

def sweepKeep (request : SelectionRequest) (s : SweepScan) (coin : CandidateCoin) :
    Except SelectionError SweepScan :=
  if s.inputs.length = request.maxInputs then .error .limitExceeded
  else do
    let total ← okOr (checkedAdd s.total coin.value) SelectionError.overflow
    .ok { inputs := s.inputs ++ [coin], capacity := s.capacity.add coin.denomination, total }

/-- `SweepMode::Aggregate` outputs; they must reduce the number of coins. -/
def sweepCombine (request : SelectionRequest) (maximum : Denomination) (inputs value : ℕ) :
    Except Fault (List Denomination) := do
  let (_, outputs) ← combineBelow request.maxOutputs (maximum.index + 1) (value, [])
  if inputs ≤ outputs.length then .error (.returned .invalidRequest) else .ok outputs

/-- `spend_outputs` of `select_sweep`. -/
def sweepOutputs (request : SelectionRequest) (maximum : Option Denomination) (s : SweepScan) :
    Except Fault (List Denomination) :=
  match maximum with
  | none =>
    ((denominateAvailable (s.total - request.fee) s.capacity request.maxOutputs).map
      Prod.fst).mapError Fault.returned
  | some maximum => sweepCombine request maximum s.inputs.length (s.total - request.fee)

/-- The two modes of `select_sweep` that spend every eligible coin; `maximum` is the largest output
of `SweepMode::Aggregate`, absent for `SweepMode::PreserveDenominations`. -/
def sweepAll (coins : List CandidateCoin) (request : SelectionRequest)
    (maximum : Option Denomination) : Except Fault CoinSelection :=
  if request.target ≠ 0 ∨ ¬request.Bounded then .error (.returned .invalidRequest)
  else if 100000 < coins.length then .error (.returned .limitExceeded)
  else do
    let s ← (scan request (sweepKeep request) coins [] ⟨[], Capacity.empty, 0⟩).mapError
      Fault.returned
    if s.total ≤ request.fee then .error (.returned .insufficientFunds)
    else
      let spendOutputs ← sweepOutputs request maximum s
      if s.inputs.length * 3 + spendOutputs.length + 3 > maxTransactionMessages
      then .error (.returned .limitExceeded)
      else .ok { inputs := s.inputs, spendOutputs, changeOutputs := [], inputValue := s.total,
                 fee := request.fee }

structure AggregateScan where
  buckets : Buckets
  total : ℕ
  smallValue : ℕ

def addSmall (policy : AggregationPolicy) (smallValue : ℕ) (coin : CandidateCoin) :
    Except SelectionError ℕ :=
  if coin.denomination.index ≤ policy.maximumInput.index then
    okOr (checkedAdd smallValue coin.value) SelectionError.overflow
  else .ok smallValue

def aggregateKeep (policy : AggregationPolicy) (s : AggregateScan) (coin : CandidateCoin) :
    Except SelectionError AggregateScan := do
  let total ← okOr (checkedAdd s.total coin.value) SelectionError.overflow
  let smallValue ← addSmall policy s.smallValue coin
  .ok { buckets := s.buckets.push coin, total, smallValue }

/-- `while aggregate_value < wanted`, over `ordered[end..]`. -/
def growAggregate (wanted : ℕ) : List CandidateCoin → ℕ × ℕ → Except Fault (ℕ × ℕ)
  | [], (value, stop) => if value < wanted then .error .panic else .ok (value, stop)
  | coin :: rest, (value, stop) =>
    if value < wanted then growAggregate wanted rest (value + coin.value, stop + 1)
    else .ok (value, stop)

/-- `while total - aggregate_value < request.fee`, over `ordered[start..]`. -/
def shrinkAggregate (total fee : ℕ) : List CandidateCoin → ℕ × ℕ → Except Fault (ℕ × ℕ)
  | [], (value, start) => do
    let outside ← checkedSub total value
    if outside < fee then .error .panic else .ok (value, start)
  | coin :: rest, (value, start) => do
    let outside ← checkedSub total value
    if outside < fee then do
      let value ← checkedSub value coin.value
      shrinkAggregate total fee rest (value, start + 1)
    else .ok (value, start)

/-- The loop that funds the fee from coins outside `start..stop`, at index `i`. -/
def feeInputs (request : SelectionRequest) (start stop : ℕ) :
    ℕ → List CandidateCoin → List CandidateCoin × ℕ →
      Except SelectionError (List CandidateCoin × ℕ)
  | _, [], s => .ok s
  | i, coin :: rest, (inputs, feeValue) =>
    if request.fee ≤ feeValue then .ok (inputs, feeValue)
    else if start ≤ i ∧ i < stop then feeInputs request start stop (i + 1) rest (inputs, feeValue)
    else if inputs.length = request.maxInputs then .error .limitExceeded
    else feeInputs request start stop (i + 1) rest (inputs ++ [coin], feeValue + coin.value)

/-- The part of `select_aggregate` after the snapshot loop, on the stable ascending candidates. -/
def aggregateOrdered (ordered : List CandidateCoin) (total smallValue : ℕ)
    (request : SelectionRequest) (policy : AggregationPolicy) : Except Fault CoinSelection := do
  let largeValue ← checkedSub total smallValue
  let wanted ← checkedSub smallValue (request.fee - largeValue)
  let (aggregateValue, stop) ← growAggregate wanted ordered (0, 0)
  let (aggregateValue, start) ← shrinkAggregate total request.fee ordered (aggregateValue, 0)
  let (inputs, feeValue) ←
    (feeInputs request start stop 0 ordered ([], 0)).mapError Fault.returned
  if feeValue < request.fee then .error (.returned .insufficientFunds)
  else
    let width ← checkedSub stop start
    let room ← checkedSub request.maxInputs inputs.length
    if room < width then .error (.returned .limitExceeded)
    else
      let aggregated ← slice ordered start stop
      let inputs := inputs ++ aggregated
      let refund ← checkedSub feeValue request.fee
      let (_, outputs) ← combineBelow request.maxOutputs (policy.maximumOutput.index + 1)
        (aggregateValue, [])
      let (_, outputs) ← combineBelow request.maxOutputs (policy.maximumOutput.index + 1)
        (refund, outputs)
      if outputs = [] ∨ policy.requireReduction = true ∧ inputs.length ≤ outputs.length then
        .error (.returned .invalidRequest)
      else if inputs.length * 3 + outputs.length + 3 > maxTransactionMessages then
        .error (.returned .limitExceeded)
      else .ok { inputs, spendOutputs := outputs, changeOutputs := [],
                 inputValue := aggregateValue + feeValue, fee := request.fee }

def selectAggregate (coins : List CandidateCoin) (request : SelectionRequest)
    (policy : AggregationPolicy) : Except Fault CoinSelection :=
  if request.target ≠ 0 ∨ ¬request.Bounded then .error (.returned .invalidRequest)
  else if 100000 < coins.length then .error (.returned .limitExceeded)
  else do
    let s ← (scan request (aggregateKeep policy) coins [] ⟨Buckets.empty, 0, 0⟩).mapError
      Fault.returned
    if s.total ≤ request.fee ∨ s.smallValue = 0 then .error (.returned .insufficientFunds)
    else aggregateOrdered s.buckets.ordered s.total s.smallValue request policy

def selectSweep (coins : List CandidateCoin) (request : SelectionRequest) (mode : SweepMode) :
    Except Fault CoinSelection :=
  match mode with
  | .aggregateThreshold policy => selectAggregate coins request policy
  | .preserveDenominations => sweepAll coins request none
  | .aggregate maximum => sweepAll coins request (some maximum)

end QuaiSdk.Wallet
