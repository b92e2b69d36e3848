import QuaiSdk.Lib.Result
import QuaiSdk.Consensus.Denomination

/-!
# Coin selection

`selection.rs` of `quai-wallet`: bounded deterministic selection over an explicit UTXO snapshot.
Amounts and heights are `U256` in the source; here they are natural numbers whose additions are
checked at `2 ^ 256`.  An inventory is the `[u64; 15]` count of coins for each denomination.
-/

namespace QuaiSdk

open Result

/-- `U256::checked_add`. -/
def checkedAdd (a b : ℕ) : Option ℕ := if a + b < 2 ^ 256 then some (a + b) else none

/-- `u64::checked_add`. -/
def checkedAddU64 (a b : ℕ) : Option ℕ := if a + b < 2 ^ 64 then some (a + b) else none

theorem checkedAdd_eq_some {a b c : ℕ} (h : checkedAdd a b = some c) : c = a + b ∧ c < 2 ^ 256 := by
  unfold checkedAdd at h
  split at h <;> simp_all

namespace Wallet

structure CandidateCoin where
  outpoint : OutPoint
  address : QiAddress
  denomination : Denomination
  unlockHeight : ℕ
  expiresAt : Option ℕ
  reserved : Bool
  deriving DecidableEq

structure SelectionRequest where
  zone : Zone
  candidateHeight : ℕ
  target : ℕ
  fee : ℕ
  maxFee : ℕ
  maxInputs : ℕ
  maxOutputs : ℕ
  deriving DecidableEq

structure CoinSelection where
  inputs : List CandidateCoin
  spendOutputs : List Denomination
  changeOutputs : List Denomination
  inputValue : ℕ
  fee : ℕ
  deriving DecidableEq

inductive SelectionError where
  | invalidRequest
  | invalidCoin
  | overflow
  | insufficientFunds
  | limitExceeded
  | feeBudgetExceeded
  | feeDidNotConverge
  | estimationFailed
  deriving DecidableEq

open SelectionError

namespace CandidateCoin

def value (coin : CandidateCoin) : ℕ := coin.denomination.value

def Placed (coin : CandidateCoin) : Prop :=
  coin.outpoint.transactionHash.byte 2 = coin.address.zone.byte ∧
    coin.outpoint.transactionHash ≠ Hash32.zero

instance (coin : CandidateCoin) : Decidable coin.Placed :=
  inferInstanceAs (Decidable (_ ∧ _))

def Eligible (request : SelectionRequest) (coin : CandidateCoin) : Prop :=
  coin.address.zone = request.zone ∧ coin.reserved = false ∧
    coin.unlockHeight ≤ request.candidateHeight ∧
    ∀ height ∈ coin.expiresAt, request.candidateHeight < height

instance (request : SelectionRequest) (coin : CandidateCoin) :
    Decidable (coin.Eligible request) :=
  inferInstanceAs (Decidable (_ ∧ _ ∧ _ ∧ _))

end CandidateCoin

def coinTotal (coins : List CandidateCoin) : ℕ :=
  Denomination.total (coins.map CandidateCoin.denomination)

abbrev Capacity := ℕ → ℕ

/-- `capacity[i] += 1`. -/
def Capacity.add (capacity : Capacity) (d : Denomination) : Capacity :=
  Function.update capacity d.index (capacity d.index + 1)

def Capacity.empty : Capacity := fun _ => 0

def tally (ds : List Denomination) : Capacity := ds.foldl Capacity.add Capacity.empty

/-- One round of `for j in (i + 1..=source).rev()`: break one coin `j` into coins `j - 1`. -/
def breakCoin (capacity : Capacity) (j : ℕ) : Except SelectionError Capacity := do
  let capacity := Function.update capacity j (capacity j - 1)
  let larger ← okOr (Denomination.ofIndex j) invalidCoin
  let smaller ← okOr (Denomination.ofIndex (j - 1)) invalidCoin
  let count ← okOr (checkedAddU64 (capacity (j - 1)) (larger.value / smaller.value))
    overflow
  .ok (Function.update capacity (j - 1) count)

/-- The loop `for j in (i + 1..=i + depth).rev()`. -/
def breakDown (i : ℕ) : ℕ → Capacity → Except SelectionError Capacity
  | 0, capacity => .ok capacity
  | depth + 1, capacity => do
    let capacity ← breakCoin capacity (i + depth + 1)
    breakDown i depth capacity

/-- `(i..15).find(|&j| capacity[j] > 0)`. -/
def findSource (i : ℕ) (capacity : Capacity) : Option ℕ :=
  (List.range' i (15 - i)).find? fun j => decide (0 < capacity j)

/-- The mutable variables of `denominate_available`. -/
structure Allocation where
  value : ℕ
  capacity : Capacity
  result : List Denomination

/-- `while value >= unit` of `denominate_available`.  Each round takes one unit off the value, so
`value / unit` rounds of fuel run the loop to its end (`allocateUnit_done`). -/
def allocateUnit (d : Denomination) (maxOutputs : ℕ) :
    ℕ → Allocation → Except SelectionError Allocation
  | 0, s => .ok s
  | fuel + 1, s =>
    if s.value < d.value then .ok s
    else match findSource d.index s.capacity with
      | none => .ok s
      | some source =>
        if s.result.length = maxOutputs then .error .limitExceeded
        else do
          let capacity ← breakDown d.index (source - d.index) s.capacity
          allocateUnit d maxOutputs fuel
            { value := s.value - d.value
              capacity := Function.update capacity d.index (capacity d.index - 1)
              result := s.result ++ [d] }

/-- `for i in (0..n).rev()` of `denominate_available`. -/
def allocateBelow (maxOutputs : ℕ) : ℕ → Allocation → Except SelectionError Allocation
  | 0, s => .ok s
  | i + 1, s => do
    let denomination ← okOr (Denomination.ofIndex i) invalidCoin
    let s ← allocateUnit denomination maxOutputs (s.value / denomination.value) s
    allocateBelow maxOutputs i s

/-- Split `value` out of a shared inventory, largest denomination first. -/
def denominateAvailable (value : ℕ) (capacity : Capacity) (maxOutputs : ℕ) :
    Except SelectionError (List Denomination × Capacity) := do
  let s ← allocateBelow maxOutputs 15 { value, capacity, result := [] }
  if s.value ≠ 0 then .error .insufficientFunds else .ok (s.result, s.capacity)

/-- `while value >= unit` of `denominate_largest`, on the value and the result. -/
def largestUnit (d : Denomination) (maxOutputs : ℕ) :
    ℕ → ℕ × List Denomination → Except SelectionError (ℕ × List Denomination)
  | 0, s => .ok s
  | fuel + 1, (value, result) =>
    if value < d.value then .ok (value, result)
    else if result.length = maxOutputs then .error .limitExceeded
    else largestUnit d maxOutputs fuel (value - d.value, result ++ [d])

/-- `for i in (0..n).rev()` of `denominate_largest`. -/
def largestBelow (maxOutputs : ℕ) :
    ℕ → ℕ × List Denomination → Except SelectionError (ℕ × List Denomination)
  | 0, s => .ok s
  | i + 1, s => do
    let denomination ← okOr (Denomination.ofIndex i) invalidCoin
    let s ← largestUnit denomination maxOutputs (s.1 / denomination.value) s
    largestBelow maxOutputs i s

def denominateLargest (value maxOutputs : ℕ) : Except SelectionError (List Denomination) := do
  let s ← largestBelow maxOutputs 15 (value, [])
  if s.1 ≠ 0 then .error .insufficientFunds else .ok s.2

/-- One output of `preserves_denominations`: it must come out of the inventory as itself. -/
def checkOutput (capacity : Capacity) (output : Denomination) : Except SelectionError Capacity := do
  let (result, capacity) ← denominateAvailable output.value capacity 1
  if result ≠ [output] then .error .invalidRequest else .ok capacity

/-- `ordered.sort_unstable_by_key(|d| Reverse(d.index()))`; equal keys are equal denominations. -/
def descending (outputs : List Denomination) : List Denomination :=
  outputs.insertionSort fun a b => b.index ≤ a.index

def preservesDenominations (inputs outputs : List Denomination) : Except SelectionError Unit :=
  if inputs = [] ∨ 4096 < inputs.length ∨ 4096 < outputs.length then .error .invalidRequest
  else do
    let _ ← (descending outputs).foldlM checkOutput (tally inputs)
    .ok ()

/-- The `for coin in coins` loop that every selector starts with: duplicate or misplaced coins fail,
ineligible ones are skipped, and `keep` handles the rest. -/
def scan {σ : Type} (request : SelectionRequest)
    (keep : σ → CandidateCoin → Except SelectionError σ) :
    List CandidateCoin → List OutPoint → σ → Except SelectionError σ
  | [], _, s => .ok s
  | coin :: rest, seen, s =>
    if coin.outpoint ∈ seen ∨ ¬coin.Placed then .error .invalidCoin
    else if coin.Eligible request then do
      let s ← keep s coin
      scan request keep rest (coin.outpoint :: seen) s
    else scan request keep rest (coin.outpoint :: seen) s

abbrev Buckets := ℕ → List CandidateCoin

def Buckets.empty : Buckets := fun _ => []

/-- `buckets[i].push(coin)`. -/
def Buckets.push (buckets : Buckets) (coin : CandidateCoin) : Buckets :=
  Function.update buckets coin.denomination.index (buckets coin.denomination.index ++ [coin])

/-- `buckets.iter().flatten()`: ascending denominations, stable inside each. -/
def Buckets.ordered (buckets : Buckets) : List CandidateCoin := (List.range 15).flatMap buckets

/-- `buckets.iter().rev().flat_map(|bucket| bucket.iter().rev())`. -/
def Buckets.orderedRev (buckets : Buckets) : List CandidateCoin :=
  (List.range 15).reverse.flatMap fun i => (buckets i).reverse

/-- The limits both request checks share: `!(1..=4096).contains(..)`. -/
def SelectionRequest.Bounded (request : SelectionRequest) : Prop :=
  request.fee ≤ request.maxFee ∧ (1 ≤ request.maxInputs ∧ request.maxInputs ≤ 4096) ∧
    1 ≤ request.maxOutputs ∧ request.maxOutputs ≤ 4096

instance (request : SelectionRequest) : Decidable request.Bounded :=
  inferInstanceAs (Decidable (_ ∧ _ ∧ _))

def validateRequest (request : SelectionRequest) : Except SelectionError Unit :=
  if request.target = 0 ∨ ¬request.Bounded then .error .invalidRequest else .ok ()

def validateAndBucket (coins : List CandidateCoin) (request : SelectionRequest) :
    Except SelectionError Buckets :=
  if 100000 < coins.length then .error .limitExceeded
  else scan request (fun buckets coin => .ok (buckets.push coin)) coins [] Buckets.empty

/-- The fallback loop of `choose` over the descending candidates. -/
def accumulate (request : SelectionRequest) (required : ℕ) :
    List CandidateCoin → List CandidateCoin × ℕ → Except SelectionError (List CandidateCoin × ℕ)
  | [], s => .ok s
  | coin :: rest, (chosen, total) =>
    if required ≤ total then .ok (chosen, total)
    else if chosen.length = request.maxInputs then .error .limitExceeded
    else do
      let total ← okOr (checkedAdd total coin.value) overflow
      accumulate request required rest (chosen ++ [coin], total)

/-- The input choice of `choose`: the smallest sufficient coin, otherwise descending greedy. -/
def chooseInputs (buckets : Buckets) (request : SelectionRequest) (required : ℕ) :
    Except SelectionError (List CandidateCoin × ℕ) :=
  match buckets.ordered.find? fun coin => decide (required ≤ coin.value) with
  | some coin => .ok ([coin], coin.value)
  | none => accumulate request required buckets.orderedRev ([], 0)

/-- The recipient's part of `choose`: aggregated outputs leave the inventory alone. -/
def chooseSpend (request : SelectionRequest) (capacity : Capacity) (aggregatedSpend : Bool) :
    Except SelectionError (List Denomination × Capacity) :=
  if aggregatedSpend then (denominateLargest request.target request.maxOutputs).map (·, capacity)
  else denominateAvailable request.target capacity request.maxOutputs

/-- Pick inputs for one exact `required` total from already-validated buckets. -/
def choose (buckets : Buckets) (request : SelectionRequest) (required : ℕ)
    (aggregatedSpend : Bool) : Except SelectionError CoinSelection := do
  let (chosen, total) ← chooseInputs buckets request required
  if total < required then .error .insufficientFunds
  else
    let capacity := tally (chosen.map CandidateCoin.denomination)
    let (spendOutputs, capacity) ← chooseSpend request capacity aggregatedSpend
    let (changeOutputs, _) ← denominateAvailable (total - required) capacity
      (request.maxOutputs - spendOutputs.length)
    if chosen.length * 3 + spendOutputs.length + changeOutputs.length + 3 > maxTransactionMessages
    then .error .limitExceeded
    else .ok { inputs := chosen, spendOutputs, changeOutputs, inputValue := total,
               fee := request.fee }

def selectFewestInner (coins : List CandidateCoin) (request : SelectionRequest)
    (aggregatedSpend : Bool) : Except SelectionError CoinSelection := do
  validateRequest request
  let required ← okOr (checkedAdd request.target request.fee) overflow
  let buckets ← validateAndBucket coins request
  choose buckets request required aggregatedSpend

def selectFewest (coins : List CandidateCoin) (request : SelectionRequest) :
    Except SelectionError CoinSelection :=
  selectFewestInner coins request false

def selectFewestConverting (coins : List CandidateCoin) (request : SelectionRequest) :
    Except SelectionError CoinSelection :=
  selectFewestInner coins request true

end Wallet

end QuaiSdk
