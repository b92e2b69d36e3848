import QuaiSdk.Sdk.Provider
import QuaiSdk.Wallet.Sweep

/-!
# Portable Qi planning

`qi_preflight.rs`: exact-denomination planning over explicit current observations.  A quote selects
coins, builds the transaction, converges its fee against the node and rechecks the chain; it
neither signs nor claims anything.
-/

namespace QuaiSdk.Sdk

open Result Wallet Storage
open QuaiSdk.Provider (ProviderError ZoneHeader)

structure QiPolicy where
  initialFee : ℕ
  maxFee : ℕ
  maxInputs : ℕ
  maxOutputs : ℕ
  maxFeeRounds : ℕ
  maxSnapshotAge : ℕ
  deriving DecidableEq

/-- `(1..=1024)` on both shape limits. -/
def QiPolicy.Shape (policy : QiPolicy) : Prop :=
  (1 ≤ policy.maxInputs ∧ policy.maxInputs ≤ 1024) ∧
    1 ≤ policy.maxOutputs ∧ policy.maxOutputs ≤ 1024

instance (policy : QiPolicy) : Decidable policy.Shape := inferInstanceAs (Decidable (_ ∧ _))

def QiPolicy.Bounded (policy : QiPolicy) : Prop :=
  policy.Shape ∧ (1 ≤ policy.maxFeeRounds ∧ policy.maxFeeRounds ≤ 32) ∧
    policy.initialFee ≤ policy.maxFee

instance (policy : QiPolicy) : Decidable policy.Bounded := inferInstanceAs (Decidable (_ ∧ _ ∧ _))

/-- An exact amount and ordered, distinct recipient address capacity. -/
structure QiIntent where
  amount : ℕ
  destinations : List QiAddress
  deriving DecidableEq

structure QiSource where
  scope : NetworkScope
  checkpoint : Checkpoint
  coins : List CandidateCoin
  owners : List PublicAddress
  deriving DecidableEq

inductive QiOperationIntent where
  | transfer (intent : QiIntent)
  | crossZone (intent : QiIntent)
  | conversion (amount : ℕ) (intent : QiConversionIntent)
  | wrapping (amount : ℕ) (intent : QiWrappingIntent)
  | sweep (destinations : List QiAddress) (mode : SweepMode)
  deriving DecidableEq

inductive QiFeeMode where
  | node
  | explicit (fee : ℕ)
  | profile (profile : QiFeeProfile)
  deriving DecidableEq

def QiFeeMode.suits : QiFeeMode → Bool → Bool
  | node, special => !special
  | profile _, special => special
  | explicit _, _ => true

/-- A selection error also stands for a panic inside a selector. -/
inductive QiPreflightError where
  | invalid
  | stale
  | provider (error : ProviderError)
  | selection (fault : Fault)
  | transaction (error : TransactionError)
  | feeBelowInclusionFloor
  deriving DecidableEq

open QiPreflightError

structure QiQuoteRequest where
  source : QiSource
  intent : QiOperationIntent
  policy : QiPolicy
  fees : QiFeeMode
  change : List PublicAddress
  deriving DecidableEq

structure QiQuote (C : Crypto) where
  transaction : QiTransaction C
  fee : ℕ
  digest : Hash32
  recipientOutputs : ℕ
  feeQuote : Option QiFeeQuote
  selected : List CandidateCoin
  owners : List PublicAddress
  candidateHeight : ℕ

/-- `denominations.iter().zip(addresses)` as outputs. -/
def payTo (denominations : List Denomination) (addresses : List Address) : List QiOutput :=
  List.zipWith (fun d a => ⟨a, d⟩) denominations addresses

def unspendableAt (height : ℕ) (coin : CandidateCoin) : Prop :=
  height < coin.unlockHeight ∨ ∃ expiry ∈ coin.expiresAt, expiry ≤ height

instance (height : ℕ) (coin : CandidateCoin) : Decidable (unspendableAt height coin) :=
  inferInstanceAs (Decidable (_ ∨ ∃ expiry ∈ coin.expiresAt, _))

/-- The next block's height after an observed tip that is at most `maxAge` past the checkpoint. -/
def nextHeight (checkpoint : Checkpoint) (maxAge : ℕ) (tip : Option ZoneHeader) : Option ℕ := do
  let header ← tip
  let height := header.number.toNat
  if height < checkpoint.height ∨ maxAge < height - checkpoint.height then none
  else checkedAdd height 1

def QiPolicy.request (policy : QiPolicy) (zone : Zone) (height amount fee : ℕ) :
    SelectionRequest where
  zone := zone
  candidateHeight := height
  target := amount
  fee := fee
  maxFee := policy.maxFee
  maxInputs := policy.maxInputs
  maxOutputs := policy.maxOutputs

def settleFee {ε : Type} (overBudget : ε) (maxFee fee quote : ℕ) : Except ε (Round ℕ Unit) :=
  if maxFee < quote then .error overBudget
  else if fee < quote then .ok (.again quote)
  else .ok (.done ())

namespace QiOperationIntent

def special : QiOperationIntent → Bool
  | conversion _ _ | wrapping _ _ => true
  | transfer _ | crossZone _ | sweep _ _ => false

def amount : QiOperationIntent → ℕ
  | transfer v | crossZone v => v.amount
  | conversion amount _ | wrapping amount _ => amount
  | sweep _ _ => 0

def destinations : QiOperationIntent → List QiAddress
  | transfer v | crossZone v => v.destinations
  | conversion _ _ | wrapping _ _ => []
  | sweep destinations _ => destinations

def sweepMode : QiOperationIntent → Option SweepMode
  | sweep _ mode => some mode
  | _ => none

def cross : QiOperationIntent → Bool
  | crossZone _ => true
  | _ => false

def Misaddressed (scope : NetworkScope) (intent : QiOperationIntent) : Prop :=
  let zone := (intent.destinations.head?.map LedgerAddress.zone).getD scope.zone
  (intent.sweepMode = none ∧ intent.amount = 0) ∨
    (intent.special = false ∧
      (intent.destinations = [] ∨ 1024 < intent.destinations.length ∨
        decide (zone ≠ scope.zone) ≠ intent.cross ∨ ∃ a ∈ intent.destinations, a.zone ≠ zone))

instance (scope : NetworkScope) (intent : QiOperationIntent) :
    Decidable (intent.Misaddressed scope) :=
  inferInstanceAs (Decidable (_ ∨ _))

def select (intent : QiOperationIntent) (coins : List CandidateCoin) (request : SelectionRequest) :
    Except Fault CoinSelection :=
  match intent.sweepMode with
  | some mode => selectSweep coins request mode
  | none =>
    if intent.special then (selectFewestConverting coins request).mapError Fault.returned
    else (selectFewest coins request).mapError Fault.returned

end QiOperationIntent

namespace QiSource

def foreign (scope : NetworkScope) (a : PublicAddress) : Prop :=
  a.address.zone.toOption ≠ some scope.zone ∨
    (LedgerAddress.tryFrom .qi a.address).toOption = none

instance (scope : NetworkScope) (a : PublicAddress) : Decidable (foreign scope a) :=
  inferInstanceAs (Decidable (_ ∨ _))

/-- `metadata.get(&address)`. -/
def owner (source : QiSource) (a : Address) : Option PublicAddress :=
  source.owners.find? fun o => o.address = a

def Inconsistent (source : QiSource) : Prop :=
  (∃ o ∈ source.owners, foreign source.scope o) ∨
    ¬(source.owners.map PublicAddress.address).Nodup ∨
    (∃ coin ∈ source.coins, coin.address.zone ≠ source.scope.zone ∨
      source.owner coin.address.address = none) ∨
    ¬(source.coins.map CandidateCoin.outpoint).Nodup

instance (source : QiSource) : Decidable source.Inconsistent :=
  inferInstanceAs (Decidable (_ ∨ _ ∨ _ ∨ _))

def ownersAt (source : QiSource) (addresses : List Address) : List PublicAddress :=
  let owners := (addresses.filterMap source.owner).dedup
  owners.insertionSort fun a b => BigEndian.value a.address.bytes ≤ BigEndian.value b.address.bytes

def ownersOf (source : QiSource) (coins : List CandidateCoin) : List PublicAddress :=
  source.ownersAt (coins.map fun coin => coin.address.address)

end QiSource

def valueOf (outputs : List QiOutput) : ℕ := Denomination.total (outputs.map QiOutput.denomination)

variable {C : Crypto} (p : Provider C)

namespace QiPreflight

def network (n : ℕ) (scope : NetworkScope) : Except QiPreflightError Unit := do
  let matched ← (p.onNetwork n scope).mapError provider
  if matched = true then .ok () else .error .stale

def candidateHeight (n : ℕ) (source : QiSource) (maxAge : ℕ) : Except QiPreflightError ℕ :=
  if 2 ^ 64 ≤ source.checkpoint.height then .error .stale
  else do
    let answer ← (p.headers n).mapError provider
    match answer with
    | [canonical, head] =>
      if canonical.map (·.hash) ≠ some source.checkpoint.hash then .error .stale
      else okOr (nextHeight source.checkpoint maxAge head) stale
    | _ => .error .stale

end QiPreflight

namespace QiQuoteRequest

def OutOfBounds (r : QiQuoteRequest) : Prop :=
  ¬r.policy.Bounded ∨ r.source.scope.chainId.toNat = 0 ∨ r.source.scope.genesis = Hash32.zero ∨
    r.source.checkpoint.hash = Hash32.zero ∨ 100000 < r.source.coins.length ∨
    100000 < r.source.owners.length ∨ 1024 < r.change.length

instance (r : QiQuoteRequest) : Decidable r.OutOfBounds :=
  inferInstanceAs (Decidable (_ ∨ _ ∨ _ ∨ _ ∨ _ ∨ _ ∨ _))

def BadOutputs (r : QiQuoteRequest) : Prop :=
  ¬(r.intent.destinations.map LedgerAddress.address ++ r.change.map PublicAddress.address).Nodup ∨
    (∃ a ∈ r.change, QiSource.foreign r.source.scope a) ∨
    (r.intent.sweepMode.isSome ∧ r.change ≠ [])

instance (r : QiQuoteRequest) : Decidable r.BadOutputs := inferInstanceAs (Decidable (_ ∨ _ ∨ _))

def firstFee (r : QiQuoteRequest) : ℕ × ℕ :=
  match r.fees with
  | .explicit fee => (fee, 1)
  | _ => (r.policy.initialFee, r.policy.maxFeeRounds)

def validate (r : QiQuoteRequest) : Except QiPreflightError Unit :=
  if r.OutOfBounds ∨ r.fees.suits r.intent.special = false ∨ r.source.Inconsistent ∨
      r.intent.Misaddressed r.source.scope ∨ r.BadOutputs then .error .invalid
  else .ok ()

def input (C : Crypto) (r : QiQuoteRequest) (coin : CandidateCoin) :
    Except QiPreflightError (QiInput C) := do
  let owner ← okOr (r.source.owner coin.address.address) invalid
  let publicKey ← okOr (C.fromSec1 owner.publicKey) invalid
  .ok ⟨coin.outpoint, publicKey⟩

def build (r : QiQuoteRequest) (inputs : List (QiInput C)) (sel : CoinSelection) :
    Except TransactionError (QiTransaction C × Hash32) :=
  let change := payTo sel.changeOutputs (r.change.map PublicAddress.address)
  match r.intent with
  | .conversion _ intent => do
    let typed ← QiConversionTransaction.new r.source.scope.chainId inputs sel.spendOutputs change
      intent
    let digest ← typed.signingDigest
    .ok (typed.transaction, digest)
  | .wrapping _ intent => do
    let typed ← QiWrappingTransaction.new r.source.scope.chainId inputs sel.spendOutputs change
      intent
    let digest ← typed.signingDigest
    .ok (typed.transaction, digest)
  | intent => do
    let t : QiTransaction C :=
      { chainId := r.source.scope.chainId
        inputs
        outputs := payTo sel.spendOutputs (intent.destinations.map LedgerAddress.address) ++ change
        data := [] }
    let digest ← t.signingDigest
    .ok (t, digest)

def quoteFee (r : QiQuoteRequest) (n fee : ℕ) (t : QiTransaction C) :
    Except QiPreflightError (Round ℕ (Option QiFeeQuote)) :=
  let overBudget := selection (.returned .feeBudgetExceeded)
  match r.fees with
  | .explicit explicit => do
    let floor ← (p.inclusionFloor n t).mapError provider
    if ∃ f ∈ floor, explicit < f then .error .feeBelowInclusionFloor else .ok (.done none)
  | .node => do
    let estimated ← (p.estimateQiFee n t).mapError provider
    (settleFee overBudget r.policy.maxFee fee estimated).map (Round.map fun _ => none)
  | .profile profile => do
    let quote ← (p.estimateQiSpecialFee n t profile).mapError provider
    (settleFee overBudget r.policy.maxFee fee quote.qits).map (Round.map fun _ => some quote)

structure Draft (C : Crypto) where
  selection : CoinSelection
  transaction : QiTransaction C
  digest : Hash32
  feeQuote : Option QiFeeQuote

def round (r : QiQuoteRequest) (height n fee : ℕ) :
    Except QiPreflightError (Round ℕ (Draft C)) := do
  let sel ← (r.intent.select r.source.coins
    (r.policy.request r.source.scope.zone height r.intent.amount fee)).mapError
      selection
  if (r.intent.special = false ∧ r.intent.destinations.length < sel.spendOutputs.length) ∨
      r.change.length < sel.changeOutputs.length then .error .invalid
  else do
    let inputs ← sel.inputs.mapM (r.input C)
    let (t, digest) ← (r.build inputs sel).mapError transaction
    (r.quoteFee p n fee t).map (Round.map fun feeQuote => ⟨sel, t, digest, feeQuote⟩)

end QiQuoteRequest

/-- `quote_qi`. -/
def quoteQi (r : QiQuoteRequest) : Except QiPreflightError (QiQuote C) := do
  r.validate
  QiPreflight.network p 0 r.source.scope
  let height ← QiPreflight.candidateHeight p 0 r.source r.policy.maxSnapshotAge
  let (fee, rounds) := r.firstFee
  if r.policy.maxFee < fee then .error (.selection (.returned .feeBudgetExceeded))
  else do
    let draft ← converge (r.round p height)
      (.error (selection (.returned .feeDidNotConverge))) rounds 0 fee
    let candidateHeight ← QiPreflight.candidateHeight p 1 r.source r.policy.maxSnapshotAge
    if ∃ coin ∈ draft.selection.inputs, unspendableAt candidateHeight coin then .error .stale
    else do
      QiPreflight.network p 1 r.source.scope
      .ok
        { transaction := draft.transaction
          fee := draft.selection.fee
          digest := draft.digest
          recipientOutputs := draft.selection.spendOutputs.length
          feeQuote := draft.feeQuote
          selected := draft.selection.inputs
          owners := r.source.ownersOf draft.selection.inputs
          candidateHeight }

end QuaiSdk.Sdk
