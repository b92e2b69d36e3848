import QuaiSdk.Provider.ConversionGas
import QuaiSdk.Sdk.Provider

/-!
# Account replacement quotes

`account_replacement.rs`: a candidate that differs from its signed parent in a higher gas price only,
within the caller's bump and debit limits.
-/

namespace QuaiSdk.Sdk

open Result Wallet Storage
open QuaiSdk.Provider (ProviderError ZoneHeader BlockTag rpcData)

variable {C : Crypto}

inductive AccountObservationPolicy where
  | pending
  | pinnedLatest
  deriving DecidableEq

structure FeePolicy where
  maxGas : UInt64
  maxGasPrice : ℕ
  maxTotalFee : ℕ
  gasMarginBps : UInt16
  deriving DecidableEq

structure ReplacementPolicy where
  minimumPriceBumpPercent : UInt16
  fees : FeePolicy
  deriving DecidableEq

inductive AccountPreflightError where
  | networkMismatch
  | provider (error : ProviderError)
  | invalid
  | feeLimit
  | insufficientBalance
  | observationChanged
  deriving DecidableEq

open AccountPreflightError

structure AccountReplacementQuote where
  transaction : QuaiTransaction
  parent : Hash32
  fee : ℕ
  estimatedGas : UInt64
  digest : Hash32
  deriving DecidableEq

/-- Account reads beside those of a Qi workflow; the `n`-th header read where there are several. -/
structure AccountProvider (C : Crypto) extends Provider C where
  latestHeader : ℕ → Except ProviderError (Option ZoneHeader)
  headerAt : UInt64 → Except ProviderError (Option ZoneHeader)
  transactionCount : QuaiAddress → BlockTag → Except ProviderError UInt64
  gasPrice : Except ProviderError U256
  estimateGas : QuaiAddress → QuaiTransaction → BlockTag → Except ProviderError UInt64
  quaiToQi : Zone → U256 → BlockTag → Except ProviderError (Option U256)
  balance : QuaiAddress → BlockTag → Except ProviderError U256

/-- `U256::checked_mul`. -/
def checkedMul (a b : ℕ) : Option ℕ := if a * b < 2 ^ 256 then some (a * b) else none

/-- `QuaiToQiTransaction::new`: an explicit conversion request. -/
def classifyQuaiToQi (t : QuaiTransaction) : Except TransactionError QiAddress :=
  if t.chainId.toNat = 0 ∨ t.value.toNat < minQuaiConversionValue ∨ t.data.length ≠ 2 then
    .error (.invalidField "Quai conversion chain, value or data")
  else do
    let recipient ← okOr t.recipient TransactionError.invalidScope
    let destination ← (LedgerAddress.tryFrom .qi recipient).mapError fun _ =>
      TransactionError.invalidScope
    let _ ← ConversionSlippage.new (slippageWord t.data)
    let _ ← t.unsignedBytes
    .ok destination

namespace AccountProvider

variable (p : AccountProvider C) (sender : QuaiAddress) (destination : QiAddress)
  (t : QuaiTransaction) (block : BlockTag)

def estimateQuaiConversionGas : Except ProviderError UInt64 :=
  if t.chainId ≠ p.expectedChainId ∨ sender.zone ≠ destination.zone then
    .error (.invalidRequest "conversion simulation identity")
  else do
    let _ ← rpcData t.data
    p.estimateGas sender t block

def estimateQuaiConversionGasBudget : Except ProviderError UInt64 :=
  if t.accessList ≠ [] then .error (.invalidRequest "conversion gas budget access list")
  else do
    let estimate ← p.estimateQuaiConversionGas sender destination t block
    let quote ← p.quaiToQi sender.zone t.value block
    let quote ← okOr (quote.filter fun v => v ≠ U256.ofNat 0)
      (.invalidResult "conversion quote unavailable")
    let budget ← Provider.conversionGasBudget estimate.toNat quote.toNat t.data
    .ok (UInt64.ofNat budget)

end AccountProvider

/-- `CallRequest::for_transaction`: only a Quai recipient and bounded data can be simulated. -/
def callRequest (t : QuaiTransaction) : Except ProviderError Unit := do
  let _ ← t.recipient.mapM fun a => (LedgerAddress.tryFrom .quai a).mapError fun _ =>
    ProviderError.invalidResult "call destination is not a Quai address"
  let _ ← rpcData t.data
  .ok ()

namespace AccountReplacement

variable (p : AccountProvider C) (scope : NetworkScope) (parent : SignedQuaiTransaction C)
  (policy : ReplacementPolicy)

def checkNetwork (n : ℕ) : Except AccountPreflightError Unit := do
  let matched ← (p.onNetwork n scope).mapError provider
  if matched = true then .ok () else .error .networkMismatch

def checkRequest : Except AccountPreflightError Unit :=
  if scope.genesis = Hash32.zero ∨ scope.chainId.toNat = 0 ∨ parent.sender.zone ≠ scope.zone ∨
      parent.transaction.chainId ≠ scope.chainId ∨
      ¬(1 ≤ policy.minimumPriceBumpPercent.toNat ∧ policy.minimumPriceBumpPercent.toNat ≤ 1000) ∨
      10000 < policy.fees.gasMarginBps.toNat then .error .invalid
  else if parent.transaction.gasLimit.toNat = 0 ∨
      policy.fees.maxGas.toNat < parent.transaction.gasLimit.toNat then .error .feeLimit
  else .ok ()

def confirmedHead : Except AccountPreflightError ZoneHeader := do
  let head ← (p.latestHeader 0).mapError provider
  let confirmed ← okOr head observationChanged
  let count ← (p.transactionCount parent.sender (.number confirmed.number.toNat)).mapError
    provider
  if parent.transaction.nonce.toNat < count.toNat then .error .invalid else .ok confirmed

def pinnedHead (observation : AccountObservationPolicy) :
    Except AccountPreflightError (Option ZoneHeader) :=
  match observation with
  | .pending => .ok none
  | .pinnedLatest => do
    let head ← (p.latestHeader 1).mapError provider
    let header ← okOr head observationChanged
    .ok (some header)

def newPrice : Except AccountPreflightError U256 := do
  let old := parent.transaction.gasPrice.toNat
  let numerator ← okOr (checkedMul old (100 + policy.minimumPriceBumpPercent.toNat))
    feeLimit
  let minimum ← okOr (checkedAdd (numerator / 100) (if numerator % 100 ≠ 0 then 1 else 0))
    feeLimit
  let suggested ← p.gasPrice.mapError provider
  let above ← okOr (checkedAdd old 1) feeLimit
  .ok (U256.ofNat (max (max suggested.toNat minimum) above))

def estimate (t : QuaiTransaction) (block : BlockTag) : Except AccountPreflightError UInt64 :=
  if t.recipient.map Address.ledger = some .qi then do
    let destination ← (classifyQuaiToQi t).mapError fun _ => invalid
    (p.estimateQuaiConversionGasBudget parent.sender destination t block).mapError provider
  else do
    let _ ← (callRequest t).mapError fun _ => invalid
    (p.estimateGas parent.sender t block).mapError provider

def recheckPinned (header : Option ZoneHeader) : Except AccountPreflightError Unit :=
  match header with
  | none => .ok ()
  | some before => do
    let after ← (p.latestHeader 2).mapError provider
    if after.map ZoneHeader.checkpoint ≠ some before.checkpoint then .error .observationChanged
    else .ok ()

def recheckConfirmed (confirmed : ZoneHeader) : Except AccountPreflightError Unit := do
  let canonical ← (p.headerAt confirmed.number).mapError provider
  if canonical.map (·.hash) ≠ some confirmed.hash then .error .observationChanged else .ok ()

end AccountReplacement

open AccountReplacement in
/-- `quote_account_replacement`. -/
def quoteAccountReplacement (p : AccountProvider C) (scope : NetworkScope)
    (parent : SignedQuaiTransaction C) (observation : AccountObservationPolicy)
    (policy : ReplacementPolicy) : Except AccountPreflightError AccountReplacementQuote := do
  checkRequest scope parent policy
  checkNetwork p scope 0
  let confirmed ← confirmedHead p parent
  let header ← pinnedHead p observation
  let block := match header with
    | none => BlockTag.pending
    | some h => .number h.number.toNat
  let gasPrice ← newPrice p parent policy
  let t := { parent.transaction with gasPrice }
  let fee ← okOr (checkedMul gasPrice.toNat t.gasLimit.toNat) feeLimit
  if policy.fees.maxGasPrice < gasPrice.toNat ∨ policy.fees.maxTotalFee < fee then .error .feeLimit
  else do
    let needed ← estimate p parent t block
    if t.gasLimit.toNat < needed.toNat then .error .feeLimit
    else do
      let debit ← okOr (checkedAdd fee t.value.toNat) feeLimit
      let balance ← (p.balance parent.sender block).mapError provider
      if balance.toNat < debit then .error .insufficientBalance
      else do
        recheckPinned p header
        recheckConfirmed p confirmed
        checkNetwork p scope 1
        let digest ← (t.signingDigest C).mapError fun _ => invalid
        let hash ← parent.hash.mapError fun _ => invalid
        .ok { transaction := t, parent := hash, fee, estimatedGas := needed, digest }

structure AccountAdmissible (parent : SignedQuaiTransaction C) (policy : ReplacementPolicy)
    (quote : AccountReplacementQuote) : Prop where
  identity : parent.hash = .ok quote.parent
  fields : quote.transaction =
    { parent.transaction with gasPrice := quote.transaction.gasPrice }
  higher : parent.transaction.gasPrice.toNat < quote.transaction.gasPrice.toNat
  -- the quotient of the bumped price, rounded up
  bumped : (parent.transaction.gasPrice.toNat * (100 + policy.minimumPriceBumpPercent.toNat) + 99) /
    100 ≤ quote.transaction.gasPrice.toNat
  fee : quote.transaction.gasLimit.toNat * quote.transaction.gasPrice.toNat ≤
    policy.fees.maxTotalFee

theorem checkedMul_eq_some {a b c : ℕ} (h : checkedMul a b = some c) : c = a * b ∧ c < 2 ^ 256 := by
  unfold checkedMul at h
  split at h
  · cases h
    exact ⟨rfl, ‹_›⟩
  · cases h

theorem newPrice_eq_ok {p : AccountProvider C} {parent : SignedQuaiTransaction C}
    {policy : ReplacementPolicy} {price : U256}
    (h : AccountReplacement.newPrice p parent policy = .ok price) :
    parent.transaction.gasPrice.toNat < price.toNat ∧
      (parent.transaction.gasPrice.toNat * (100 + policy.minimumPriceBumpPercent.toNat) + 99) / 100 ≤
        price.toNat := by
  simp only [AccountReplacement.newPrice, eq_ok] at h
  obtain ⟨numerator, hnumerator, minimum, hminimum, suggested, -, above, habove, rfl⟩ := h
  obtain ⟨rfl, -⟩ := checkedMul_eq_some hnumerator
  obtain ⟨hminimum, hlt⟩ := checkedAdd_eq_some hminimum
  obtain ⟨habove, hlt'⟩ := checkedAdd_eq_some habove
  have hword : (U256.ofNat (max (max suggested.toNat minimum) above)).toNat =
      max (max suggested.toNat minimum) above :=
    Nat.mod_eq_of_lt (max_lt (max_lt suggested.isLt hlt) hlt')
  refine ⟨by omega, ?_⟩
  generalize parent.transaction.gasPrice.toNat *
    (100 + policy.minimumPriceBumpPercent.toNat) = numerator at hminimum ⊢
  -- rounding up adds one unless the division is exact
  have hround : (numerator + 99) / 100 ≤ minimum := by
    split at hminimum
    all_goals omega
  omega

theorem quoteAccountReplacement_admissible {p : AccountProvider C} {scope : NetworkScope}
    {parent : SignedQuaiTransaction C} {observation : AccountObservationPolicy}
    {policy : ReplacementPolicy} {quote : AccountReplacementQuote}
    (h : quoteAccountReplacement p scope parent observation policy = .ok quote) :
    AccountAdmissible parent policy quote := by
  simp only [quoteAccountReplacement, eq_ok, not_or, not_lt] at h
  obtain ⟨⟨⟩, -, ⟨⟩, -, confirmed, -, header, -, price, hprice, fee, hfee, ⟨-, hbudget⟩, needed, -, -,
    debit, -, balance, -, -, ⟨⟩, -, ⟨⟩, -, ⟨⟩, -, digest, -, hash, hhash, rfl⟩ := h
  obtain ⟨hhigher, hbumped⟩ := newPrice_eq_ok hprice
  obtain ⟨rfl, -⟩ := checkedMul_eq_some hfee
  exact
    { identity := hhash
      fields := rfl
      higher := hhigher
      bumped := hbumped
      fee := by rwa [Nat.mul_comm] }

end QuaiSdk.Sdk
