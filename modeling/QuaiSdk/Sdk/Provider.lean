import QuaiSdk.Provider.ZoneHeader
import QuaiSdk.Storage.Schema

/-!
# Node answers

The reads a Qi workflow makes through a `Provider`.  What comes back over the wire is not trusted, so
a provider is any assignment of answers to the successive reads of a call; the checks made on a
request before it is sent are those of `quai-provider`.
-/

namespace QuaiSdk.Provider

def ZoneHeader.checkpoint (header : ZoneHeader) : Storage.Checkpoint :=
  ⟨header.hash, header.number.toNat⟩

end QuaiSdk.Provider

namespace QuaiSdk.Sdk

open Result Storage
open QuaiSdk.Provider (ProviderError ZoneHeader)

inductive QiFeeProfile where
  | v056ShaAnchored
  deriving DecidableEq

structure QiFeeQuote where
  qits : ℕ
  floorQits : ℕ
  deriving DecidableEq

/-- Answers to the `n`-th read of each kind; header reads return one entry for each block asked. -/
structure Provider (C : Crypto) where
  expectedChainId : U256
  genesisHash : ℕ → Except ProviderError Hash32
  headers : ℕ → Except ProviderError (List (Option ZoneHeader))
  estimateFeeForQi : ℕ → QiTransaction C → Except ProviderError ℕ
  sampleSpecialFee : ℕ → QiTransaction C → Except ProviderError QiFeeQuote

namespace Provider

variable {C : Crypto} (p : Provider C) (n : ℕ)

def onNetwork (scope : NetworkScope) : Except ProviderError Bool :=
  if p.expectedChainId = scope.chainId then
    (p.genesisHash n).map fun genesis => decide (genesis = scope.genesis)
  else .ok false

def estimateQiFee (t : QiTransaction C) : Except ProviderError ℕ :=
  if t.chainId ≠ p.expectedChainId then .error (.chainMismatch p.expectedChainId t.chainId)
  else if t.data ≠ [] then
    .error (.invalidRequest "ordinary Qi fee request requires empty data")
  else do
    let _ ← t.unsignedBytes.mapError fun _ =>
      ProviderError.invalidRequest "invalid Qi transaction shape"
    let _ ← t.originZone.mapError fun _ => ProviderError.invalidRequest "invalid Qi origin"
    p.estimateFeeForQi n t

/-- The zone a specialized fee is sampled in; the data length selects the operation. -/
def specialZone (t : QiTransaction C) : Except ProviderError Zone :=
  let invalid := fun _ : TransactionError =>
    ProviderError.invalidRequest "invalid specialized Qi transaction"
  if t.data.length = 20 then
    ((QiWrappingTransaction.fromTransaction t).map QiWrappingTransaction.originZone).mapError invalid
  else if t.data.length = 22 then
    ((QiConversionTransaction.fromTransaction t).map QiConversionTransaction.originZone).mapError
      invalid
  else .error (.invalidRequest "explicit specialized Qi transaction required")

/-- The gas and rate arithmetic runs on the node's answers alone and is part of the sample. -/
def estimateQiSpecialFee (t : QiTransaction C) : QiFeeProfile → Except ProviderError QiFeeQuote
  | .v056ShaAnchored =>
    if t.chainId ≠ p.expectedChainId then .error (.chainMismatch p.expectedChainId t.chainId)
    else do
      let _ ← specialZone t
      p.sampleSpecialFee n t

def inclusionFloor (t : QiTransaction C) : Except ProviderError (Option ℕ) :=
  if t.data = [] then .ok none
  else
    match p.estimateQiSpecialFee n t .v056ShaAnchored with
    | .ok quote => .ok (some quote.floorQits)
    | .error .conversionFeeEstimationUnavailable => .ok none
    | .error e => .error e

end Provider

end QuaiSdk.Sdk
