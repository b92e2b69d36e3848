import QuaiSdk.Sdk.QiSession

/-!
# Preparing and signing

The three builders of a session.  Each checks its pool, reads a snapshot, selects coins against the
fee of the round until the node's quote is covered, rechecks the chain, claims the selected outputs in
one write, and then takes the used change addresses out of the pool.
-/

namespace QuaiSdk.Sdk

open Result Wallet Storage QiError PublicAddress
open Method (lift fail self)

variable {W : HdCrypto}

/-- The rows of a store and the caller's pool, which a prepare borrows. -/
structure Workspace (W : HdCrypto) where
  tables : ScopeTables
  pool : QiChangePool W

/-- The first `n` addresses leave the pool. -/
def QiChangePool.drain (n : ℕ) (pool : QiChangePool W) : QiChangePool W :=
  { pool with addresses := pool.addresses.drop n }

namespace Workspace

def rows {α : Type} (x : Rows α) : Method QiError (Workspace W) α :=
  Method.zoom tables (fun w tables => { w with tables }) x

def drain (n : ℕ) : Method QiError (Workspace W) Unit := fun w =>
  (.ok (), { w with pool := w.pool.drain n })

end Workspace

open Workspace (rows drain)

structure View where
  snapshot : Snapshot
  checkpoint : Checkpoint
  height : ℕ

structure Draft (τ : Type) where
  fee : ℕ
  selection : CoinSelection
  entries : List PublicAddress
  payload : τ

def overBudget : QiError := .selection (.returned .feeBudgetExceeded)

def notConverged : QiError := .selection (.returned .feeDidNotConverge)

def Attempt.claim {τ : Type} (a : Attempt W) (view : View) (id : ReservationId) (finalHeight : ℕ)
    (draft : Draft τ) : Rows Unit :=
  a.write .claim fun t => do
    let t ← t.reserveQi id view.snapshot.generation finalHeight
      (draft.selection.inputs.map CandidateCoin.outpoint)
    .ok ((), t)

namespace QiSession

variable (s : QiSession W) (a : Attempt W)

def Holds (pool : QiChangePool W) : Prop :=
  pool.storeInstance = s.store.storeInstance ∧ pool.scope = s.store.scope

instance (pool : QiChangePool W) : Decidable (s.Holds pool) := inferInstanceAs (Decidable (_ ∧ _))

def checkBurned (pool : QiChangePool W) : Rows Unit :=
  match pool.burnedThrough with
  | none => pure ()
  | some minimum => do
    let next ← a.read .cursor fun t => t.nextDerivationIndex pool.account true
    if ∀ cursor ∈ next, cursor < minimum then fail .identityMismatch else pure ()

def ownedMetadata (pool : QiChangePool W) : Rows (Table Address PublicAddress) :=
  a.read .pool fun t => t.publicAddresses W.toCrypto s.store.scope (pool.addresses.map address)

/-- Every pool entry is stored exactly as it is held, and its key is resolved. -/
def checkEntries (owned : Table Address PublicAddress) (pool : QiChangePool W) :
    Except QiError Unit := do
  let _ ← pool.addresses.mapM fun entry =>
    if owned.lookup entry.address ≠ some entry then .error .identityMismatch else s.keyFor entry
  .ok ()

def observe (maxAge : ℕ) : Rows View := do
  let snapshot ← a.read .snapshot fun t => t.snapshot s.store.scope
  let checkpoint ← lift (okOr snapshot.checkpoint .missingSnapshot)
  lift (s.verifyNetwork a)
  let height ← a.candidateHeight 0 snapshot.generation checkpoint maxAge
  pure ⟨snapshot, checkpoint, height⟩

def recheck {τ : Type} (view : View) (maxAge : ℕ) (draft : Draft τ) : Rows ℕ := do
  lift (s.confirmSignable draft.entries)
  let finalHeight ← a.candidateHeight 1 view.snapshot.generation view.checkpoint maxAge
  if ∃ coin ∈ draft.selection.inputs, unspendableAt finalHeight coin then fail .staleSnapshot
  else pure finalHeight

/-- What the prepares do differently: how they check a pool and settle a draft, the prepared object
of a draft, and how many addresses of the pool it uses. -/
structure Builder (W : HdCrypto) (τ ρ : Type) where
  check : QiChangePool W → Rows Unit
  round : QiChangePool W → View → ℕ → ℕ → Rows (Round ℕ (Draft τ))
  finish : Draft τ → Except QiError ρ
  taken : Draft τ → ℕ

/-- One attempt, from the first fee and the number of rounds that its policy allows. -/
def prepareOnce {τ ρ : Type} (id : ReservationId) (policy : QiPolicy)
    (start : Except QiError (ℕ × ℕ)) (b : Builder W τ ρ) : Method QiError (Workspace W) ρ := do
  let (fee, rounds) ← lift start
  let w ← self
  rows (b.check w.pool)
  let view ← rows (s.observe a policy.maxSnapshotAge)
  let draft ← rows (converge (b.round w.pool view) (fail notConverged) rounds 0 fee)
  let finalHeight ← rows (s.recheck a view policy.maxSnapshotAge draft)
  let prepared ← lift (b.finish draft)
  rows (a.claim view id finalHeight draft)
  drain (b.taken draft)
  pure prepared

def transferPayload (intent : QiIntent) (pool : QiChangePool W) (sel : CoinSelection)
    (inputs : List (QiInput W.toCrypto)) : QiTransaction W.toCrypto where
  chainId := s.store.scope.chainId
  inputs := inputs
  outputs := payTo sel.spendOutputs (intent.destinations.map LedgerAddress.address) ++
    payTo sel.changeOutputs (pool.addresses.map address)
  data := []

def transferRound (intent : QiIntent) (policy : QiPolicy) (pool : QiChangePool W) (view : View)
    (n fee : ℕ) : Rows (Round ℕ (Draft (QiTransaction W.toCrypto))) := do
  let sel ← lift ((selectFewest view.snapshot.coins
    (policy.request s.store.scope.zone view.height intent.amount fee)).mapError fun e =>
      selection (.returned e))
  if intent.destinations.length < sel.spendOutputs.length then fail .insufficientDestinations
  else if pool.addresses.length < sel.changeOutputs.length then fail .insufficientChange
  else do
    let (inputs, entries) ← s.selectedInputs a n sel.inputs
    let t := s.transferPayload intent pool sel inputs
    -- this also rejects recipient and input address reuse and duplicate outputs
    let _ ← lift (t.unsignedBytes.mapError transaction)
    let quote ← lift ((a.provider.estimateQiFee n t).mapError provider)
    lift ((settleFee overBudget policy.maxFee fee quote).map
      (Round.map fun _ => ⟨fee, sel, entries, t⟩))

def BadTransfer (intent : QiIntent) (pool : QiChangePool W) (crossZone : Bool) : Prop :=
  (crossZone = false ∧ ∃ d ∈ intent.destinations, d.zone ≠ s.store.scope.zone) ∨
    ¬(intent.destinations.map LedgerAddress.address ++
      pool.addresses.map address).Nodup ∨
    ∃ e ∈ pool.addresses, e.address.zone.toOption ≠ some s.store.scope.zone

instance (intent : QiIntent) (pool : QiChangePool W) (crossZone : Bool) :
    Decidable (s.BadTransfer intent pool crossZone) :=
  inferInstanceAs (Decidable (_ ∨ _ ∨ _))

def checkTransfer (intent : QiIntent) (crossZone : Bool) (pool : QiChangePool W) : Rows Unit :=
  if ¬s.Holds pool then fail .identityMismatch
  else do
    checkBurned a pool
    let owned ← s.ownedMetadata a pool
    if s.BadTransfer intent pool crossZone then fail .identityMismatch
    else lift (s.checkEntries owned pool)

def transfer (id : ReservationId) (intent : QiIntent) (policy : QiPolicy) (crossZone : Bool) :
    Builder W (QiTransaction W.toCrypto) (PreparedQiTransaction W) where
  check := s.checkTransfer a intent crossZone
  round := s.transferRound a intent policy
  finish draft := do
    let digest ← draft.payload.signingDigest.mapError transaction
    .ok
      { storeInstance := s.store.storeInstance, id, scope := s.store.scope,
        transaction := draft.payload, fee := draft.fee,
        recipientOutputs := draft.selection.spendOutputs.length, digest }
  taken draft := draft.selection.changeOutputs.length

def prepareTransferOnce (id : ReservationId) (intent : QiIntent) (policy : QiPolicy)
    (crossZone : Bool) : Method QiError (Workspace W) (PreparedQiTransaction W) :=
  s.prepareOnce a id policy
    (if ¬policy.Bounded ∨ intent.amount = 0 ∨ intent.destinations = [] ∨
      1024 < intent.destinations.length then .error .invalidPolicy
    else .ok (policy.initialFee, policy.maxFeeRounds))
    (s.transfer a id intent policy crossZone)

def prepareTransfer (first second : Attempt W) (id : ReservationId) (intent : QiIntent)
    (policy : QiPolicy) (crossZone : Bool) :
    Method QiError (Workspace W) (PreparedQiTransaction W) :=
  retryOnce (fun a => s.prepareTransferOnce a id intent policy crossZone) first second

def prepare (first second : Attempt W) (id : ReservationId) (intent : QiIntent)
    (policy : QiPolicy) : Method QiError (Workspace W) (PreparedQiTransaction W) :=
  s.prepareTransfer first second id intent policy false

def prepareCrossZone (first second : Attempt W) (id : ReservationId) (intent : QiIntent)
    (policy : QiPolicy) : Method QiError (Workspace W) (PreparedQiTransaction W) :=
  match intent.destinations with
  | [] => fail .identityMismatch
  | destination :: rest =>
    if destination.zone = s.store.scope.zone ∨ ∃ d ∈ rest, d.zone ≠ destination.zone then
      fail .identityMismatch
    else s.prepareTransfer first second id intent policy true

inductive FeeMode where
  | explicit (fee : ℕ)
  | estimated (profile : QiFeeProfile)
  deriving DecidableEq

def FeeMode.first (mode : FeeMode) (policy : QiPolicy) : Except QiError (ℕ × ℕ) :=
  match mode with
  | .explicit fee => .ok (fee, 1)
  | .estimated _ =>
    if 1 ≤ policy.maxFeeRounds ∧ policy.maxFeeRounds ≤ 32 then
      .ok (policy.initialFee, policy.maxFeeRounds)
    else .error .invalidPolicy

def specialPayload (intent : QiSpecialIntent) (inputs : List (QiInput W.toCrypto))
    (spend : List Denomination) (change : List QiOutput) :
    Except TransactionError (QiSpecialTransaction W.toCrypto) :=
  match intent with
  | .conversion intent =>
    (QiConversionTransaction.new s.store.scope.chainId inputs spend change intent).map
      QiSpecialTransaction.conversion
  | .wrapping intent =>
    (QiWrappingTransaction.new s.store.scope.chainId inputs spend change intent).map
      QiSpecialTransaction.wrapping

def specialFee (mode : FeeMode) (maxFee n fee : ℕ) (t : QiTransaction W.toCrypto) :
    Except QiError (Round ℕ (Option QiFeeQuote)) :=
  match mode with
  | .explicit explicit => do
    let floor ← (a.provider.inclusionFloor n t).mapError provider
    if ∃ f ∈ floor, explicit < f then .error .feeBelowInclusionFloor else .ok (.done none)
  | .estimated profile => do
    let quote ← (a.provider.estimateQiSpecialFee n t profile).mapError provider
    (settleFee overBudget maxFee fee quote.qits).map (Round.map fun _ => some quote)

def specialRound (amount : ℕ) (intent : QiSpecialIntent) (mode : FeeMode) (policy : QiPolicy)
    (pool : QiChangePool W) (view : View) (n fee : ℕ) :
    Rows (Round ℕ (Draft (QiSpecialTransaction W.toCrypto × Option QiFeeQuote))) := do
  let sel ← lift ((selectFewestConverting view.snapshot.coins
    (policy.request s.store.scope.zone view.height amount fee)).mapError fun e =>
      selection (.returned e))
  if pool.addresses.length < sel.changeOutputs.length then fail .insufficientChange
  else do
    let (inputs, entries) ← s.selectedInputs a n sel.inputs
    let t ← lift ((s.specialPayload intent inputs sel.spendOutputs
      (payTo sel.changeOutputs (pool.addresses.map address))).mapError transaction)
    let _ ← lift (t.signingDigest.mapError transaction)
    lift ((specialFee a mode policy.maxFee n fee t.transaction).map
      (Round.map fun quote => ⟨fee, sel, entries, t, quote⟩))

def checkPool (pool : QiChangePool W) : Rows Unit := do
  let owned ← s.ownedMetadata a pool
  lift (s.checkEntries owned pool)

def checkSpecial (pool : QiChangePool W) : Rows Unit :=
  if ¬s.Holds pool then fail .identityMismatch
  else do
    (checkBurned a pool).mapError fun _ => identityMismatch
    s.checkPool a pool

def special (id : ReservationId) (amount : ℕ) (intent : QiSpecialIntent) (mode : FeeMode)
    (policy : QiPolicy) :
    Builder W (QiSpecialTransaction W.toCrypto × Option QiFeeQuote) (PreparedQiOperation W) where
  check := s.checkSpecial a
  round := s.specialRound a amount intent mode policy
  finish draft := .ok
    { storeInstance := s.store.storeInstance, scope := s.store.scope, id,
      transaction := draft.payload.1, fee := draft.fee, quote := draft.payload.2 }
  taken draft := draft.selection.changeOutputs.length

def prepareSpecialOnce (id : ReservationId) (amount : ℕ) (intent : QiSpecialIntent)
    (mode : FeeMode) (policy : QiPolicy) : Method QiError (Workspace W) (PreparedQiOperation W) :=
  s.prepareOnce a id policy
    (do
      let (fee, rounds) ← mode.first policy
      if amount = 0 ∨ policy.maxFee < fee ∨ ¬policy.Shape then .error .invalidPolicy
      else .ok (fee, rounds))
    (s.special a id amount intent mode policy)

/-- `prepare_special` and `prepare_special_estimated`, by their fee mode. -/
def prepareSpecial (first second : Attempt W) (id : ReservationId) (amount : ℕ)
    (intent : QiSpecialIntent) (mode : FeeMode) (policy : QiPolicy) :
    Method QiError (Workspace W) (PreparedQiOperation W) :=
  retryOnce (fun a => s.prepareSpecialOnce a id amount intent mode policy) first second

def sweepPayload (pool : QiChangePool W) (sel : CoinSelection) (inputs : List (QiInput W.toCrypto)) :
    QiTransaction W.toCrypto where
  chainId := s.store.scope.chainId
  inputs := inputs
  outputs := payTo sel.spendOutputs (pool.addresses.map address)
  data := []

def sweepRound (mode : SweepMode) (policy : QiPolicy) (pool : QiChangePool W) (view : View)
    (n fee : ℕ) : Rows (Round ℕ (Draft (QiTransaction W.toCrypto × Hash32))) := do
  let sel ← lift ((selectSweep view.snapshot.coins
    (policy.request s.store.scope.zone view.height 0 fee) mode).mapError selection)
  if pool.addresses.length < sel.spendOutputs.length then fail .insufficientChange
  else do
    let (inputs, entries) ← s.selectedInputs a n sel.inputs
    let t := s.sweepPayload pool sel inputs
    let digest ← lift (t.signingDigest.mapError transaction)
    let quote ← lift ((a.provider.estimateQiFee n t).mapError provider)
    lift ((settleFee overBudget policy.maxFee fee quote).map
      (Round.map fun _ => ⟨fee, sel, entries, t, digest⟩))

def checkSweep (pool : QiChangePool W) : Rows Unit :=
  if ¬s.Holds pool then fail .identityMismatch
  else do
    checkBurned a pool
    s.checkPool a pool

def sweep (id : ReservationId) (mode : SweepMode) (policy : QiPolicy) :
    Builder W (QiTransaction W.toCrypto × Hash32) (PreparedQiTransaction W) where
  check := s.checkSweep a
  round := s.sweepRound a mode policy
  finish draft := .ok
    { storeInstance := s.store.storeInstance, id, scope := s.store.scope,
      transaction := draft.payload.1, fee := draft.fee,
      recipientOutputs := draft.payload.1.outputs.length, digest := draft.payload.2 }
  taken draft := draft.selection.spendOutputs.length

def prepareSweepOnce (id : ReservationId) (mode : SweepMode) (policy : QiPolicy) :
    Method QiError (Workspace W) (PreparedQiTransaction W) :=
  s.prepareOnce a id policy
    (if ¬policy.Bounded then .error .invalidPolicy
    else .ok (policy.initialFee, policy.maxFeeRounds))
    (s.sweep a id mode policy)

def prepareSweep (first second : Attempt W) (id : ReservationId) (mode : SweepMode)
    (policy : QiPolicy) : Method QiError (Workspace W) (PreparedQiTransaction W) :=
  retryOnce (fun a => s.prepareSweepOnce a id mode policy) first second

/-- The reads of a signature, before the write that stores it. -/
inductive SignPoint where
  | reservation
  | claims
  | keys
  deriving DecidableEq

def inputKeys (inputs : List (QiInput W.toCrypto)) (t : ScopeTables) :
    Except QiError (List W.PublicKey) := do
  let metadata ← (t.publicAddresses W.toCrypto s.store.scope
    (inputs.map fun input => W.address input.publicKey)).mapError storage
  inputs.mapM fun input => do
    let entry ← okOr (metadata.lookup (W.address input.publicKey)) identityMismatch
    s.keyFor entry

/-- `sign_local_for`, given the signature that the local keys produce. -/
def signLocal (mode : QiMode) (t : QiTransaction W.toCrypto) (keys : List W.PublicKey)
    (signature : W.SchnorrSignature) : Except TransactionError W.SchnorrSignature := do
  let _ ← t.validateFor mode
  t.signingRule mode
  if keys.map W.toCompressed ≠ t.inputs.map fun input => W.toCompressed input.publicKey then
    .error .invalidSignature
  else do
    let _ ← t.unsignedBytesFor mode
    .ok signature

def checkReserved (id : ReservationId) (inputs : List (QiInput W.toCrypto))
    (read : SignPoint → ScopeTables) : Except QiError Unit := do
  let reservation ← okOr ((read .reservation).reservationRead id) identityMismatch
  let actual ← ((read .claims).reservedOutpoints id).mapError storage
  if reservation.state ≠ .reserved ∨
      sortOutPoints (inputs.map QiInput.previousOutput) ≠ sortOutPoints actual then
    .error .identityMismatch
  else .ok ()

/-- Sign from the rows that each read sees, storing into `t`. -/
def signFrom (read : SignPoint → ScopeTables) (prepared : PreparedQiTransaction W)
    (signature : W.SchnorrSignature) (t : ScopeTables) :
    Except QiError (SignedQiTransaction W.toCrypto × ScopeTables) :=
  if prepared.storeInstance ≠ s.store.storeInstance ∨ prepared.scope ≠ s.store.scope then
    .error .identityMismatch
  else do
    checkReserved prepared.id prepared.transaction.inputs read
    let keys ← s.inputKeys prepared.transaction.inputs (read .keys)
    let signature ← (signLocal .ordinary prepared.transaction keys signature).mapError
      transaction
    let signed ← (SignedQiTransaction.attachSignature prepared.transaction signature).mapError
      transaction
    let t ← (t.commitSignedQi s.store.scope prepared.id signed).mapError storage
    .ok (signed, t)

def sign (prepared : PreparedQiTransaction W) (signature : W.SchnorrSignature) (t : ScopeTables) :
    Except QiError (SignedQiTransaction W.toCrypto × ScopeTables) :=
  s.signFrom (fun _ => t) prepared signature t

def attachSpecial (t : QiSpecialTransaction W.toCrypto) (keys : List W.PublicKey)
    (signature : W.SchnorrSignature) : Except TransactionError (SignedQiOperation W.toCrypto) :=
  match t with
  | .conversion t => do
    let signature ← signLocal .conversion t.transaction keys signature
    (SignedQiConversionTransaction.attachSignature t signature).map SignedQiOperation.conversion
  | .wrapping t => do
    let signature ← signLocal .wrapping t.transaction keys signature
    (SignedQiWrappingTransaction.attachSignature t signature).map SignedQiOperation.wrapping

def checkReservedSpecial (id : ReservationId) (inputs : List (QiInput W.toCrypto))
    (read : SignPoint → ScopeTables) : Except QiError Unit :=
  if ((read .reservation).reservationRead id).map (·.state) ≠ some .reserved then
    .error .identityMismatch
  else do
    let actual ← ((read .claims).reservedOutpoints id).mapError storage
    if sortOutPoints (inputs.map QiInput.previousOutput) ≠ sortOutPoints actual then
      .error .identityMismatch
    else .ok ()

def signSpecialFrom (read : SignPoint → ScopeTables) (prepared : PreparedQiOperation W)
    (signature : W.SchnorrSignature) (t : ScopeTables) :
    Except QiError (SignedQiOperation W.toCrypto × ScopeTables) :=
  if prepared.storeInstance ≠ s.store.storeInstance ∨ prepared.scope ≠ s.store.scope then
    .error .identityMismatch
  else do
    checkReservedSpecial prepared.id prepared.transaction.transaction.inputs read
    let keys ← s.inputKeys prepared.transaction.transaction.inputs (read .keys)
    let signed ← (attachSpecial prepared.transaction keys signature).mapError transaction
    let t ← (t.commitSignedQiOperation s.store.scope prepared.id signed).mapError storage
    .ok (signed, t)

def signSpecial (prepared : PreparedQiOperation W) (signature : W.SchnorrSignature)
    (t : ScopeTables) : Except QiError (SignedQiOperation W.toCrypto × ScopeTables) :=
  s.signSpecialFrom (fun _ => t) prepared signature t

end QiSession

end QuaiSdk.Sdk
