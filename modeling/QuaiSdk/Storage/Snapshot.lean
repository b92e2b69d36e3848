import QuaiSdk.Storage.Allocation

/-!
# Snapshots and reorganisations

The coin view of a scope and the transactions that replace or invalidate it: discovery, refresh,
checkpoint reconciliation, reorg rollback and the head cursor that is committed with it.
-/

namespace QuaiSdk.Storage

open Result Wallet

inductive CanonicalStatus where
  | matched | changed | notChecked
  deriving DecidableEq

inductive ScanStop where
  | rangeEnd | gapLimit | addressLimit | cancelled
  deriving DecidableEq

structure AddressObservation where
  scope : NetworkScope
  checkpoint : Checkpoint
  address : Address
  coins : List CandidateCoin

structure ObservedAddress where
  derived : DerivedAddress
  observation : AddressObservation

/-- The parts of a report that a commit reads; `coverage` keeps only the stop reasons. -/
structure DiscoveryReport where
  scope : NetworkScope
  accountXpub : String
  coin : CoinType
  account : ℕ
  checkpoint : Checkpoint
  canonical : CanonicalStatus
  coverage : List ScanStop
  addresses : List ObservedAddress

structure DiscoveryBatch where
  addresses : List PublicAddress
  coins : List CandidateCoin

structure Snapshot where
  scope : NetworkScope
  generation : ℕ
  checkpoint : Option Checkpoint
  coins : List CandidateCoin

structure ReorgInvalidation where
  generation : ℕ
  inclusions : ℕ
  caches : ℕ
  deriving DecidableEq

inductive CheckpointReconciliation where
  | unscanned
  | matched
  | invalidated (generation : ℕ)
  deriving DecidableEq

def rewinds (old : Option Checkpoint) (new : Checkpoint) : Prop :=
  ∃ o ∈ old, new.height < o.height ∨ o.height = new.height ∧ o.hash ≠ new.hash

instance (old : Option Checkpoint) (new : Checkpoint) : Decidable (rewinds old new) :=
  inferInstanceAs (Decidable (∃ o ∈ old, _))

def misplaced (scope : NetworkScope) (coin : CandidateCoin) : Prop :=
  coin.address.zone ≠ scope.zone ∨ coin.outpoint.transactionHash.byte 2 ≠ scope.zone.byte ∨
    coin.outpoint.transactionHash = Hash32.zero ∨ ∃ h ∈ coin.expiresAt, h ≤ coin.unlockHeight

instance (scope : NetworkScope) (coin : CandidateCoin) : Decidable (misplaced scope coin) :=
  inferInstanceAs (Decidable (_ ∨ _ ∨ _ ∨ ∃ h ∈ coin.expiresAt, _))

/-- `UPDATE reservations SET state=2,.. WHERE state=3 AND block_height>=?2`. -/
def Status.revert (first : ℕ) : Status → Status
  | .confirmed h block => if first ≤ block.height then .submitted h else .confirmed h block
  | status => status

def coinRow (coin : CandidateCoin) : CoinRow :=
  ⟨coin.address.address, coin.denomination, coin.unlockHeight, coin.expiresAt⟩

namespace DiscoveryBatch

variable (W : HdCrypto)

def addCoin (owner : Address) (coins : List CandidateCoin) (coin : CandidateCoin) :
    Except StorageError (List CandidateCoin) :=
  if coin.address.address ≠ owner ∨ coins.length = maxCoins then .error .invalid
  else .ok (coins ++ [coin])

def addAddress (scope : NetworkScope) (checkpoint : Checkpoint) (account : AccountPublic W)
    (batch : DiscoveryBatch) (observed : ObservedAddress) : Except StorageError DiscoveryBatch :=
  if batch.addresses.length = maxCoins then .error .invalid
  else do
    let derived ← PublicAddress.derive account observed.derived.change observed.derived.index
    if derived.address ≠ observed.derived.address ∨
        derived.publicKey ≠ observed.derived.publicKey ∨
        observed.observation.address ≠ derived.address ∨ observed.observation.scope ≠ scope ∨
        observed.observation.checkpoint ≠ checkpoint ∨
        derived.address ∈ batch.addresses.map PublicAddress.address then .error .invalid
    else do
      let coins ← observed.observation.coins.foldlM (addCoin derived.address) batch.coins
      .ok ⟨batch.addresses ++ [derived], coins⟩

def addReport (scope : NetworkScope) (checkpoint : Checkpoint) (batch : DiscoveryBatch)
    (report : DiscoveryReport) : Except StorageError DiscoveryBatch :=
  if report.scope ≠ scope ∨ report.checkpoint ≠ checkpoint ∨ report.canonical ≠ .matched ∨
      ScanStop.cancelled ∈ report.coverage then .error .staleSnapshot
  else do
    let account ← (AccountPublic.importXpub W report.accountXpub report.coin report.account).mapError
      fun _ => StorageError.invalid
    report.addresses.foldlM (addAddress W scope checkpoint account) batch

end DiscoveryBatch

namespace ScopeTables

def insertCoin (scope : NetworkScope) (next : ℕ) (t : ScopeTables) (coin : CandidateCoin) :
    Except StorageError ScopeTables :=
  if misplaced scope coin ∨ coin.outpoint ∈ t.coins then .error .invalid
  else if coin.address.address ∉ t.addresses then .error .database
  else .ok { t with coins := t.coins.insert coin.outpoint ⟨next, coinRow coin⟩ }

def commitDiscovery (W : HdCrypto) (scope : NetworkScope) (expected : ℕ)
    (reports : List DiscoveryReport) (t : ScopeTables) : Except StorageError (ℕ × ScopeTables) :=
  match reports with
  | [] => .error .invalid
  | first :: _ =>
    if 1000 < reports.length then .error .invalid
    else do
      let batch ← reports.foldlM (DiscoveryBatch.addReport W scope first.checkpoint) ⟨[], []⟩
      let next ← t.nextGeneration expected
      if rewinds t.checkpoint first.checkpoint then .error .staleSnapshot
      else if ∃ r ∈ t.addresses.rows, r.1 ∉ batch.addresses.map PublicAddress.address then
        .error .staleSnapshot
      else do
        let t ← t.insertAddresses W scope batch.addresses
        let t ← batch.coins.foldlM (insertCoin scope next) { t with coins := ∅ }
        .ok (next, { t with generation := next, checkpoint := some first.checkpoint })

def collectCoin (scope : NetworkScope) (t : ScopeTables) (rows : Table OutPoint CoinRow)
    (coin : CandidateCoin) : Except StorageError (Table OutPoint CoinRow) :=
  if misplaced scope coin then .error .invalid
  else do
    t.requireAddress coin.address.address
    if coin.outpoint ∈ rows then .error .invalid
    else .ok (rows.insert coin.outpoint (coinRow coin))

def coinRows (t : ScopeTables) : Table OutPoint CoinRow := t.coins.update fun _ c => c.row

/-- The write of `replace_snapshot`: unchanged coins only move the checkpoint. -/
def writeSnapshot (current next : ℕ) (checkpoint : Checkpoint) (rows : Table OutPoint CoinRow)
    (t : ScopeTables) : ℕ × ScopeTables :=
  if t.checkpoint.isSome ∧ t.coinRows.Same rows then
    (current, { t with checkpoint := some checkpoint })
  else
    (next, { t with
      coins := rows.update fun _ row => ⟨next, row⟩
      generation := next
      checkpoint := some checkpoint })

def replaceSnapshot (scope : NetworkScope) (snapshot : Snapshot) (t : ScopeTables) :
    Except StorageError (ℕ × ScopeTables) :=
  if snapshot.scope ≠ scope then .error .staleSnapshot
  else do
    let checkpoint ← okOr snapshot.checkpoint StorageError.invalid
    if maxCoins < snapshot.coins.length then .error .invalid
    else do
      let next ← t.nextGeneration snapshot.generation
      if rewinds t.checkpoint checkpoint then .error .staleSnapshot
      else do
        let rows ← snapshot.coins.foldlM (t.collectCoin scope) ∅
        .ok (t.writeSnapshot snapshot.generation next checkpoint rows)

def reconcileCheckpoint (expected : ℕ) (canonical : Option Checkpoint) (t : ScopeTables) :
    Except StorageError (CheckpointReconciliation × ScopeTables) :=
  if t.generation ≠ expected then .error .staleSnapshot
  else
    match t.checkpoint with
    | none => .ok (.unscanned, t)
    | some previous =>
      if ∃ value ∈ canonical, value.height ≠ previous.height then .error .invalid
      else if canonical = some previous then .ok (.matched, t)
      else do
        let next ← t.nextGeneration expected
        .ok (.invalidated next, t.clearSnapshot next)

/-- The rollback inside `invalidate_reorg_from` and `commit_head_replay`. -/
def invalidate (expected first : ℕ) (t : ScopeTables) :
    Except StorageError (ReorgInvalidation × ScopeTables) :=
  if first = 0 then .error .invalid
  else do
    let next ← t.nextGeneration expected
    if ∃ r ∈ t.observationCache.rows, r.2.revision = maxInteger then .error .overflow
    else
      let affected := t.custody.reservations.rows.countP fun r =>
        r.2.status.revert first ≠ r.2.status
      let t' := { t with
        custody := { t.custody with
          reservations := t.custody.reservations.update fun _ (row : ReservationRow) =>
            ReservationRow.mk row.kind (row.status.revert first) }
        observationCache := t.observationCache.update fun _ (c : ObservationCache) =>
          ObservationCache.mk (c.revision + 1) none }
      .ok (⟨next, affected, t.observationCache.entries.length⟩, t'.clearSnapshot next)

def invalidateReorgFrom (expected first : ℕ) (t : ScopeTables) :
    Except StorageError (ReorgInvalidation × ScopeTables) :=
  t.invalidate expected first

def clearHead (t : ScopeTables) : Except StorageError ScopeTables :=
  match t.headReplay with
  | none => .ok t
  | some state =>
    if maxInteger ≤ state.revision then .error .overflow
    else .ok { t with headReplay := some ⟨state.revision + 1, none⟩ }

def maxHeadReplayBytes : ℕ := 163887

def invalidateIf (expected : ℕ) (first : Option ℕ) (t : ScopeTables) :
    Except StorageError (Option ReorgInvalidation × ScopeTables) :=
  match first with
  | none => .ok (none, t)
  | some height => (t.invalidate expected height).map fun r => (some r.1, r.2)

def commitHeadReplay (expected : ℕ) (expectedRevision : Option ℕ) (payload : Option Bytes)
    (first : Option ℕ) (t : ScopeTables) :
    Except StorageError ((ℕ × Option ReorgInvalidation) × ScopeTables) :=
  if ∃ b ∈ payload, b = [] ∨ maxHeadReplayBytes < b.length then .error .invalid
  else if t.generation ≠ expected then .error .staleSnapshot
  else if t.headReplay.map (·.revision) ≠ expectedRevision then .error .staleSnapshot
  else
    let revision := headRevision t.headReplay
    if maxInteger ≤ revision then .error .overflow
    else do
      let (invalidation, t) ← t.invalidateIf expected first
      .ok ((revision + 1, invalidation), { t with headReplay := some ⟨revision + 1, payload⟩ })

end ScopeTables

end QuaiSdk.Storage
