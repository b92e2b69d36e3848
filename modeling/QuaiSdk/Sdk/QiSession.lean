import QuaiSdk.Lib.Method
import QuaiSdk.Sdk.QiPreflight
import QuaiSdk.Storage.Candidates
import QuaiSdk.Storage.Reads

/-!
# Qi sessions

`qi.rs`, `qi/special.rs` and `qi/sweep.rs`: change pools and the preparation, review and signing of
payments from a durable wallet store.  A prepare reads the store, asks the node, and ends in one
write; other handles may commit before each of these accesses, so an attempt comes with what they do.
-/

namespace QuaiSdk.Sdk

open Result Wallet Storage
open Method (lift fail self)
open QuaiSdk.Provider (ProviderError ZoneHeader)

variable {W : HdCrypto}

/-- A selection error also stands for a panic inside a selector. -/
inductive QiError where
  | networkMismatch
  | provider (error : ProviderError)
  | storage (error : StorageError)
  | selection (fault : Fault)
  | transaction (error : TransactionError)
  | identityMismatch
  | invalidPolicy
  | missingSnapshot
  | staleSnapshot
  | insufficientDestinations
  | insufficientChange
  | feeBelowInclusionFloor
  | cancelled
  deriving DecidableEq

structure StoreInstance where
  token : ℕ
  deriving DecidableEq

structure StoreHandle where
  storeInstance : StoreInstance
  scope : NetworkScope
  deriving DecidableEq

structure QiChangePool (W : HdCrypto) where
  storeInstance : StoreInstance
  scope : NetworkScope
  account : AccountPublic W
  burnedThrough : Option ℕ
  addresses : List PublicAddress

structure PreparedQiTransaction (W : HdCrypto) where
  storeInstance : StoreInstance
  id : ReservationId
  scope : NetworkScope
  transaction : QiTransaction W.toCrypto
  fee : ℕ
  recipientOutputs : ℕ
  digest : Hash32

inductive QiSpecialIntent where
  | conversion (intent : QiConversionIntent)
  | wrapping (intent : QiWrappingIntent)
  deriving DecidableEq

inductive QiSpecialTransaction (C : Crypto) where
  | conversion (t : QiConversionTransaction C)
  | wrapping (t : QiWrappingTransaction C)

namespace QiSpecialTransaction

variable {C : Crypto}

def transaction : QiSpecialTransaction C → QiTransaction C
  | conversion t => t.transaction
  | wrapping t => t.transaction

def signingDigest : QiSpecialTransaction C → Except TransactionError Hash32
  | conversion t => t.signingDigest
  | wrapping t => t.signingDigest

end QiSpecialTransaction

structure PreparedQiOperation (W : HdCrypto) where
  storeInstance : StoreInstance
  scope : NetworkScope
  id : ReservationId
  transaction : QiSpecialTransaction W.toCrypto
  fee : ℕ
  quote : Option QiFeeQuote

namespace QiChangePool

/-- `while addresses.len() < count`, with the answers of the callback in each round; the first answer
of a round is the loop's own poll. -/
def allocateLoop (scope : NetworkScope) (account : AccountPublic W) (attempts : ℕ)
    (cancelled : ℕ → ℕ → Bool) :
    ℕ → ℕ → List PublicAddress × Option ℕ → ScopeTables →
      Except QiError (List PublicAddress × Option ℕ) × ScopeTables
  | 0, _, s, t => (.ok s, t)
  | missing + 1, k, (addresses, _), t =>
    if cancelled k 0 then (.error .cancelled, t)
    else
      match t.allocateCompact scope account true attempts fun n => cancelled k (n + 1) with
      | .error e => (.error (.storage e), t)
      | .ok (allocated, t) =>
        allocateLoop scope account attempts cancelled missing (k + 1)
          (addresses ++ [allocated.address], some allocated.burned.stop) t

def allocate (store : StoreHandle) (account : AccountPublic W) (count attempts : ℕ)
    (cancelled : ℕ → ℕ → Bool) (t : ScopeTables) : Except QiError (QiChangePool W) × ScopeTables :=
  if account.coin ≠ .qi ∨ 1024 < count ∨ ¬(1 ≤ attempts ∧ attempts ≤ 100000) ∨
      100000 < count * attempts then (.error .invalidPolicy, t)
  else
    match t.takeReleasedChange account count with
    | .error e => (.error (.storage e), t)
    | .ok (taken, t) =>
      let (result, t) := allocateLoop store.scope account attempts cancelled (count - taken.length) 0
        (taken, none) t
      (result.map fun (addresses, burnedThrough) =>
        ⟨store.storeInstance, store.scope, account, burnedThrough, addresses⟩, t)

/-- Store the unused addresses for a later `allocate`; the pool is consumed. -/
def release (store : StoreHandle) (pool : QiChangePool W) (t : ScopeTables) :
    Except QiError ScopeTables :=
  if pool.storeInstance ≠ store.storeInstance ∨ pool.scope ≠ store.scope then
    .error .identityMismatch
  else if pool.addresses = [] then .ok t
  else (t.releaseChange pool.account pool.addresses).mapError QiError.storage

def owns (pool : QiChangePool W) (entry : PublicAddress) : Bool :=
  match entry.origin with
  | .bip44 .qi account true _ => decide (account = pool.account.account)
  | _ => false

/-- `metadata.remove(&output.address)` for each output in turn. -/
def takeMetadata : List QiOutput → Table Address PublicAddress → List PublicAddress
  | [], _ => []
  | output :: rest, metadata =>
    match metadata.lookup output.address with
    | some entry => entry :: takeMetadata rest (metadata.erase output.address)
    | none => takeMetadata rest metadata

def indexKey (entry : PublicAddress) : ℕ :=
  match entry.origin with
  | .bip44 _ _ _ index => index
  | .importedPublic => 2 ^ 32 - 1

def reclaimOutputs (store : StoreHandle) (pool : QiChangePool W) (storeInstance : StoreInstance)
    (scope : NetworkScope) (id : ReservationId) (transaction : QiTransaction W.toCrypto)
    (t : ScopeTables) : Except QiError (QiChangePool W × ScopeTables) :=
  if pool.storeInstance ≠ store.storeInstance ∨ storeInstance ≠ store.storeInstance ∨
      pool.scope ≠ scope ∨ store.scope ≠ scope then .error .identityMismatch
  else do
    let metadata ← (t.publicAddresses W.toCrypto store.scope
      (transaction.outputs.map QiOutput.address)).mapError QiError.storage
    let change := (takeMetadata transaction.outputs metadata).filter pool.owns
    let t ← (t.releaseUnsigned id).mapError QiError.storage
    let addresses := (pool.addresses ++ change).insertionSort fun a b => indexKey a ≤ indexKey b
    .ok ({ pool with addresses }, t)

def reclaim (store : StoreHandle) (pool : QiChangePool W) (prepared : PreparedQiTransaction W)
    (t : ScopeTables) : Except QiError (QiChangePool W × ScopeTables) :=
  pool.reclaimOutputs store prepared.storeInstance prepared.scope prepared.id prepared.transaction t

def reclaimOperation (store : StoreHandle) (pool : QiChangePool W)
    (prepared : PreparedQiOperation W) (t : ScopeTables) :
    Except QiError (QiChangePool W × ScopeTables) :=
  pool.reclaimOutputs store prepared.storeInstance prepared.scope prepared.id
    prepared.transaction.transaction t

end QiChangePool

/-- A handle and a key resolver; a resolved secret key is known by its public key. -/
structure QiSession (W : HdCrypto) where
  store : StoreHandle
  resolve : PublicAddress → Except StorageError W.PublicKey

/-- The accesses of a prepare to its store: the cursor and the metadata of its pool, the snapshot, the
owners of the selected coins in each round, the checkpoint after each header read, and the claim. -/
inductive Access where
  | cursor
  | pool
  | snapshot
  | inputs (round : ℕ)
  | checkpoint (n : ℕ)
  | claim
  deriving DecidableEq

/-- What surrounds one attempt at a prepare: the node's answers, and what other handles commit before
each access. -/
structure Attempt (W : HdCrypto) where
  provider : Provider W.toCrypto
  others : Access → ScopeTables → ScopeTables

/-- Calls on the rows of a store. -/
abbrev Rows (α : Type) := Method QiError ScopeTables α

namespace Attempt

variable (a : Attempt W) {α : Type}

def read (access : Access) (f : ScopeTables → Except StorageError α) : Rows α := fun t =>
  ((f (a.others access t)).mapError QiError.storage, a.others access t)

/-- A transaction: it commits, or leaves the rows as it found them. -/
def write (access : Access) (f : ScopeTables → Except StorageError (α × ScopeTables)) : Rows α :=
  fun t =>
    match f (a.others access t) with
    | .ok (result, t') => (.ok result, t')
    | .error e => (.error (.storage e), a.others access t)

/-- Height of the next block, from the `n`-th pair of header reads.  A snapshot whose checkpoint is no
longer canonical is invalidated. -/
def candidateHeight (n generation : ℕ) (checkpoint : Checkpoint) (maxAge : ℕ) : Rows ℕ :=
  if 2 ^ 64 ≤ checkpoint.height then fail .staleSnapshot
  else do
    let answer ← lift ((a.provider.headers n).mapError QiError.provider)
    match answer with
    | [canonical, tip] =>
      let canonical := canonical.map ZoneHeader.checkpoint
      if canonical ≠ some checkpoint then do
        let _ ← a.write (.checkpoint n) fun t => t.reconcileCheckpoint generation canonical
        fail .staleSnapshot
      else lift (okOr (nextHeight checkpoint maxAge tip) .staleSnapshot)
    | _ => fail .staleSnapshot

end Attempt

def lostRace (error : QiError) : Bool := decide (error = .storage .staleSnapshot)

/-- One more attempt, from what the first has left, if that lost a race. -/
def retryOnce {σ α : Type} (attempt : Attempt W → Method QiError σ α) (first second : Attempt W) :
    Method QiError σ α := fun s =>
  match attempt first s with
  | (.ok result, t) => (.ok result, t)
  | (.error e, t) => if lostRace e then attempt second t else (.error e, t)

namespace QiSession

variable (s : QiSession W) (a : Attempt W)

def verifyNetwork : Except QiError Unit := do
  let matched ← (a.provider.onNetwork 0 s.store.scope).mapError QiError.provider
  if matched = true then .ok () else .error .networkMismatch

def keyFor (entry : PublicAddress) : Except QiError W.PublicKey := do
  let key ← (s.resolve entry).mapError fun _ => QiError.identityMismatch
  if W.toCompressed key ≠ entry.publicKey ∨ W.address key ≠ entry.address then
    .error .identityMismatch
  else .ok key

def selectedInput (metadata : Table Address PublicAddress) (coin : CandidateCoin) :
    Except QiError (QiInput W.toCrypto × PublicAddress) := do
  let entry ← okOr (metadata.lookup coin.address.address) QiError.identityMismatch
  let publicKey ← okOr (W.fromSec1 entry.publicKey) QiError.identityMismatch
  .ok (⟨coin.outpoint, publicKey⟩, entry)

def selectedInputs (round : ℕ) (coins : List CandidateCoin) :
    Rows (List (QiInput W.toCrypto) × List PublicAddress) := do
  let metadata ← a.read (.inputs round) fun t =>
    t.publicAddresses W.toCrypto s.store.scope (coins.map fun coin => coin.address.address)
  let pairs ← lift (coins.mapM (selectedInput metadata))
  pure (pairs.map Prod.fst, pairs.map Prod.snd)

def confirmSignable (entries : List PublicAddress) : Except QiError Unit := do
  let _ ← entries.mapM s.keyFor
  .ok ()

end QiSession

end QuaiSdk.Sdk
