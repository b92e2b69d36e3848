import QuaiSdk.Storage.Schema

/-!
# Address metadata and allocation

`import_metadata` and the two forms of `allocate_address`.  The ordinary form burns a whole index
range in one transaction, searches it without the write lock, and completes in a second one that
gives the unexamined tail back when nothing else was recorded; `PendingAllocation` is what the call
carries from the first transaction to the second.
-/

namespace QuaiSdk.Storage

open Result Wallet

variable {W : HdCrypto}

/-- Half-open raw index range; `stop` is the source's `end`. -/
structure IndexRange where
  start : ℕ
  stop : ℕ
  deriving DecidableEq

structure AllocatedAddress where
  address : PublicAddress
  burned : IndexRange
  generation : ℕ
  deriving DecidableEq

def branchOf (account : AccountPublic W) (change : Bool) : Branch :=
  ⟨account.coin, account.account, change⟩

/-- A burned range whose search has not completed, with the callback and its polls so far. -/
structure PendingAllocation (W : HdCrypto) where
  account : AccountPublic W
  change : Bool
  start : ℕ
  limit : ℕ
  reservedGeneration : ℕ
  cancelled : ℕ → Bool
  polls : ℕ

def PendingAllocation.branch (p : PendingAllocation W) : Branch := branchOf p.account p.change

namespace ScopeTables

def importMetadata (W : HdCrypto) (scope : NetworkScope) (expected : ℕ)
    (addresses : List PublicAddress) (t : ScopeTables) : Except StorageError (ℕ × ScopeTables) :=
  if maxCoins < addresses.length then .error .invalid
  else do
    let next ← t.nextGeneration expected
    let t ← t.insertAddresses W scope addresses
    if maxCoins < t.addresses.entries.length then .error .invalid
    else .ok (next, t.clearSnapshot next)

def checkExposed (account : AccountPublic W) (bound : Option String) (change : Bool) (index : ℕ)
    (address : Address) (row : AddressRow) : Except StorageError Unit :=
  match bound with
  | some _ => .ok ()
  | none => do
    let expected ← (account.deriveAddress change index).mapError fun _ => StorageError.conflict
    if address ≠ expected.address ∨ row.publicKey ≠ expected.publicKey then .error .conflict
    else .ok ()

def scanExposed (account : AccountPublic W) (change : Bool) (bound : Option String)
    (cancelled : ℕ → Bool) :
    List (Address × AddressRow) → ℕ → ℕ → Except StorageError (ℕ × ℕ)
  | [], start, polls => .ok (start, polls)
  | (address, row) :: rest, start, polls =>
    match row.origin with
    | .importedPublic => scanExposed account change bound cancelled rest start polls
    | .bip44 coin owner originChange index =>
      if coin = account.coin ∧ owner = account.account then
        if cancelled polls then .error .cancelled
        else do
          checkExposed account bound originChange index address row
          scanExposed account change bound cancelled rest
            (if originChange = change then max start (index + 1) else start) (polls + 1)
      else scanExposed account change bound cancelled rest start polls

def allocationStart (account : AccountPublic W) (change : Bool) (cancelled : ℕ → Bool) (polls : ℕ)
    (t : ScopeTables) : Except StorageError (ℕ × ℕ) :=
  let bound := t.boundXpub account.coin account.account
  if ∃ previous ∈ bound, previous ≠ account.exportXpub then .error .conflict
  else
    match t.derivationCursors.lookup (branchOf account change) with
    | some cursor =>
      if cursor.xpub ≠ account.exportXpub then .error .conflict else .ok (cursor.nextIndex, polls)
    | none => scanExposed account change bound cancelled t.addresses.rows 0 polls

/-- `INSERT .. ON CONFLICT .. DO UPDATE SET next_index=excluded.next_index`. -/
def setCursor (b : Branch) (xpub : String) (next : ℕ) (t : ScopeTables) : ScopeTables :=
  let bound := ((t.derivationCursors.lookup b).map (·.xpub)).getD xpub
  { t with derivationCursors := t.derivationCursors.insert b ⟨bound, next⟩ }

def allocationRange (account : AccountPublic W) (change : Bool) (maxAttempts : ℕ)
    (cancelled : ℕ → Bool) (t : ScopeTables) : Except StorageError (IndexRange × ℕ) :=
  if maxAttempts = 0 ∨ 100000 < maxAttempts then .error .invalid
  else if cancelled 0 then .error .cancelled
  else do
    let (start, polls) ← t.allocationStart account change cancelled 1
    if hardened < start + maxAttempts then .error .overflow
    else .ok (⟨start, start + maxAttempts⟩, polls)

def searchError : WalletError → StorageError
  | .cancelled _ _ => .cancelled
  | .searchExhausted _ _ => .derivationExhausted
  | _ => .invalid

/-- The closure `derive`: the search over the whole range. -/
def searchRange (scope : NetworkScope) (account : AccountPublic W) (change : Bool)
    (range : IndexRange) (cancelled : ℕ → Bool) (polls : ℕ) :
    Except StorageError (SearchResult × ℕ) :=
  (account.search change
    { zone := scope.zone, startIndex := range.start, maxAttempts := range.stop - range.start }
    cancelled polls).mapError searchError

def finishAllocation (scope : NetworkScope) (account : AccountPublic W) (change : Bool)
    (index : ℕ) (burned : IndexRange) (cancelled : Bool) (t : ScopeTables) :
    Except StorageError (AllocatedAddress × ScopeTables) :=
  if cancelled then .error .cancelled
  else do
    let address ← PublicAddress.derive account change index
    let next ← t.nextGeneration t.generation
    if maxCoins ≤ t.addresses.entries.length then .error .invalid
    else do
      let t ← t.insertAddress W scope address
      .ok (⟨address, burned, next⟩, t.clearSnapshot next)

/-- First transaction of `allocate_address`: burn the full range. -/
def reserveRange (account : AccountPublic W) (change : Bool) (maxAttempts : ℕ)
    (cancelled : ℕ → Bool) (t : ScopeTables) :
    Except StorageError (PendingAllocation W × ScopeTables) := do
  let (range, polls) ← t.allocationRange account change maxAttempts cancelled
  .ok ({ account, change, start := range.start, limit := range.stop,
         reservedGeneration := t.generation, cancelled, polls },
    t.setCursor (branchOf account change) account.exportXpub range.stop)

def giveBack (p : PendingAllocation W) (index : ℕ) (t : ScopeTables) : ScopeTables × ℕ :=
  match t.derivationCursors.lookup p.branch with
  | some cursor =>
    if cursor.nextIndex = p.limit ∧ t.generation = p.reservedGeneration then
      (t.setCursor p.branch cursor.xpub (index + 1), index + 1)
    else (t, p.limit)
  | none => (t, p.limit)

/-- Second transaction of `allocate_address`, after its search. -/
def completeAllocation (scope : NetworkScope) (p : PendingAllocation W) (t : ScopeTables) :
    Except StorageError (AllocatedAddress × ScopeTables) := do
  let (found, polls) ← searchRange scope p.account p.change ⟨p.start, p.limit⟩ p.cancelled p.polls
  let (t, stop) := t.giveBack p found.address.index
  t.finishAllocation scope p.account p.change found.address.index ⟨p.start, stop⟩ (p.cancelled polls)

/-- `allocate_address_compact`: search under the write lock and burn only what was examined. -/
def allocateCompact (scope : NetworkScope) (account : AccountPublic W) (change : Bool)
    (maxAttempts : ℕ) (cancelled : ℕ → Bool) (t : ScopeTables) :
    Except StorageError (AllocatedAddress × ScopeTables) := do
  let (range, polls) ← t.allocationRange account change maxAttempts cancelled
  let (found, polls) ← searchRange scope account change range cancelled polls
  let index := found.address.index
  (t.setCursor (branchOf account change) account.exportXpub (index + 1)).finishAllocation scope
    account change index ⟨range.start, index + 1⟩ (cancelled polls)

end ScopeTables

end QuaiSdk.Storage
