import QuaiSdk.Storage.Custody
import QuaiSdk.Storage.Snapshot

/-!
# Reads

The queries that a spending workflow makes before it claims anything: public metadata by address, the
coin snapshot with its claims, and the outputs an operation holds.  Every row is validated again as
it is read.
-/

namespace QuaiSdk.Storage

open Result Wallet

/-- The derived order of `OutPoint` is that of the key. -/
def sortOutPoints (os : List OutPoint) : List OutPoint :=
  os.insertionSort fun a b => outPointKey a ≤ outPointKey b

theorem sortOutPoints_perm (outpoints : List OutPoint) :
    (sortOutPoints outpoints).Perm outpoints := List.perm_insertionSort _ outpoints

namespace ScopeTables

/-- Decode and validate one `address,public_key,origin` row. -/
def addressRow (C : Crypto) (scope : NetworkScope) (a : Address) (row : AddressRow) :
    Except StorageError PublicAddress := do
  let key ← okOr (C.fromSec1 row.publicKey) StorageError.invalid
  if C.address key ≠ a ∨ a.zone.toOption ≠ some scope.zone then .error .invalid
  else .ok ⟨a, row.publicKey, row.origin⟩

def readAddress (C : Crypto) (scope : NetworkScope) (t : ScopeTables)
    (result : Table Address PublicAddress) (a : Address) :
    Except StorageError (Table Address PublicAddress) :=
  if a ∈ result then .ok result
  else if result.entries.length = maxCoins then .error .invalid
  else
    match t.addresses.lookup a with
    | none => .ok result
    | some row => (addressRow C scope a row).map fun entry => result.insert a entry

def publicAddresses (C : Crypto) (scope : NetworkScope) (addresses : List Address)
    (t : ScopeTables) : Except StorageError (Table Address PublicAddress) :=
  addresses.foldlM (readAddress C scope t) ∅

def coinRead (scope : NetworkScope) (t : ScopeTables) (r : OutPoint × StoredCoin) :
    Except StorageError CandidateCoin :=
  let (o, stored) := r
  if stored.generation ≠ t.generation ∨ t.checkpoint = none then .error .invalid
  else do
    let address ← (LedgerAddress.tryFrom .qi stored.row.address).mapError fun _ =>
      StorageError.invalid
    if address.zone ≠ scope.zone ∨ o.transactionHash.byte 2 ≠ scope.zone.byte ∨
        o.transactionHash = Hash32.zero then .error .invalid
    else
      .ok { outpoint := o, address, denomination := stored.row.denomination,
            unlockHeight := stored.row.unlockHeight, expiresAt := stored.row.expiresAt,
            reserved := decide (o ∈ t.custody.qiClaims) }

def snapshot (scope : NetworkScope) (t : ScopeTables) : Except StorageError Snapshot :=
  if maxCoins < t.coins.entries.length then .error .invalid
  else do
    let rows := t.coins.rows.insertionSort fun a b => outPointKey a.1 ≤ outPointKey b.1
    let coins ← rows.mapM (coinRead scope t)
    .ok ⟨scope, t.generation, t.checkpoint, coins⟩

def nextDerivationIndex {W : HdCrypto} (account : AccountPublic W) (change : Bool)
    (t : ScopeTables) : Except StorageError (Option ℕ) :=
  match t.derivationCursors.lookup (branchOf account change) with
  | none => .ok none
  | some cursor =>
    if cursor.xpub = account.exportXpub then .ok (some cursor.nextIndex) else .error .conflict

def reservedOutpoints (id : ReservationId) (t : ScopeTables) :
    Except StorageError (List OutPoint) :=
  let held := (t.custody.qiClaims.rows.filter fun r => r.2.operation = id).map (·.1)
  if 4096 < held.length then .error .invalid else .ok (sortOutPoints held)

theorem addressRow_eq_ok {C : Crypto} {scope : NetworkScope} {a : Address} {row : AddressRow}
    {entry : PublicAddress} (h : addressRow C scope a row = .ok entry) :
    entry = ⟨a, row.publicKey, row.origin⟩ ∧
      ∃ key, C.fromSec1 row.publicKey = some key ∧ C.address key = a := by
  simp only [addressRow, eq_ok, not_or, not_not] at h
  obtain ⟨key, hkey, ⟨haddress, -⟩, hok⟩ := h
  cases hok
  exact ⟨rfl, key, hkey, haddress⟩

theorem publicAddresses_lookup {C : Crypto} {scope : NetworkScope} {t : ScopeTables}
    {addresses : List Address} {m : Table Address PublicAddress} {a : Address}
    {entry : PublicAddress} (h : t.publicAddresses C scope addresses = .ok m)
    (hentry : m.lookup a = some entry) :
    ∃ row, t.addresses.lookup a = some row ∧ addressRow C scope a row = .ok entry := by
  -- the loop inserts a decoded row under its own address only
  have hstep : ∀ m a' m', (∀ a entry, m.lookup a = some entry →
        ∃ row, t.addresses.lookup a = some row ∧ addressRow C scope a row = .ok entry) →
      readAddress C scope t m a' = .ok m' → ∀ a entry, m'.lookup a = some entry →
        ∃ row, t.addresses.lookup a = some row ∧ addressRow C scope a row = .ok entry := by
    intro m a' m' hm hread a entry hentry
    unfold readAddress at hread
    split at hread
    · cases hread
      exact hm a entry hentry
    rw [ite_error_eq_ok] at hread
    obtain ⟨-, hread⟩ := hread
    split at hread
    · cases hread
      exact hm a entry hentry
    · rename_i row hrow
      obtain ⟨decoded, hdecoded, rfl⟩ := map_eq_ok.mp hread
      rw [Table.lookup_insert_eq] at hentry
      split at hentry
      · rename_i heq
        cases hentry
        subst heq
        exact ⟨row, hrow, hdecoded⟩
      · exact hm a entry hentry
  have hempty : ∀ a entry, (∅ : Table Address PublicAddress).lookup a = some entry →
      ∃ row, t.addresses.lookup a = some row ∧ addressRow C scope a row = .ok entry := by
    intro a entry hentry
    cases hentry
  exact foldlM_invariant hstep hempty h a entry hentry

end ScopeTables

end QuaiSdk.Storage
