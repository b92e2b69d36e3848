import QuaiSdk.Books.Codec
import QuaiSdk.Lib.Coverage
import QuaiSdk.Lib.Method
import QuaiSdk.Storage.Backup

/-!
# Allocation journals

What `allocation.rs` and `payment_allocation.rs` share: raw index ranges burned under the caller's
IDs, each completed at one derived address or abandoned, above a floor on each branch.  The two books
differ in their branches, in what a completion derives and in the width of a record.
-/

namespace QuaiSdk.Books

open Result Wallet Storage Reader

/-- The caller's 16 bytes, `AddressAllocationId` or `PaymentAllocationId`. -/
abbrev AllocationId := ReservationId

inductive AllocationStatus (A : Type) where
  | pending
  | completed (exposed : A)
  | abandoned
  deriving DecidableEq

namespace AllocationStatus

variable {A : Type}

def exposed? : AllocationStatus A → Option A
  | completed x => some x
  | pending | abandoned => none

def isPending : AllocationStatus A → Bool
  | pending => true
  | completed _ | abandoned => false

end AllocationStatus

structure Allocation (ι A : Type) where
  id : AllocationId
  branch : ι
  range : IndexRange
  status : AllocationStatus A
  deriving DecidableEq

/-- How a book derives what an allocation completes at. -/
structure Exposure (ι A : Type) where
  expose : ι → IndexRange → ℕ → Except StorageError A
  index : A → Option ℕ
  address : A → Address
  index_expose : ∀ {b range i x}, expose b range i = .ok x → index x = some i

/-- The branches of a book and the bytes that name them in a record. -/
structure Format (ι : Type) where
  limit : ℕ
  branches : List ι
  branchBytes : ι → Bytes
  branchWidth : ℕ
  readBranch : Reader StorageError ι
  limit_lt : limit < 2 ^ 16
  mem_branches : ∀ b, b ∈ branches
  length_branchBytes : ∀ b, (branchBytes b).length = branchWidth
  reads_branch : Reader.Reads readBranch (fun _ => True) branchBytes

def Format.width {ι : Type} (F : Format ι) : ℕ := 25 + F.branchWidth

structure AllocationBook (ι A : Type) where
  sealedHistory : Bool
  floor : ι → ℕ
  next : ι → ℕ
  allocations : Registry (Allocation.id (ι := ι) (A := A))

def maxAttempts : ℕ := 100000

namespace AllocationBook

open Method

variable {ι A : Type}

def start (floor : ι → ℕ) : AllocationBook ι A := ⟨false, floor, floor, .empty⟩

def exposedAddresses (E : Exposure ι A) (s : AllocationBook ι A) : List Address :=
  s.allocations.records.filterMap fun a => a.status.exposed?.map E.address

abbrev Update (ι A : Type) (α : Type) := Method StorageError (AllocationBook ι A) α

def reserve [DecidableEq ι] (limit : ℕ) (id : AllocationId) (branch : ι) (attempts : ℕ) :
    Update ι A Unit := do
  let s ← self
  if (s.allocations.get? id).isSome then fail .conflict
  else if ¬(1 ≤ attempts ∧ attempts ≤ maxAttempts) ∨ limit ≤ s.allocations.records.length then
    fail .invalid
  else if hardened ≤ s.next branch then fail .derivationExhausted
  else
    -- `saturating_add` does not saturate below the bound of the minimum
    let range : IndexRange := ⟨s.next branch, min (s.next branch + attempts) hardened⟩
    assign { s with
      allocations := s.allocations.insert ⟨id, branch, range, .pending⟩
      next := Function.update s.next branch range.stop }

def complete (E : Exposure ι A) (id : AllocationId) (index : ℕ) : Update ι A A := do
  let s ← self
  let a ← lift (okOr (s.allocations.get? id) .invalid)
  match a.status with
  | .completed x => if E.index x = some index then pure x else fail .transition
  | .abandoned => fail .transition
  | .pending =>
    if index < a.range.start ∨ a.range.stop ≤ index then fail .transition
    else do
      let x ← lift (E.expose a.branch a.range index)
      if E.address x ∈ s.exposedAddresses E then fail .conflict
      else do
        assign { s with allocations := s.allocations.insert { a with status := .completed x } }
        pure x

def abandon (id : AllocationId) : Update ι A Unit := do
  let s ← self
  let a ← lift (okOr (s.allocations.get? id) .invalid)
  if a.status.isPending = false then fail .transition
  else assign { s with allocations := s.allocations.insert { a with status := .abandoned } }

def settle (a : Allocation ι A) : Allocation ι A :=
  if a.status.isPending = true then { a with status := .abandoned } else a

theorem settle_id (a : Allocation ι A) : (settle a).id = a.id := by
  unfold settle
  split <;> rfl

/-- Raise the cursors over a backup's and seal everything below them; how many were given up. -/
def mergeCursors (incoming : ι → ℕ) : Update ι A ℕ := do
  let s ← self
  let next := fun b => max (s.next b) (incoming b)
  assign
    { sealedHistory := true
      floor := next
      next := next
      allocations := s.allocations.map settle settle_id }
  pure (s.allocations.records.countP fun a => a.status.isPending)

/-- Of what was exposed only the index is written. -/
def statusBytes (index : A → Option ℕ) : AllocationStatus A → Bytes
  | .pending => [0]
  | .abandoned => [2]
  | .completed x => 1 :: ((index x).map (BigEndian.toBytes 4)).getD []

def allocationBytes (index : A → Option ℕ) (F : Format ι) (a : Allocation ι A) : Bytes :=
  a.id.bytes ++ (F.branchBytes a.branch ++ (BigEndian.toBytes 4 a.range.start ++
    (BigEndian.toBytes 4 a.range.stop ++ statusBytes index a.status)))

def recordsBytes (index : A → Option ℕ) (F : Format ι)
    (allocations : Registry (Allocation.id (ι := ι) (A := A))) : Bytes :=
  BigEndian.toBytes 2 allocations.records.length ++
    allocations.records.flatMap (allocationBytes index F)

/-- The header of a journal, its cursors and its records. -/
def journalBytes (magic key name : Bytes) (cursors : List ℕ) (records : Bytes) : Bytes :=
  magic ++ (key ++ (name ++ cursors.foldr (fun n rest => BigEndian.toBytes 4 n ++ rest) records))

/-- The header again; its magic says whether the history is sealed. -/
def readHeader {α : Type} (magic : Bool → Bytes) (key name : Bytes)
    (r : Bool → Reader StorageError α) : Reader StorageError α := do
  let found ← take .invalid 8
  if found ≠ magic false ∧ found ≠ magic true then fail .invalid
  else do
    let key' ← take .invalid 65
    if key' ≠ key then fail .invalid
    else do
      let name' ← take .invalid 32
      if name' ≠ name then fail .invalid
      else r (decide (found = magic true))

def readStatus (E : Exposure ι A) (branch : ι) (range : IndexRange) :
    Reader StorageError (AllocationStatus A) := do
  let byte ← readByte
  if byte = 0 then pure .pending
  else if byte = 2 then pure .abandoned
  else if byte = 1 then do
    let index ← number .invalid 4
    if index < range.start ∨ range.stop ≤ index then fail .invalid
    else do
      let x ← lift (E.expose branch range index)
      pure (.completed x)
  else fail .invalid

def readAllocation (E : Exposure ι A) (F : Format ι) (previous : Option AllocationId) :
    Reader StorageError (Allocation ι A) := do
  let id ← readId
  if ∃ old ∈ previous, id ≤ old then fail .invalid
  else do
    let branch ← F.readBranch
    let start ← number .invalid 4
    let stop ← number .invalid 4
    if stop ≤ start ∨ hardened < stop ∨ maxAttempts < stop - start then fail .invalid
    else do
      let status ← readStatus E branch ⟨start, stop⟩
      pure ⟨id, branch, ⟨start, stop⟩, status⟩

/-- A count that the remaining bytes can hold, then the records. -/
def readRecords (E : Exposure ι A) (F : Format ι) :
    Reader StorageError (Registry (Allocation.id (ι := ι) (A := A))) := do
  let count ← number .invalid 2
  if F.limit < count then fail .invalid
  else
    guardInput (fun rest => rest.length / F.width < count) StorageError.invalid
      (registered (readAllocation E F) (fun a allocations => .ok (allocations.insert a)) count
        none .empty)

def ranges [DecidableEq ι] (s : AllocationBook ι A) (branch : ι) : List IndexRange :=
  (s.allocations.records.filter fun a => a.branch = branch).map Allocation.range

/-- The cursor that the retained ranges of a branch account for. -/
def coveredTo [DecidableEq ι] (s : AllocationBook ι A) (branch : ι) : Option ℕ :=
  Coverage.cover IndexRange.start IndexRange.stop
    (fun range => s.sealedHistory && decide (range.stop ≤ s.floor branch))
    (Coverage.sortByStart IndexRange.start (s.ranges branch)) 0 (s.floor branch)

/-- What an import checks of the records together; every check fails alike, so their order does not
matter. -/
def checkRecords [DecidableEq ι] (E : Exposure ι A) (F : Format ι) (s : AllocationBook ι A) :
    Except StorageError Unit :=
  if ¬(s.exposedAddresses E).Nodup then .error .invalid
  else if s.sealedHistory = true ∧ ∃ a ∈ s.allocations.records,
      a.range.stop ≤ s.floor a.branch ∧ a.status.isPending = true then .error .invalid
  else if ∃ b ∈ F.branches, s.coveredTo b ≠ some (s.next b) then .error .invalid
  else .ok ()

end AllocationBook

end QuaiSdk.Books
