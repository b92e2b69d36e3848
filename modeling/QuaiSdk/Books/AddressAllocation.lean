import QuaiSdk.Books.AllocationLedger
import QuaiSdk.Books.Custody
import QuaiSdk.Storage.Keys

/-!
# Address allocation books

`allocation.rs`: the journal of one account key on one scope, with a receive and a change branch.
-/

namespace QuaiSdk.Wallet

def CoinType.number : CoinType → ℕ
  | quai => 994
  | qi => 969

end QuaiSdk.Wallet

namespace QuaiSdk.Books

open Result Wallet Storage BigEndian AllocationBook
open Reader (Reads)

variable {B : Backend}

structure AddressAllocationBook (B : Backend) where
  scope : NetworkScope
  account : AccountPublic B.toHdCrypto
  state : AllocationBook Bool PublicAddress
  scope_ok : scope.chainId ≠ U256.ofNat 0 ∧ scope.genesis ≠ Hash32.zero

namespace AddressAllocationBook

/-- `account_identity`, the `identity` of a book. -/
def accountIdentity (account : AccountPublic B.toHdCrypto) : Hash32 :=
  B.keccak256 ("quai-rust/address-allocation/v1".toUTF8.data.toList ++
    toBytes 4 account.coin.number ++ toBytes 4 account.account ++
    account.exportXpub.toUTF8.data.toList)

/-- A child of the account in the zone of the scope. -/
def exposeAddress (scope : NetworkScope) (account : AccountPublic B.toHdCrypto) (change : Bool)
    (index : ℕ) : Except StorageError PublicAddress := do
  let address ← PublicAddress.derive account change index
  let zone ← address.address.zone.mapError fun _ => StorageError.invalid
  if zone ≠ scope.zone then .error .invalid else .ok address

def childIndex (address : PublicAddress) : Option ℕ :=
  match address.origin with
  | .bip44 _ _ _ index => some index
  | .importedPublic => none

variable {scope : NetworkScope} {account : AccountPublic B.toHdCrypto}
  {book' : AddressAllocationBook B} {n : ℕ} {id : AllocationId} {a : Allocation Bool PublicAddress}

theorem childIndex_of_expose
    {change : Bool} {index : ℕ} {a : PublicAddress}
    (h : exposeAddress scope account change index = .ok a) : childIndex a = some index := by
  simp only [exposeAddress, eq_ok] at h
  obtain ⟨address, hderive, _, -, -, rfl⟩ := h
  rw [childIndex, PublicAddress.derive_origin hderive]
  rfl

def exposure (scope : NetworkScope) (account : AccountPublic B.toHdCrypto) :
    Exposure Bool PublicAddress where
  expose change _ index := exposeAddress scope account change index
  index := childIndex
  address := PublicAddress.address
  index_expose := childIndex_of_expose

/-- `MAX_ADDRESS_ALLOCATIONS` and a byte for the branch. -/
def format : Format Bool where
  limit := 4096
  branches := [false, true]
  branchBytes change := [flagByte change]
  branchWidth := 1
  readBranch := readFlag
  limit_lt := by decide
  mem_branches := by decide
  length_branchBytes := fun _ => rfl
  reads_branch := readFlag_reads

/-- Both branches, `[receive, change]`. -/
def branches (receive change : ℕ) : Bool → ℕ := fun b => if b = true then change else receive

def new (scope : NetworkScope) (account : AccountPublic B.toHdCrypto)
    (firstReceive firstChange : ℕ) : Except StorageError (AddressAllocationBook B) :=
  if hscope : scope.chainId ≠ U256.ofNat 0 ∧ scope.genesis ≠ Hash32.zero then
    if hardened < firstReceive ∨ hardened < firstChange then .error .invalid
    else .ok ⟨scope, account, .start (branches firstReceive firstChange), hscope⟩
  else .error .invalid

/-- A cursor of the account raises nothing: it is where its branch starts. -/
def importCursor (account : AccountPublic B.toHdCrypto) (floor : Bool → ℕ)
    (cursor : DerivationState) : Except StorageError (Bool → ℕ) :=
  if cursor.coin = account.coin ∧ cursor.account = account.account then
    if cursor.xpub ≠ account.exportXpub then .error .invalid
    else .ok (Function.update floor cursor.change cursor.nextIndex)
  else .ok floor

/-- An address of the account must be its own child and lies below the start of its branch. -/
def importAddress (account : AccountPublic B.toHdCrypto) (floor : Bool → ℕ)
    (address : PublicAddress) : Except StorageError (Bool → ℕ) :=
  match address.origin with
  | .importedPublic => .ok floor
  | .bip44 coin number change index =>
    if coin = account.coin ∧ number = account.account then do
      let derived ← PublicAddress.derive account change index
      if derived ≠ address then .error .invalid
      else .ok (Function.update floor change (max (floor change) (index + 1)))
    else .ok floor

def fromBackup (backup : WalletBackup B) (scope : NetworkScope)
    (account : AccountPublic B.toHdCrypto) : Except StorageError (AddressAllocationBook B) := do
  let state ← okOr (backup.scopeState scope) StorageError.invalid
  if ¬∃ origin ∈ backup.origins, ∃ key ∈ B.accountPublic origin account.coin account.account,
      key.exportXpub = account.exportXpub then .error .invalid
  else do
    let floor ← state.derivation.foldlM (importCursor account) fun _ => 0
    let floor ← state.addresses.foldlM (importAddress account) floor
    new scope account (floor false) (floor true)

/-- `QADDRBK1`, or `QADDRBK2` with sealed history. -/
def magic (sealedHistory : Bool) : Bytes :=
  [0x51, 0x41, 0x44, 0x44, 0x52, 0x42, 0x4B, if sealedHistory = true then 0x32 else 0x31]

def exportState (book : AddressAllocationBook B) : Bytes :=
  journalBytes (magic book.state.sealedHistory) book.scope.key (accountIdentity book.account).bytes
    [book.state.floor false, book.state.floor true, book.state.next false, book.state.next true]
    (recordsBytes childIndex format book.state.allocations)

def maxBytes : ℕ := 123 + format.limit * 30

def readState (scope : NetworkScope) (account : AccountPublic B.toHdCrypto) (sealedHistory : Bool) :
    Reader StorageError (AddressAllocationBook B) := do
  let receive ← Reader.number .invalid 4
  let change ← Reader.number .invalid 4
  let book ← Reader.lift (new scope account receive change)
  let nextReceive ← Reader.number .invalid 4
  let nextChange ← Reader.number .invalid 4
  if hardened < nextReceive ∨ hardened < nextChange then Reader.fail .invalid
  else do
    let allocations ← readRecords (exposure scope account) format
    let next := branches nextReceive nextChange
    pure { book with state := { book.state with sealedHistory, next, allocations } }

def readBook (scope : NetworkScope) (account : AccountPublic B.toHdCrypto) :
    Reader StorageError (AddressAllocationBook B) :=
  readHeader magic scope.key (accountIdentity account).bytes (readState scope account)

def fromState (bytes : Bytes) (scope : NetworkScope) (account : AccountPublic B.toHdCrypto) :
    Except StorageError (AddressAllocationBook B) :=
  if bytes.length < 123 ∨ maxBytes < bytes.length then .error .invalid
  else do
    let (book, rest) ← readBook scope account bytes
    if rest ≠ [] then .error .invalid
    else do
      checkRecords (exposure scope account) format book.state
      .ok book

def ledger : AllocationLedger (AddressAllocationBook B) Bool PublicAddress Unit (WalletBackup B) where
  state := state
  setState book state := { book with state }
  format := format
  checkOwner _ _ := .ok ()
  exposure _ book := exposure book.scope book.account
  imported _ backup book := do
    let incoming ← fromBackup backup book.scope book.account
    .ok incoming.state.next
  reread _ book := fromState book.exportState book.scope book.account

abbrev Update (B : Backend) (α : Type) := Method StorageError (AddressAllocationBook B) α

def reserve (id : AllocationId) (change : Bool) (attempts : ℕ) : Update B Unit :=
  ledger.reserve id change attempts

def complete (id : AllocationId) (index : ℕ) : Update B PublicAddress := ledger.complete () id index

def abandon (id : AllocationId) : Update B Unit := ledger.abandon id

def mergeBackup (backup : WalletBackup B) : Update B ℕ := ledger.mergeBackup () backup

abbrev Action (B : Backend) := AllocationAction Bool Unit (WalletBackup B)

def next (book : AddressAllocationBook B) (action : Action B) : AddressAllocationBook B :=
  ledger.next book action

variable {book : AddressAllocationBook B}

def Valid (book : AddressAllocationBook B) : Prop :=
  book.state.Valid (exposure book.scope book.account) format

theorem branches_eta (f : Bool → ℕ) : branches (f false) (f true) = f := by
  funext b
  cases b <;> rfl

theorem new_eq_ok
    {receive change : ℕ} : new scope account receive change = .ok book ↔
      (book.scope = scope ∧ book.account = account) ∧ (receive ≤ hardened ∧ change ≤ hardened) ∧
        book.state = .start (branches receive change) := by
  obtain ⟨scope', account', state, hscope⟩ := book
  unfold new
  split
  · rw [ite_error_eq_ok, not_or, not_lt, not_lt, Except.ok.injEq, mk.injEq]
    constructor
    · rintro ⟨hbound, rfl, rfl, rfl⟩
      exact ⟨⟨rfl, rfl⟩, hbound, rfl⟩
    · rintro ⟨⟨rfl, rfl⟩, hbound, rfl⟩
      exact ⟨hbound, rfl, rfl, rfl⟩
  · rename_i hbad
    constructor
    · exact nofun
    · rintro ⟨⟨rfl, rfl⟩, -⟩
      exact (hbad hscope).elim

theorem readState_reads (scope : NetworkScope) (account : AccountPublic B.toHdCrypto)
    (sealedHistory : Bool) :
    Reads (readState scope account sealedHistory)
      (fun book => ((book.scope = scope ∧ book.account = account) ∧
        book.state.Recorded (exposure scope account) format) ∧
        book.state.sealedHistory = sealedHistory)
      fun book => toBytes 4 (book.state.floor false) ++ (toBytes 4 (book.state.floor true) ++
          (toBytes 4 (book.state.next false) ++ (toBytes 4 (book.state.next true) ++
              recordsBytes childIndex format book.state.allocations))) := by
  have hsmall : ∀ n, n ≤ hardened → n < 256 ^ 4 := fun n hn => lt_of_le_of_lt hn (by decide)
  refine (Reads.bind (fun book : AddressAllocationBook B => book.state.floor false)
    (Reads.number _ 4) (fun receive _ =>
    Reads.bind (fun book : AddressAllocationBook B => book.state.floor true) (Reads.number _ 4)
      (fun change _ =>
    Reads.bind (fun book : AddressAllocationBook B =>
      { book with state := .start book.state.floor }) (Reads.lift _) (fun start hstart =>
    Reads.bind (fun book : AddressAllocationBook B => book.state.next false) (Reads.number _ 4)
      (fun nextReceive _ =>
    Reads.bind (fun book : AddressAllocationBook B => book.state.next true) (Reads.number _ 4)
      (fun nextChange _ => .guard fun _ =>
    Reads.map (fun book : AddressAllocationBook B => book.state.allocations)
      (readRecords_reads (exposure scope account) format) fun _ _ => rfl)
    ?_) ?_) ?_) ?_) ?_).congr ?_ ?_
  · rintro nextChange book - ⟨-, -, hbook⟩
    rw [← hbook]
    rfl
  · rintro nextReceive book - ⟨-, -, -, hbook⟩
    rw [← hbook]
    rfl
  · rintro start book hstart ⟨-, -, -, -, hbook⟩
    obtain ⟨-, -, hstate⟩ := new_eq_ok.mp hstart
    rw [← hbook]
    obtain ⟨scope', account', state, hscope⟩ := start
    cases hstate
    rfl
  · rintro change book - ⟨hnew, -⟩
    obtain ⟨-, -, hstate⟩ := new_eq_ok.mp hnew
    exact congrArg (fun s => s.floor true) hstate
  · rintro receive book - ⟨-, hnew, -⟩
    obtain ⟨-, -, hstate⟩ := new_eq_ok.mp hnew
    exact congrArg (fun s => s.floor false) hstate
  · intro book
    constructor
    · rintro ⟨-, -, hnew, -, -, hnext, hrecords, hbook⟩
      obtain ⟨⟨hscope, haccount⟩, hfloor, -⟩ := new_eq_ok.mp hnew
      rw [not_or, not_lt, not_lt] at hnext
      refine ⟨⟨⟨hscope, haccount⟩, ?_⟩, ?_⟩
      · exact ⟨Bool.forall_bool.mpr hfloor, Bool.forall_bool.mpr hnext, hrecords.1, hrecords.2⟩
      · rw [← hbook]
    · rintro ⟨⟨⟨rfl, rfl⟩, hrecorded⟩, rfl⟩
      have hstart : new book.scope book.account (book.state.floor false) (book.state.floor true) =
          .ok { book with state := .start book.state.floor } :=
        new_eq_ok.mpr ⟨⟨rfl, rfl⟩, ⟨hrecorded.floor_le _, hrecorded.floor_le _⟩, by
          rw [branches_eta]⟩
      refine ⟨hsmall _ (hrecorded.floor_le _), hsmall _ (hrecorded.floor_le _), hstart,
        hsmall _ (hrecorded.next_le _), hsmall _ (hrecorded.next_le _), ?_,
        ⟨hrecorded.count, hrecorded.records⟩, ?_⟩
      · rw [not_or, not_lt, not_lt]
        exact ⟨hrecorded.next_le _, hrecorded.next_le _⟩
      · rw [branches_eta]
        rfl
  · rintro book -
    rfl

theorem readBook_reads (scope : NetworkScope) (account : AccountPublic B.toHdCrypto) :
    Reads (readBook scope account)
      (fun book => (book.scope = scope ∧ book.account = account) ∧
        book.state.Recorded (exposure scope account) format) exportState := by
  refine (readHeader_reads (by decide) scope.length_key (accountIdentity account).size
    (readState_reads scope account)).congr (fun _ => .rfl) ?_
  rintro book ⟨⟨rfl, rfl⟩, -⟩
  rfl

theorem fromState_eq_ok {b : Bytes} : fromState b scope account = .ok book ↔
    (book.scope = scope ∧ book.account = account) ∧ b = book.exportState ∧ book.Valid := by
  refine (import_eq_ok (X := fun _ => exposure scope account) (readBook_reads scope account)
    fun book hvalid => ?_).trans (and_congr_right ?_)
  · exact length_journalBytes rfl book.scope.length_key (Hash32.size _) hvalid.count rfl rfl
  · rintro ⟨rfl, rfl⟩
    rfl

theorem new_valid
    {receive change : ℕ} (h : new scope account receive change = .ok book) : book.Valid := by
  obtain ⟨-, ⟨hreceive, hchange⟩, hstate⟩ := new_eq_ok.mp h
  rw [Valid, hstate]
  exact AllocationBook.Valid.start (Bool.forall_bool.mpr ⟨hreceive, hchange⟩)

theorem fromBackup_valid {backup : WalletBackup B} (h : fromBackup backup scope account = .ok book) :
    book.Valid := by
  simp only [fromBackup, eq_ok] at h
  obtain ⟨_, -, -, _, -, _, -, hnew⟩ := h
  exact new_valid hnew

inductive Started : AddressAllocationBook B → Prop where
  | new {scope account receive change book} (h : new scope account receive change = .ok book) :
      Started book
  | fromBackup {backup scope account book} (h : fromBackup backup scope account = .ok book) :
      Started book
  | fromState {bytes scope account book} (h : fromState bytes scope account = .ok book) :
      Started book

theorem Started.valid (h : Started book) : book.Valid := by
  cases h with
  | new h => exact new_valid h
  | fromBackup h => exact fromBackup_valid h
  | fromState h => exact (fromState_eq_ok.mp h).2.2

theorem ledger_lawful : (ledger (B := B)).Lawful where
  state_set _ _ := rfl
  set_state _ := rfl
  checkOwner_set _ _ _ := rfl
  exposure_set _ _ _ := rfl
  agree _ _ _ _ _ := rfl
  imported_le := by
    intro _ backup book next h
    obtain ⟨incoming, hincoming, h⟩ := bind_eq_ok.mp h
    cases h
    exact (fromBackup_valid hincoming).next_le
  reread_held _ _ h := fromState_eq_ok.mpr ⟨⟨rfl, rfl⟩, rfl, h.valid⟩

end AddressAllocationBook

end QuaiSdk.Books
