import QuaiSdk.Books.AddressAllocation
import QuaiSdk.Storage.Freshness

/-!
# Payment allocation books

`payment_allocation.rs`: the journal of one payment channel in one direction and zone.  The book holds
public codes only; every completion and import is checked against the private owner.
-/

namespace QuaiSdk.Books

open Result Wallet Storage AddressAllocationBook BigEndian AllocationBook
open Reader (Reads)

variable {B : Backend}

structure PaymentAllocationBook where
  scope : NetworkScope
  localCode : Bytes
  peer : Bytes
  account : ℕ
  direction : PaymentDirection
  state : AllocationBook Unit PaymentAddressRecord
  scope_ok : scope.chainId ≠ U256.ofNat 0 ∧ scope.genesis ≠ Hash32.zero

namespace PaymentAllocationBook

/-- `channel_identity`, the `identity` of a book. -/
def channelIdentity (B : Backend) (localCode : Bytes) (account : ℕ) (peer : Bytes)
    (direction : PaymentDirection) : Hash32 :=
  B.keccak256 ("quai-rust/payment-allocation/v1".toUTF8.data.toList ++ localCode ++
    toBytes 4 account ++ peer ++ [if direction = .send then 0 else 1])

def new (scope : NetworkScope) (owner : B.PrivateCode) (peer : Bytes)
    (direction : PaymentDirection) (firstIndex : ℕ) : Except StorageError PaymentAllocationBook :=
  if hscope : scope.chainId ≠ U256.ofNat 0 ∧ scope.genesis ≠ Hash32.zero then
    if hardened < firstIndex then .error .invalid
    else .ok ⟨scope, B.publicCode owner, peer, B.codeAccount owner, direction,
      .start fun _ => firstIndex, hscope⟩
  else .error .invalid

def fromChannel (scope : NetworkScope) (owner : B.PrivateCode) (channel : PaymentChannel)
    (direction : PaymentDirection) : Except StorageError PaymentAllocationBook :=
  if channel.localCode ≠ B.publicCode owner ∨ channel.account ≠ B.codeAccount owner then
    .error .invalid
  else new scope owner channel.peerCode direction
    ((channel.nextIndex direction scope.zone).getD hardened)

def fromBackup (backup : WalletBackup B) (scope : NetworkScope) (owner : B.PrivateCode)
    (peer : Bytes) (direction : PaymentDirection) : Except StorageError PaymentAllocationBook := do
  let stored ← okOr (backup.state.channels.find? fun c =>
    c.network = scope.network ∧ c.localCode = B.publicCode owner ∧ c.peerCode = peer ∧
      c.account = B.codeAccount owner) StorageError.invalid
  let channel ← (stored.checked owner).mapError fun _ => StorageError.invalid
  fromChannel scope owner channel direction

def checkOwner (book : PaymentAllocationBook) (owner : B.PrivateCode) : Except StorageError Unit :=
  if book.localCode ≠ B.publicCode owner ∨ book.account ≠ B.codeAccount owner then .error .invalid
  else .ok ()

def childKey (book : PaymentAllocationBook) (owner : B.PrivateCode) (index : ℕ) :
    Option B.PublicKey :=
  match book.direction with
  | .send => B.sendPublicKey owner book.peer index
  | .receive => B.receivePublicKey owner book.peer index

def expose (book : PaymentAllocationBook) (owner : B.PrivateCode) (range : IndexRange)
    (index : ℕ) : Except StorageError PaymentAddressRecord := do
  book.checkOwner owner
  if index < range.start ∨ range.stop ≤ index then .error .invalid
  else do
    let key ← okOr (book.childKey owner index) StorageError.invalid
    let address ← (LedgerAddress.tryFrom .qi (B.address key)).mapError fun _ => StorageError.invalid
    if address.zone ≠ book.scope.zone then .error .invalid
    else
      .ok
        { direction := book.direction, zone := book.scope.zone, index, address
          publicKey := B.toCompressed key, burned := range }

def childIndex (record : PaymentAddressRecord) : Option ℕ := some record.index

theorem childIndex_of_expose {book : PaymentAllocationBook} {owner : B.PrivateCode} {range : IndexRange}
    {index : ℕ} {record : PaymentAddressRecord} (h : book.expose owner range index = .ok record) :
    childIndex record = some index := by
  simp only [expose, eq_ok] at h
  obtain ⟨_, -, -, _, -, _, -, -, rfl⟩ := h
  rfl

def exposure (book : PaymentAllocationBook) (owner : B.PrivateCode) :
    Exposure Unit PaymentAddressRecord where
  expose _ range index := book.expose owner range index
  index := childIndex
  address record := record.address.address
  index_expose := childIndex_of_expose

/-- `MAX_PAYMENT_ALLOCATIONS` on a single branch. -/
def format : Format Unit where
  limit := 1024
  branches := [()]
  branchBytes _ := []
  branchWidth := 0
  readBranch := pure ()
  limit_lt := by decide
  mem_branches := by decide
  length_branchBytes := fun _ => rfl
  reads_branch := (Reads.pure ()).congr (fun _ => ⟨fun _ => trivial, fun _ => rfl⟩) fun _ _ => rfl

/-- `QPAYABK1`, or `QPAYABK2` with sealed history. -/
def magic (sealedHistory : Bool) : Bytes :=
  [0x51, 0x50, 0x41, 0x59, 0x41, 0x42, 0x4B, if sealedHistory = true then 0x32 else 0x31]

def exportState (B : Backend) (book : PaymentAllocationBook) : Bytes :=
  journalBytes (magic book.state.sealedHistory) book.scope.key
    (channelIdentity B book.localCode book.account book.peer book.direction).bytes
    [book.state.floor (), book.state.next ()] (recordsBytes childIndex format book.state.allocations)

def maxBytes : ℕ := 115 + 29 * format.limit

def readState (scope : NetworkScope) (owner : B.PrivateCode) (peer : Bytes)
    (direction : PaymentDirection) (sealedHistory : Bool) :
    Reader StorageError PaymentAllocationBook := do
  let first ← Reader.number .invalid 4
  let book ← Reader.lift (new scope owner peer direction first)
  let expected ← Reader.number .invalid 4
  if hardened < expected then Reader.fail .invalid
  else do
    let allocations ← readRecords (book.exposure owner) format
    pure { book with
      state := { book.state with sealedHistory, next := fun _ => expected, allocations } }

def readBook (scope : NetworkScope) (owner : B.PrivateCode) (peer : Bytes)
    (direction : PaymentDirection) : Reader StorageError PaymentAllocationBook :=
  readHeader magic scope.key
    (channelIdentity B (B.publicCode owner) (B.codeAccount owner) peer direction).bytes
    (readState scope owner peer direction)

def fromState (bytes : Bytes) (scope : NetworkScope) (owner : B.PrivateCode) (peer : Bytes)
    (direction : PaymentDirection) : Except StorageError PaymentAllocationBook :=
  if bytes.length < 115 ∨ maxBytes < bytes.length then .error .invalid
  else do
    let (book, rest) ← readBook scope owner peer direction bytes
    if rest ≠ [] then .error .invalid
    else do
      checkRecords (book.exposure owner) format book.state
      .ok book

def ledger (B : Backend) : AllocationLedger PaymentAllocationBook Unit PaymentAddressRecord
    B.PrivateCode (WalletBackup B) where
  state := state
  setState book state := { book with state }
  format := format
  checkOwner owner book := book.checkOwner owner
  exposure owner book := book.exposure owner
  imported owner backup book := do
    let incoming ← fromBackup backup book.scope owner book.peer book.direction
    .ok incoming.state.next
  reread owner book := fromState (book.exportState B) book.scope owner book.peer book.direction

abbrev Update (α : Type) := Method StorageError PaymentAllocationBook α

def reserve (B : Backend) (id : AllocationId) (attempts : ℕ) : Update Unit :=
  (ledger B).reserve id () attempts

def complete (owner : B.PrivateCode) (id : AllocationId) (index : ℕ) : Update PaymentAddressRecord :=
  (ledger B).complete owner id index

def abandon (B : Backend) (id : AllocationId) : Update Unit := (ledger B).abandon id

def mergeBackup (owner : B.PrivateCode) (backup : WalletBackup B) : Update ℕ :=
  (ledger B).mergeBackup owner backup

abbrev Action (B : Backend) := AllocationAction Unit B.PrivateCode (WalletBackup B)

def next (book : PaymentAllocationBook) (action : Action B) : PaymentAllocationBook :=
  (ledger B).next book action

variable {book : PaymentAllocationBook} {owner : B.PrivateCode} {scope : NetworkScope} {peer : Bytes}
  {direction : PaymentDirection}

structure Opens (owner : B.PrivateCode) (scope : NetworkScope) (peer : Bytes)
    (direction : PaymentDirection) (book : PaymentAllocationBook) : Prop where
  scope : book.scope = scope
  localCode : book.localCode = B.publicCode owner
  account : book.account = B.codeAccount owner
  peer : book.peer = peer
  direction : book.direction = direction

def Valid (owner : B.PrivateCode) (book : PaymentAllocationBook) : Prop :=
  book.state.Valid (book.exposure owner) format

theorem new_eq_ok {first : ℕ} : new scope owner peer direction first = .ok book ↔
    Opens owner scope peer direction book ∧ first ≤ hardened ∧ book.state = .start fun _ => first := by
  obtain ⟨scope', localCode, peer', account, direction', state, hscope⟩ := book
  unfold new
  split
  · rw [ite_error_eq_ok, not_lt, Except.ok.injEq, mk.injEq]
    constructor
    · rintro ⟨hbound, rfl, rfl, rfl, rfl, rfl, rfl⟩
      exact ⟨⟨rfl, rfl, rfl, rfl, rfl⟩, hbound, rfl⟩
    · rintro ⟨⟨rfl, rfl, rfl, rfl, rfl⟩, hbound, rfl⟩
      exact ⟨hbound, rfl, rfl, rfl, rfl, rfl, rfl⟩
  · rename_i hbad
    constructor
    · exact nofun
    · rintro ⟨⟨rfl, rfl, rfl, rfl, rfl⟩, -⟩
      exact (hbad hscope).elim

theorem readState_reads (scope : NetworkScope) (owner : B.PrivateCode) (peer : Bytes)
    (direction : PaymentDirection) (sealedHistory : Bool) :
    Reads (readState scope owner peer direction sealedHistory)
      (fun book => (Opens owner scope peer direction book ∧
        book.state.Recorded (book.exposure owner) format) ∧
        book.state.sealedHistory = sealedHistory)
      fun book => toBytes 4 (book.state.floor ()) ++ (toBytes 4 (book.state.next ()) ++
          recordsBytes childIndex format book.state.allocations) := by
  have hsmall : ∀ n, n ≤ hardened → n < 256 ^ 4 := fun n hn => lt_of_le_of_lt hn (by decide)
  refine (Reads.bind (fun book : PaymentAllocationBook => book.state.floor ()) (Reads.number _ 4)
    (fun first _ =>
    Reads.bind (fun book : PaymentAllocationBook => { book with state := .start book.state.floor })
      (Reads.lift _) (fun start _ =>
    Reads.bind (fun book : PaymentAllocationBook => book.state.next ()) (Reads.number _ 4)
      (fun expected _ => .guard fun _ =>
    Reads.map (fun book : PaymentAllocationBook => book.state.allocations)
      (readRecords_reads (start.exposure owner) format) fun _ _ => rfl)
    ?_) ?_) ?_).congr ?_ ?_
  · rintro expected book - ⟨-, -, hbook⟩
    rw [← hbook]
  · rintro start book hstart ⟨-, -, -, hbook⟩
    obtain ⟨-, -, hstate⟩ := new_eq_ok.mp hstart
    rw [← hbook]
    obtain ⟨scope', localCode, peer', account, direction', state, hscope⟩ := start
    cases hstate
    rfl
  · rintro first book - ⟨hnew, -⟩
    obtain ⟨-, -, hstate⟩ := new_eq_ok.mp hnew
    exact congrArg (fun s => s.floor ()) hstate
  · intro book
    constructor
    · rintro ⟨-, hnew, -, hnext, hrecords, hbook⟩
      obtain ⟨hopens, hfloor, -⟩ := new_eq_ok.mp hnew
      refine ⟨⟨⟨hopens.scope, hopens.localCode, hopens.account, hopens.peer, hopens.direction⟩,
        fun _ => hfloor, fun _ => not_lt.mp hnext, hrecords.1, hrecords.2⟩, ?_⟩
      rw [← hbook]
    · rintro ⟨⟨hopens, hrecorded⟩, rfl⟩
      have hstart : new scope owner peer direction (book.state.floor ()) =
          .ok { book with state := .start book.state.floor } :=
        new_eq_ok.mpr ⟨⟨hopens.scope, hopens.localCode, hopens.account, hopens.peer,
          hopens.direction⟩, hrecorded.floor_le _, rfl⟩
      exact ⟨hsmall _ (hrecorded.floor_le _), hstart, hsmall _ (hrecorded.next_le _),
        not_lt.mpr (hrecorded.next_le _), ⟨hrecorded.count, hrecorded.records⟩, rfl⟩
  · rintro book -
    rfl

theorem readBook_reads (scope : NetworkScope) (owner : B.PrivateCode) (peer : Bytes)
    (direction : PaymentDirection) :
    Reads (readBook scope owner peer direction)
      (fun book => Opens owner scope peer direction book ∧
        book.state.Recorded (book.exposure owner) format) (exportState B) := by
  refine (readHeader_reads (by decide) scope.length_key (Hash32.size _)
    (readState_reads scope owner peer direction)).congr (fun _ => .rfl) ?_
  rintro book ⟨hopens, -⟩
  rw [← hopens.scope, ← hopens.localCode, ← hopens.account, ← hopens.peer, ← hopens.direction]
  rfl

theorem fromState_eq_ok {b : Bytes} : fromState b scope owner peer direction = .ok book ↔
    Opens owner scope peer direction book ∧ b = book.exportState B ∧ book.Valid owner :=
  import_eq_ok (readBook_reads scope owner peer direction) fun book hvalid =>
    length_journalBytes rfl book.scope.length_key (Hash32.size _) hvalid.count rfl rfl

/-- The private key behind a public code is determined by it, so two owners with one public code and
account derive the same children. -/
def OwnersAgree (B : Backend) : Prop :=
  ∀ owner owner' : B.PrivateCode, B.publicCode owner = B.publicCode owner' →
    B.codeAccount owner = B.codeAccount owner' →
    B.sendPublicKey owner = B.sendPublicKey owner' ∧
      B.receivePublicKey owner = B.receivePublicKey owner'

variable {u : Unit} {book' : PaymentAllocationBook} {id : AllocationId}
  {a : Allocation Unit PaymentAddressRecord}

theorem checkOwner_eq_ok : book.checkOwner owner = .ok u ↔
    book.localCode = B.publicCode owner ∧ book.account = B.codeAccount owner := by
  rw [checkOwner, ite_error_eq_ok, not_or, not_not, not_not]
  exact and_iff_left rfl

/-- What a book exposes does not depend on which of its owners is asked. -/
theorem exposure_eq (hagree : OwnersAgree B) {owner' : B.PrivateCode} {u' : Unit}
    (h : book.checkOwner owner = .ok u) (h' : book.checkOwner owner' = .ok u') :
    book.exposure owner = book.exposure owner' := by
  obtain ⟨hcode, haccount⟩ := checkOwner_eq_ok.mp h
  obtain ⟨hcode', haccount'⟩ := checkOwner_eq_ok.mp h'
  obtain ⟨hsend, hreceive⟩ := hagree owner owner' (hcode.symm.trans hcode')
    (haccount.symm.trans haccount')
  have hexpose : book.expose owner = book.expose owner' := by
    funext range index
    have hkey : book.childKey owner index = book.childKey owner' index := by
      unfold childKey
      rw [hsend, hreceive]
    unfold expose
    rw [h, h', hkey]
  unfold exposure
  simp only [hexpose]

theorem Opens.checkOwner (h : Opens owner scope peer direction book) :
    book.checkOwner owner = .ok () :=
  checkOwner_eq_ok.mpr ⟨h.localCode, h.account⟩

abbrev Held (owner : B.PrivateCode) (book : PaymentAllocationBook) : Prop :=
  (ledger B).Held owner book

theorem new_held {first : ℕ} (h : new scope owner peer direction first = .ok book) :
    book.Held owner := by
  obtain ⟨hopens, hfirst, hstate⟩ := new_eq_ok.mp h
  refine ⟨hopens.checkOwner, ?_⟩
  show book.state.Valid _ format
  rw [hstate]
  exact .start fun _ => hfirst

theorem fromChannel_held {channel : PaymentChannel}
    (h : fromChannel scope owner channel direction = .ok book) : book.Held owner := by
  rw [fromChannel, ite_error_eq_ok] at h
  exact new_held h.2

theorem fromBackup_held {backup : WalletBackup B}
    (h : fromBackup backup scope owner peer direction = .ok book) : book.Held owner := by
  simp only [fromBackup, bind_eq_ok] at h
  obtain ⟨stored, -, channel, -, h⟩ := h
  exact fromChannel_held h

inductive Started (owner : B.PrivateCode) : PaymentAllocationBook → Prop where
  | new {scope peer direction first book} (h : new scope owner peer direction first = .ok book) :
      Started owner book
  | fromChannel {scope channel direction book}
      (h : fromChannel scope owner channel direction = .ok book) : Started owner book
  | fromBackup {backup scope peer direction book}
      (h : fromBackup backup scope owner peer direction = .ok book) : Started owner book
  | fromState {bytes scope peer direction book}
      (h : fromState bytes scope owner peer direction = .ok book) : Started owner book

theorem Started.held (h : Started owner book) : book.Held owner := by
  cases h with
  | new h => exact new_held h
  | fromChannel h => exact fromChannel_held h
  | fromBackup h => exact fromBackup_held h
  | fromState h =>
    obtain ⟨hopens, -, hvalid⟩ := fromState_eq_ok.mp h
    exact ⟨hopens.checkOwner, hvalid⟩

theorem ledger_lawful (hagree : OwnersAgree B) : (ledger B).Lawful where
  state_set _ _ := rfl
  set_state _ := rfl
  checkOwner_set _ _ _ := rfl
  exposure_set _ _ _ := rfl
  agree _ _ _ h h' := exposure_eq hagree h h'
  imported_le := by
    intro _ backup book next h
    obtain ⟨incoming, hincoming, h⟩ := bind_eq_ok.mp h
    cases h
    exact (fromBackup_held hincoming).valid.next_le
  reread_held _ _ h :=
    have hopens := checkOwner_eq_ok.mp h.checked
    fromState_eq_ok.mpr ⟨⟨rfl, hopens.1, hopens.2, rfl, rfl⟩, rfl, h.valid⟩

end PaymentAllocationBook

/-- In every run of either book, ranges stay apart below cursors that never fall, every ID stays with
its range and its outcome, and no address is exposed twice; an ID cannot be reserved again; the journal
reads back as the book; and after a merge nothing that was open can complete. -/
theorem allocation_journals_kept (hagree : PaymentAllocationBook.OwnersAgree B) :
    (∀ (book : AddressAllocationBook B) (before after : List (AddressAllocationBook.Action B)),
      book.Started →
      let early := Run.run next book before
      let late := Run.run next early after
      AllocationBook.RunKept (exposure late.scope late.account) early.state
        late.state ∧
      (∀ id a, early.state.allocations.get? id = some a → ∀ change attempts,
        reserve id change attempts late = (.error .conflict, late)) ∧
      fromState late.exportState late.scope late.account = .ok late ∧
      ∀ backup n merged, mergeBackup backup early = (.ok n, merged) →
        ∀ id a, early.state.allocations.get? id = some a → (∀ x, a.status ≠ .completed x) →
        let later := Run.run next merged after
        (∃ b, later.state.allocations.get? id = some b ∧ b.status = .abandoned) ∧
          ∀ index, complete id index later = (.error .transition, later)) ∧
    ∀ (owner : B.PrivateCode) (book : PaymentAllocationBook)
      (before after : List (PaymentAllocationBook.Action B)),
      PaymentAllocationBook.Started owner book →
      let early := Run.run PaymentAllocationBook.next book before
      let late := Run.run PaymentAllocationBook.next early after
      AllocationBook.RunKept (late.exposure owner) early.state late.state ∧
      (∀ id a, early.state.allocations.get? id = some a → ∀ attempts,
        PaymentAllocationBook.reserve B id attempts late = (.error .conflict, late)) ∧
      PaymentAllocationBook.fromState (late.exportState B) late.scope owner late.peer late.direction =
        .ok late ∧
      ∀ (owner' : B.PrivateCode) backup n merged,
        PaymentAllocationBook.mergeBackup owner' backup early = (.ok n, merged) →
        ∀ id a, early.state.allocations.get? id = some a → (∀ x, a.status ≠ .completed x) →
        let later := Run.run PaymentAllocationBook.next merged after
        (∃ b, later.state.allocations.get? id = some b ∧ b.status = .abandoned) ∧
          ∀ (owner'' : B.PrivateCode) index,
            ∃ e, PaymentAllocationBook.complete owner'' id index later = (.error e, later) := by
  constructor
  · intro book before after hstarted early late
    have hL := AddressAllocationBook.ledger_lawful (B := B)
    have hheld : AddressAllocationBook.ledger.Held () book := ⟨rfl, hstarted.valid⟩
    obtain ⟨hearly, -⟩ := hL.run_grows hheld before
    obtain ⟨hkept, hreserve, hreread, hmerges⟩ := hL.run_kept hearly after
    refine ⟨hkept, hreserve, hreread, ?_⟩
    intro backup n merged hmerge id a ha hopen later
    obtain ⟨hstatus, hcomplete⟩ := hmerges () backup n merged hmerge id a ha hopen
    refine ⟨hstatus, fun index => ?_⟩
    obtain ⟨e, he, htransition⟩ := hcomplete () index
    rw [← htransition rfl]
    exact he
  · intro owner book before after hstarted early late
    have hL := PaymentAllocationBook.ledger_lawful hagree
    obtain ⟨hearly, -⟩ := hL.run_grows hstarted.held before
    obtain ⟨hkept, hreserve, hreread, hmerges⟩ := hL.run_kept hearly after
    refine ⟨hkept, fun id a ha => hreserve id a ha (), hreread, ?_⟩
    intro owner' backup n merged hmerge id a ha hopen later
    obtain ⟨hstatus, hcomplete⟩ := hmerges owner' backup n merged hmerge id a ha hopen
    refine ⟨hstatus, fun owner'' index => ?_⟩
    obtain ⟨e, he, -⟩ := hcomplete owner'' index
    exact ⟨e, he⟩

def payerCode : Bytes := toBytes 80
  0x0100029e2fe3ec971cf52a3ece4b54557b0e186c2303b67d5c9ea0f23e88fec8dec02ee59223806e5cd0e474993ed5a4a3a1d8f8e307f0c1d8d67f094ae643ea07522a00000000000000000000000000

def payeeCode : Bytes := toBytes 80
  0x010003c457f595251464acb4d07691315b28d3217e6e3fef8242761dcd0be8e2b1fea7e7d94175ee7a5fdeed2aa4b410bc7f2df69d8138858b82e8a7aa466190a5b0db00000000000000000000000000

def payeeKey : Bytes :=
  toBytes 33 0x038e4d72dcfb55a0593640347ca77f4aec18ef9d283dc7a4a01a0f59f0396a4981

def payeeAddress : Address := Address.ofNat 0x00a8048ddfe8c743a1238da584a19e4a530412c8

/-- The channel of the two codes with 10000 sends in `cyprus1`. -/
def payeeChannel : PaymentChannel :=
  ⟨payerCode, payeeCode, 0, Function.update (fun _ => some 0) .cyprus1 (some 10000), fun _ => some 0⟩

/-- What `to_json` writes of the channel. -/
def payeeMetadata : Bytes :=
  ("\x7b\"schemaVersion\":1,\"scheme\":\"bip47-quai-969-v1\",\"account\":0," ++
    "\"localPaymentCode\":\"PM8TJS5RQveZmseNb2QEKLqzVpAFK32qgzes9MufVNRGYcX6YDgBM23huWbg9rAQ35j8fv" ++
    "PKSKSzr1QkXnN4uuKQwDtAAEsZ2iMQyuS1NNY7MbLaKtBT\"," ++
    "\"counterpartyPaymentCode\":\"PM8TJgE1S9THXwYJp7VGhttQgjpr2xnSRUxSKaVVLXd4m4G49w2FFtoyFmnBHp5U" ++
    "jzFF9kPB8si5tw6tPDJCtQ6SVH6YWZRmFTP1uRMBB2JNGCXUodLY\"," ++
    "\"sendNext\":[10000,0,0,0,0,0,0,0,0],\"receiveNext\":[0,0,0,0,0,0,0,0,0]\x7d").toUTF8.data.toList

/-- One seed with the account of the change child and a payment code, and the digests that name their
books. -/
def journalKeeper : Backend :=
  { Backend.ofHd (KnownKeys.hd
      ⟨[(System.changeXpub, 0)], [((System.changeXpub, true, 0), System.changeKey)]⟩
      { addresses := [(System.changeKey, System.changeAddress), (payeeKey, payeeAddress)]
        digests :=
          [("quai-rust/address-allocation/v1".toUTF8.data.toList ++ toBytes 4 969 ++
              toBytes 4 0 ++ System.changeXpub.toUTF8.data.toList,
            Hash32.ofNat 0x23570020317545608f804f4fbb13fe582e532c994ce4144a6c9a47174b772d70),
          ("quai-rust/payment-allocation/v1".toUTF8.data.toList ++ payerCode ++
              toBytes 4 0 ++ payeeCode ++ [0],
            Hash32.ofNat 0xd1fd043539d59295cd34fdfb4c5c263a30bd6351cefb9acc5253e80eba904b9f)]
        schnorr := []
        recoveries := [] }) with
    PrivateCode := Unit
    publicCode := fun _ => payerCode
    codeAccount := fun _ => 0
    sendPublicKey := fun _ peer index =>
      if peer = payeeCode ∧ index = 827 then some ⟨payeeKey, by decide⟩ else none
    receivePublicKey := fun _ _ _ => none
    channelFromJson := fun bytes => if bytes = payeeMetadata then some payeeChannel else none
    Origin := Unit
    originKind := fun _ => .hd
    accountPublic := fun _ coin account =>
      if coin = .qi ∧ account = 0 then some System.changeAccount else none
    importedKey := fun _ => none
    paymentCode := fun _ account => if account = 0 then some () else none }

/-- The seed's backup: six change children and the sends of the channel. -/
def keeperBackup : WalletBackup journalKeeper where
  origins := [()]
  state :=
    { scopes :=
        [{ scope := sampleScope
           addresses := [System.changeChild]
           derivation := [⟨.qi, 0, true, System.changeXpub, 6⟩]
           nonces := []
           operations := [] }]
      channels := [⟨sampleScope.network, payerCode, payeeCode, 0, 1, payeeMetadata⟩]
      exposures := [] }

def firstRequest : AllocationId := ⟨toBytes 16 1, by decide⟩

def secondRequest : AllocationId := ⟨toBytes 16 2, by decide⟩

/-- One request completes and another stays open. -/
def requests {ι ω : Type} (branch : ι) (owner : ω) (attempts index : ℕ) :
    List (AllocationAction ι ω (WalletBackup journalKeeper)) :=
  [.reserve firstRequest branch attempts, .complete owner firstRequest index,
    .reserve secondRequest branch 3]

def changeRequests : List (AddressAllocationBook.Action journalKeeper) := requests true () 1 0

def paymentRequests : List (PaymentAllocationBook.Action journalKeeper) := requests () () 1000 827

def changeBook : AddressAllocationBook journalKeeper :=
  ⟨sampleScope, System.changeAccount, .start (branches 0 0), by decide +kernel⟩

def changeEarly : AddressAllocationBook journalKeeper :=
  Run.run next changeBook changeRequests

def changeLate : AddressAllocationBook journalKeeper :=
  Run.run next changeEarly [.mergeBackup () keeperBackup, .reload ()]

def paymentBook : PaymentAllocationBook :=
  ⟨sampleScope, payerCode, payeeCode, 0, .send, .start fun _ => 0, by decide +kernel⟩

def paymentEarly : PaymentAllocationBook :=
  Run.run (PaymentAllocationBook.next (B := journalKeeper)) paymentBook paymentRequests

def paymentLate : PaymentAllocationBook :=
  Run.run (PaymentAllocationBook.next (B := journalKeeper)) paymentEarly
    [.mergeBackup () keeperBackup, .reload ()]

/-- In both books a request completes, a backup is merged while another is open, and the book is read
back: the first keeps its address, the second cannot complete, and the cursor is the backup's. -/
theorem allocation_journals_kept_completed :
    (AllocationBook.RunKept (exposure changeLate.scope changeLate.account) changeEarly.state
        changeLate.state ∧
      (changeLate.state.allocations.get? firstRequest).map Allocation.status =
        some (.completed System.changeChild) ∧
      changeLate.state.next true = 6 ∧
      complete secondRequest 1 changeLate = (.error .transition, changeLate)) ∧
    AllocationBook.RunKept (paymentLate.exposure (B := journalKeeper) ()) paymentEarly.state
      paymentLate.state ∧
    ((paymentLate.state.allocations.get? firstRequest).bind fun a => a.status.exposed?).map
      (fun record => (record.index, record.address.address)) = some (827, payeeAddress) ∧
    paymentLate.state.next () = 10000 ∧
    ∃ e, PaymentAllocationBook.complete (B := journalKeeper) () secondRequest 1001 paymentLate =
      (.error e, paymentLate) := by
  have hagree : PaymentAllocationBook.OwnersAgree journalKeeper := fun _ _ _ _ => ⟨rfl, rfl⟩
  obtain ⟨haddress, hpayment⟩ := allocation_journals_kept hagree
  constructor
  · have hnew : new sampleScope System.changeAccount 0 0 = .ok changeBook :=
      new_eq_ok.mpr ⟨⟨rfl, rfl⟩, by decide, rfl⟩
    have hmerge := Method.eq_ok_of_fst
      (show (mergeBackup keeperBackup changeEarly).1 = .ok 1 by decide +kernel)
    have hopen : (changeEarly.state.allocations.get? secondRequest).map Allocation.status =
        some .pending := by decide +kernel
    obtain ⟨a, ha, hstatus⟩ := Option.map_eq_some_iff.mp hopen
    obtain ⟨-, -, -, hmerges⟩ := haddress changeBook changeRequests [.reload ()] (.new hnew)
    obtain ⟨-, hcomplete⟩ := hmerges keeperBackup 1 _ hmerge secondRequest a ha (by simp [hstatus])
    obtain ⟨hkept, -⟩ := haddress changeBook changeRequests
      [.mergeBackup () keeperBackup, .reload ()] (.new hnew)
    have hlate : changeLate = Run.run next (mergeBackup keeperBackup changeEarly).2 [.reload ()] :=
      AllocationLedger.run_mergeBackup
    exact ⟨hkept, by decide +kernel, by decide +kernel, hlate ▸ hcomplete 1⟩
  · have hnew : PaymentAllocationBook.new (B := journalKeeper) sampleScope () payeeCode .send 0 =
        .ok paymentBook :=
      PaymentAllocationBook.new_eq_ok.mpr ⟨⟨rfl, rfl, rfl, rfl, rfl⟩, by decide, rfl⟩
    have hmerge := Method.eq_ok_of_fst
      (show (PaymentAllocationBook.mergeBackup () keeperBackup paymentEarly).1 = .ok 1
        by decide +kernel)
    have hopen : (paymentEarly.state.allocations.get? secondRequest).map Allocation.status =
        some .pending := by decide +kernel
    obtain ⟨a, ha, hstatus⟩ := Option.map_eq_some_iff.mp hopen
    obtain ⟨-, -, -, hmerges⟩ :=
      hpayment () paymentBook paymentRequests [.reload ()] (.new hnew)
    obtain ⟨-, hcomplete⟩ := hmerges () keeperBackup 1 _ hmerge secondRequest a ha
      (by simp [hstatus])
    obtain ⟨hkept, -⟩ := hpayment () paymentBook paymentRequests
      [.mergeBackup () keeperBackup, .reload ()] (.new hnew)
    have hlate : paymentLate = Run.run PaymentAllocationBook.next
        (PaymentAllocationBook.mergeBackup () keeperBackup paymentEarly).2 [.reload ()] :=
      AllocationLedger.run_mergeBackup
    exact ⟨hkept, by decide +kernel, by decide +kernel, hlate ▸ hcomplete () 1001⟩

end QuaiSdk.Books
