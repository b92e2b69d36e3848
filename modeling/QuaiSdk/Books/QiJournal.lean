import QuaiSdk.Books.AccountJournal
import QuaiSdk.Books.QiSafe

/-!
# Qi journals

`export_state` and `from_state` of a Qi book: the importer accepts exactly the exports of valid books
over well-formed metadata, and every reachable book can be exported.
-/

namespace QuaiSdk.Books

open List

open Result Wallet Storage AccountOperationBook BigEndian Writer.Call
open Reader (Reads)

variable {C : Crypto} {B : Backend}

namespace QiOperationBook

variable {book : QiOperationBook C}

def checkpointBytes (checkpoint : Option Block) : Bytes :=
  [flagByte checkpoint.isSome] ++ (checkpoint.map Block.bytes).getD []

def claimBytes (c : QiInputClaim) : Bytes :=
  (c.outpoint.transactionHash.bytes ++ toBytes 2 c.outpoint.index.toNat) ++ c.owner.bytes

def claimsBytes (claims : List QiInputClaim) : Bytes :=
  toBytes 2 claims.length ++ claims.flatMap claimBytes

def operationBytes (op : QiOperation) : Bytes :=
  op.id.bytes ++ ([op.state.byte] ++ (checkpointBytes op.reservationCheckpoint ++
    (claimsBytes op.claims ++ (hashBytes op.transaction ++ (includedBytes op.inclusion ++
      (payloadBytes op.payload ++ edgesBytes op.replacements))))))

def metadataBytes (a : PublicAddress) : Bytes :=
  toBytes 4 a.exportMetadata.length ++ a.exportMetadata

def journal (book : QiOperationBook C) : Bytes :=
  magic ++ (book.scope.key ++ (book.identity.bytes ++
    ((toBytes 2 book.addresses.records.length ++
      book.addresses.records.flatMap metadataBytes) ++
    (toBytes 2 book.operations.records.length ++
      book.operations.records.flatMap operationBytes))))

def Bounded (op : QiOperation) : Prop :=
  (∀ b ∈ op.payload, b.length ≤ maxTransactionBytes) ∧
    ∀ e ∈ op.replacements, e.payload.length ≤ maxTransactionBytes

theorem checkpointCalls_bytes (checkpoint : Option Block) :
    (checkpointCalls checkpoint).flatMap bytes = checkpointBytes checkpoint ∧
      ∀ c ∈ checkpointCalls checkpoint, c.Fits := by
  cases checkpoint <;> simp [checkpointCalls, checkpointBytes, Block.bytes, bytes, Writer.Call.Fits]

theorem claimCalls_bytes (claims : List QiInputClaim) :
    (claims.flatMap claimCalls).flatMap bytes = claims.flatMap claimBytes ∧
      ∀ c ∈ claims.flatMap claimCalls, c.Fits := by
  obtain ⟨hbytes, hfits⟩ := Writer.flatMap_bytes claimCalls claimBytes (fun _ => True)
    (fun c => by simp [claimCalls, claimBytes, bytes, Writer.Call.Fits]) claims
  exact ⟨hbytes, hfits.mpr fun _ _ => trivial⟩

theorem operationCalls_bytes (op : QiOperation) :
    (operationCalls op).flatMap bytes = operationBytes op ∧
      ((∀ c ∈ operationCalls op, c.Fits) ↔ Bounded op) := by
  obtain ⟨hcheckpoint, hfits⟩ := checkpointCalls_bytes op.reservationCheckpoint
  obtain ⟨hclaims, hfits'⟩ := claimCalls_bytes op.claims
  obtain ⟨htransaction, hfits''⟩ := transactionCalls_bytes op.transaction
  obtain ⟨hinclusion, hfits'''⟩ := inclusionCalls_bytes op.inclusion
  obtain ⟨hpayload, hbound⟩ := payloadCalls_bytes op.payload
  obtain ⟨hedges, hbound'⟩ := edgesCalls_bytes op.replacements
  constructor
  · simp only [operationCalls, flatMap_append, flatMap_cons, hcheckpoint, hclaims,
      htransaction, hinclusion, hpayload, hedges, operationBytes, claimsBytes, append_assoc]
    simp [bytes]
  · rw [Bounded, ← hbound, ← hbound']
    simp only [operationCalls, forall_mem_append, forall_mem_cons]
    constructor
    · rintro ⟨⟨-, hp⟩, he⟩
      exact ⟨hp, he⟩
    · rintro ⟨hp, he⟩
      exact ⟨⟨⟨⟨⟨⟨⟨trivial, trivial, forall_mem_nil _⟩, hfits⟩, trivial, hfits'⟩, hfits''⟩,
        hfits'''⟩, hp⟩, he⟩

variable {scope : NetworkScope} {b : Bytes} {identity : Hash32} {book' : QiOperationBook C}

theorem exportState_eq_ok : book.exportState = .ok b ↔
      ((∀ a ∈ book.addresses.records, a.exportMetadata.length ≤ maxTransactionBytes) ∧
        ∀ op ∈ book.operations.records, Bounded op) ∧
      b.length ≤ maxCustodyBytes ∧ b = book.journal := by
  obtain ⟨hbytes, hfits⟩ := Writer.flatMap_bytes _ _ _ operationCalls_bytes book.operations.records
  rw [exportState, Writer.write_eq_ok]
  apply and_congr
  · simp only [forall_mem_append, forall_mem_cons, forall_mem_map, hfits]
    simp [Writer.Call.Fits]
  · simp only [flatMap_append, flatMap_cons, flatMap_map, hbytes, journal, bytes, append_assoc,
      flatMap_nil, nil_append]
    rfl

theorem readOutPoint_reads : Reads readOutPoint (fun _ => True) fun o =>
    o.transactionHash.bytes ++ toBytes 2 o.index.toNat := by
  refine (Reads.bind OutPoint.transactionHash readHash_reads (fun hash _ =>
    Reads.map (fun o : OutPoint => o.index.toNat) (Reads.number _ 2) ?_) ?_).congr ?_ fun o _ => rfl
  · intro n hn
    exact Nat.mod_eq_of_lt (lt_of_lt_of_le hn (by decide))
  · rintro hash o - ⟨-, ho⟩
    rw [← ho]
  · intro o
    have ho : o.index.toNat < 256 ^ 2 := lt_of_lt_of_le o.index.toNat_lt (by decide)
    simp only [ho, UInt16.ofNat_toNat, and_self]

theorem readOwner_reads : Reads readOwner (fun _ => True) LedgerAddress.bytes := by
  refine (Reads.parse LedgerAddress.bytes (Reads.take _ 20) ?_).congr ?_ fun a _ => rfl
  · intro b a h
    simp only [eq_ok] at h
    obtain ⟨address, haddress, hledger⟩ := h
    rw [LedgerAddress.bytes, LedgerAddress.address_of_tryFrom hledger]
    exact Address.bytes_of_tryFrom haddress
  · intro a
    simp only [eq_ok, iff_true]
    exact ⟨a.address.size, a.address, Address.tryFrom_bytes _, LedgerAddress.tryFrom_address a⟩

theorem readClaim_reads : Reads readClaim (fun _ => True) claimBytes := by
  refine (Reads.bind QiInputClaim.outpoint readOutPoint_reads (fun outpoint _ =>
    Reads.map QiInputClaim.owner readOwner_reads fun _ _ => rfl) ?_).congr ?_ fun c _ => rfl
  · rintro outpoint c - ⟨-, hc⟩
    rw [← hc]
  · intro c
    simp

theorem readClaims_reads : Reads readClaims (fun claims => claims.length ≤ 4096) claimsBytes := by
  refine (Reads.counted (by decide) fun n _ => readClaim_reads.repeated n).congr ?_ fun _ _ => rfl
  intro claims
  exact and_iff_left fun _ _ => trivial

/-- What a record can hold: an empty payload would read back as an absent one. -/
structure Readable (op : QiOperation) : Prop where
  bounded : Bounded op
  claims : op.claims.length ≤ 4096
  payload : op.payload ≠ some []
  edges : op.replacements.length ≤ 32

theorem readOperation_reads (previous : Option ReservationId) :
    Reads (readOperation previous) (fun op => (∀ k ∈ previous, k < op.id) ∧ Readable op)
      operationBytes := by
  refine (Reads.bind QiOperation.id readId_reads (fun id _ => .guard fun _ =>
    Reads.bind QiOperation.state readState_reads (fun state _ =>
    Reads.bind QiOperation.reservationCheckpoint (readFlag_reads.optional readBlock_reads)
      (fun checkpoint _ =>
    Reads.bind QiOperation.claims readClaims_reads (fun claims _ =>
    Reads.bind QiOperation.transaction (readFlag_reads.optional readHash_reads)
      (fun transaction _ =>
    Reads.bind QiOperation.inclusion (readFlag_reads.optional readInclusion_reads)
      (fun inclusion _ =>
    Reads.bind QiOperation.payload readPayload_reads (fun payload _ =>
    Reads.map QiOperation.replacements readEdges_reads fun _ _ => rfl)
    ?_) ?_) ?_) ?_) ?_) ?_) ?_).congr ?_ fun op _ => rfl
  any_goals
    rintro part op - hop
    grind
  · intro op
    simp only [not_exists, not_and, not_le, implies_true, and_true, true_and]
    constructor
    · rintro ⟨hid, hclaims, ⟨hsome, hpayload⟩, hedges, hbound⟩
      exact ⟨hid, ⟨hpayload, hbound⟩, hclaims, hsome, hedges⟩
    · rintro ⟨hid, ⟨hpayload, hbound⟩, hclaims, hsome, hedges⟩
      exact ⟨hid, hclaims, ⟨hsome, hpayload⟩, hedges, hbound⟩

theorem readAddress_reads (previous : Option Address) :
    Reads (readAddress C previous) (fun a => (∀ k ∈ previous, k < a.address) ∧ a.WellFormed C)
      metadataBytes := by
  refine (Reads.bind PublicAddress.exportMetadata readBlob_reads (fun metadata _ =>
    Reads.bind (fun a => a) (Reads.lift _) (fun a _ => .guard fun _ => Reads.pure a) ?_) ?_).congr ?_ ?_
  · rintro a a' - ⟨-, ha⟩
    exact ha
  · rintro metadata a - ⟨hdecode, -⟩
    exact (PublicAddress.fromMetadata_eq_ok.mp hdecode).2.symm
  · intro a
    rw [PublicAddress.fromMetadata_eq_ok]
    simp only [not_exists, not_and, not_le, and_true]
    constructor
    · rintro ⟨-, hform, habove⟩
      exact ⟨habove, hform⟩
    · rintro ⟨habove, hform⟩
      exact ⟨(PublicAddress.length_exportMetadata hform).trans (by decide), hform, habove⟩
  · intro a _
    simp [metadataBytes]

theorem addAddress_ascending {a : PublicAddress} {s t : Registry PublicAddress.address}
    (habove : ∀ b ∈ s.records, b.address < a.address)
    (hroom : s.records.length < maxQiCustodyAddresses) :
    addAddress scope a s = .ok t ↔ Local scope a ∧ t = s.insert a := by
  have hnone : s.get? a.address = none :=
    Registry.get?_eq_none.mpr fun b hb => ne_of_lt (habove b hb)
  rw [addAddress_eq_ok, hnone]
  simp [hroom]

/-- What the records of a book read for this scope are. -/
structure Recorded (scope : NetworkScope) (book : QiOperationBook C) : Prop where
  addressCount : book.addresses.records.length ≤ maxQiCustodyAddresses
  addresses : ∀ a ∈ book.addresses.records, a.WellFormed C ∧ Local scope a
  count : book.operations.records.length ≤ maxQiOperations
  operations : ∀ op ∈ book.operations.records, Readable op

theorem readRecords_reads {start : QiOperationBook C} (haddresses : start.addresses = .empty)
    (hoperations : start.operations = .empty) :
    Reads (do
      let count ← Reader.number .invalid 2
      if maxQiCustodyAddresses < count then Reader.fail .invalid
      else do
        let addresses ← Reader.registered (readAddress C) (addAddress scope) count none
          start.addresses
        let count ← Reader.number .invalid 2
        if maxQiOperations < count then Reader.fail .invalid
        else do
          let operations ← Reader.registered readOperation
            (fun op operations => .ok (operations.insert op)) count none start.operations
          pure { start with addresses, operations })
      (fun book : QiOperationBook C =>
        { book with addresses := .empty, operations := .empty } = start ∧ book.Recorded scope)
      fun book => (toBytes 2 book.addresses.records.length ++
          book.addresses.records.flatMap metadataBytes) ++
        (toBytes 2 book.operations.records.length ++
          book.operations.records.flatMap operationBytes) := by
  rw [haddresses, hoperations]
  refine (Reads.counted (by decide) fun count hcount =>
    (Reads.bind addresses (Reads.registered readAddress_reads
      (fun a s t habove hroom => addAddress_ascending habove hroom) hcount) (fun addresses _ =>
    Reads.counted (by decide) fun count _ =>
      (Reads.map operations (Reads.inserted readOperation_reads count) fun _ _ => rfl).congr
        (fun _ => and_assoc) fun _ _ => rfl) ?_).congr (fun _ => and_assoc) fun _ _ => rfl).congr ?_ ?_
  · rintro addresses book - ⟨-, -, hbook⟩
    rw [← hbook]
  · intro book
    constructor
    · rintro ⟨hcount, hall, hcount', hall', hbook⟩
      refine ⟨?_, hcount, hall, hcount', hall'⟩
      rw [← hbook, ← haddresses, ← hoperations]
    · rintro ⟨rfl, hcount, hall, hcount', hall'⟩
      exact ⟨hcount, hall, hcount', hall', rfl⟩
  · intro book _
    rw [append_assoc]

theorem readBook_reads (scope : NetworkScope) (identity : Hash32) :
    Reads (readBook C scope identity)
      (fun book => (book.scope = scope ∧ book.identity = identity) ∧ book.Recorded scope)
      journal := by
  have hmagic : magic.length = 8 := rfl
  refine (Reads.expect hmagic (.expect scope.length_key (.expect identity.size
    (Reads.bind (fun book : QiOperationBook C =>
        { book with addresses := .empty, operations := .empty }) (Reads.lift _)
      (fun start hstart => readRecords_reads (new_eq_ok hstart).2.2.1 (new_eq_ok hstart).2.2.2)
    ?_)))).congr ?_ ?_
  · rintro start book - ⟨hbook, -⟩
    exact hbook
  · intro book
    constructor
    · rintro ⟨hnew, -, hread⟩
      obtain ⟨hscope, hidentity, -, -⟩ := new_eq_ok hnew
      exact ⟨⟨hscope, hidentity⟩, hread⟩
    · rintro ⟨⟨rfl, rfl⟩, hread⟩
      exact ⟨dif_pos book.scope_ok, rfl, hread⟩
  · rintro book ⟨hnew, -⟩
    obtain ⟨hscope, hidentity, -, -⟩ := new_eq_ok hnew
    rw [journal, ← hscope, ← hidentity]
    rfl

theorem readable_of_sound {op : QiOperation} (h : op.Sound book) (hbounded : Bounded op) :
    Readable op := by
  refine ⟨hbounded, h.count, ?_, ?_⟩
  · intro hempty
    obtain ⟨tx, -, htx, -⟩ := h.root [] hempty
    cases htx
  · cases hpayload : op.payload with
    | none =>
      rw [h.edges hpayload]
      exact Nat.zero_le _
    | some root =>
      obtain ⟨-, -, -, -, -, -, hfamily⟩ := h.root root hpayload
      exact validateFamily_length hfamily

def Inventory (book : QiOperationBook C) : Prop :=
  ∀ a ∈ book.addresses.records, a.WellFormed C ∧ Local book.scope a

theorem fromState_accepts : fromState C b scope identity = .ok book ↔ ¬maxCustodyBytes < b.length ∧
    (((book.scope = scope ∧ book.identity = identity) ∧ book.Recorded scope) ∧ b = book.journal) ∧
      book.validate = .ok () :=
  ite_error_eq_ok.trans
    (and_congr_right fun _ => (readBook_reads scope identity).accept_eq_ok validate)

theorem fromState_eq_ok : fromState C b scope identity = .ok book ↔
      (book.scope = scope ∧ book.identity = identity) ∧ book.exportState = .ok b ∧ book.Valid ∧
        book.Inventory := by
  rw [fromState_accepts, exportState_eq_ok, validate_eq_ok, not_lt]
  constructor
  · rintro ⟨hsize, ⟨⟨⟨rfl, rfl⟩, hrecorded⟩, rfl⟩, hvalid⟩
    refine ⟨⟨rfl, rfl⟩, ⟨⟨?_, fun op hop => (hrecorded.operations op hop).bounded⟩, hsize, rfl⟩,
      hvalid, hrecorded.addresses⟩
    intro a ha
    exact (PublicAddress.length_exportMetadata (hrecorded.addresses a ha).1).trans (by decide)
  · rintro ⟨⟨rfl, rfl⟩, ⟨⟨-, hbounded⟩, hsize, rfl⟩, hvalid, hinventory⟩
    exact ⟨hsize, ⟨⟨⟨rfl, rfl⟩, hvalid.addressCount, hinventory, hvalid.count, fun op hop =>
      readable_of_sound (hvalid.sound op hop) (hbounded op hop)⟩, rfl⟩, hvalid⟩

theorem fromState_front {extra : Bytes} {scope' : NetworkScope} {identity' : Hash32}
    {book : QiOperationBook C} (h : fromState C b scope identity = .ok book)
    (h' : fromState C (b ++ extra) scope' identity' = .ok book') : extra = [] := by
  obtain ⟨-, ⟨⟨⟨rfl, rfl⟩, hrecorded⟩, rfl⟩, -⟩ := fromState_accepts.mp h
  obtain ⟨-, ⟨⟨⟨rfl, rfl⟩, hrecorded'⟩, hlong⟩, -⟩ := fromState_accepts.mp h'
  obtain ⟨hscope, hname⟩ := header_inj (by simp only [Hash32.size]) hlong
  exact (readBook_reads book.scope book.identity).front_eq ⟨⟨rfl, rfl⟩, hrecorded⟩
    ⟨⟨hscope.symm, (Hash32.ext hname).symm⟩, hscope ▸ hrecorded'⟩ hlong

theorem exportable_iff : book.Exportable ↔
    ((∀ a ∈ book.addresses.records, a.exportMetadata.length ≤ maxTransactionBytes) ∧
      ∀ op ∈ book.operations.records, Bounded op) ∧ book.journal.length ≤ maxCustodyBytes := by
  simp only [Exportable, exportState_eq_ok, exists_and_left, exists_eq_right]

theorem length_journal (book : QiOperationBook C) :
    book.journal.length = 109 + (book.addresses.records.flatMap metadataBytes).length +
      (book.operations.records.flatMap operationBytes).length := by
  simp only [journal, length_append, book.scope.length_key, book.identity.size, length_toBytes]
  rw [show magic.length = 8 from rfl]
  omega

theorem length_operationBytes_le {old op : QiOperation} (h : old.Shrinks op) :
    (operationBytes op).length ≤ (operationBytes old).length := by
  have hinclusion := length_includedBytes_le h.inclusion
  have hclaims : (claimsBytes op.claims).length ≤ (claimsBytes old.claims).length := by
    rcases h.claims with hsame | hnone
    · rw [hsame]
    · rw [hnone, claimsBytes, claimsBytes, length_append, length_append]
      exact Nat.le_add_right 2 _
  simp only [operationBytes, length_append, op.id.size, old.id.size, h.checkpoint,
    h.transaction, h.payload, h.replacements]
  simp only [length_cons, length_nil]
  omega

theorem Change.exportable {brought : List PublicAddress} (h : Change book brought book')
    (hbook : book.Exportable) : book'.Exportable := by
  cases h with
  | same => exact hbook
  | reserve addresses op hadded hnew hroom hfree hsound hexport
  | merge addresses operations hadded hkept hmerged hexport => exact hexport
  | replace old op hold hkept hclaims hsound hroom =>
    -- a change that was not exported again makes the record no longer
    rcases hroom with hexport | hshrinks
    · exact hexport
    · obtain ⟨⟨haddresses, hbounded⟩, hsize⟩ := exportable_iff.mp hbook
      rw [exportable_iff]
      refine ⟨⟨haddresses, ?_⟩, ?_⟩
      · apply Registry.forall_mem_insert _ hbounded
        rw [Bounded, hshrinks.payload, hshrinks.replacements]
        exact hbounded old (Registry.get?_eq_some.mp hold).1
      · rw [length_journal] at hsize ⊢
        rw [← hkept.id] at hold
        have hle := Registry.length_flatMap_insert_le hold (length_operationBytes_le hshrinks)
        change 109 + (book.addresses.records.flatMap metadataBytes).length +
          ((book.operations.insert op).records.flatMap operationBytes).length ≤ _
        omega

theorem Change.inventory {brought : List PublicAddress} (h : Change book brought book')
    (hbrought : ∀ a ∈ brought, a.WellFormed C) (hbook : book.Inventory) : book'.Inventory := by
  have hnew : ∀ addresses, Added book.scope brought book.addresses addresses →
      ∀ a ∈ addresses.records, a.WellFormed C ∧ Local book.scope a := by
    intro addresses hadded a ha
    rcases hadded.new a ha with hold | ⟨hmem, hlocal⟩
    · exact hbook a hold
    · exact ⟨hbrought a hmem, hlocal⟩
  cases h with
  | same | replace => exact hbook
  | reserve addresses op hadded | merge addresses operations hadded => exact hnew addresses hadded

theorem Started.journal {book : QiOperationBook B.toCrypto} (h : Started book) :
    book.Exportable ∧ book.Inventory := by
  cases h with
  | new h =>
    obtain ⟨-, -, haddresses, hoperations⟩ := new_eq_ok h
    rw [exportable_iff, length_journal, Inventory, haddresses, hoperations]
    exact ⟨⟨⟨nofun, nofun⟩, by decide⟩, nofun⟩
  | fromState h =>
    obtain ⟨-, hexport, -, hinventory⟩ := fromState_eq_ok.mp h
    exact ⟨⟨_, hexport⟩, hinventory⟩
  | @fromBackup backup _ _ _ h =>
    obtain ⟨-, hexport, hsource⟩ := fromBackup_eq_ok h
    exact ⟨hexport, fun a ha => ⟨backup.wellFormed a (hsource a ha).1, (hsource a ha).2⟩⟩

theorem run_journal {start : QiOperationBook B.toCrypto} (hstart : Started start)
    (actions : List (QiAction B)) :
    let book := Run.run next start actions
    ∃ b, book.exportState = .ok b ∧ fromState B.toCrypto b book.scope book.identity = .ok book := by
  intro book
  obtain ⟨hexport, hinventory⟩ := hstart.journal
  have hrun : Valid book ∧ Exportable book ∧ Inventory book := by
    refine Run.run_invariant (G := fun _ _ => True)
      (I := fun s => Valid s ∧ Exportable s ∧ Inventory s) ?_ ⟨hstart.valid, hexport, hinventory⟩
      actions fun _ _ _ _ => trivial
    rintro s action ⟨hvalid, hexport, hinventory⟩ -
    have hchange := next_change hvalid action
    exact ⟨hchange.valid hvalid, hchange.exportable hexport,
      hchange.inventory action.wellFormed hinventory⟩
  obtain ⟨hvalid, ⟨b, hb⟩, hinventory⟩ := hrun
  exact ⟨b, hb, fromState_eq_ok.mpr ⟨⟨rfl, rfl⟩, hb, hvalid, hinventory⟩⟩

end QiOperationBook

/-- Journals of both books: every reachable book has one that reads back as the book, an accepted
journal is the export of what it was read as, and none continues another. -/
theorem custody_journals_canonical (B : Backend) :
    (∀ (start : AccountOperationBook B.toCrypto) (actions : List (AccountAction B)),
      AccountOperationBook.Started start →
      let book := Run.run next start actions
      ∃ b, book.exportState = .ok b ∧
        fromState b book.scope book.owner = .ok book) ∧
    (∀ b scope (owner : B.PublicKey) (book : AccountOperationBook B.toCrypto),
      fromState b scope owner = .ok book → book.exportState = .ok b) ∧
    (∀ b extra scope scope' (owner owner' : B.PublicKey) (book book' : AccountOperationBook B.toCrypto),
      fromState b scope owner = .ok book →
      fromState (b ++ extra) scope' owner' = .ok book' → extra = []) ∧
    (∀ (start : QiOperationBook B.toCrypto) (actions : List (QiAction B)),
      QiOperationBook.Started start →
      let book := Run.run QiOperationBook.next start actions
      ∃ b, book.exportState = .ok b ∧
        QiOperationBook.fromState B.toCrypto b book.scope book.identity = .ok book) ∧
    (∀ b scope identity (book : QiOperationBook B.toCrypto),
      QiOperationBook.fromState B.toCrypto b scope identity = .ok book →
        book.exportState = .ok b) ∧
    (∀ b extra scope scope' identity identity' (book book' : QiOperationBook B.toCrypto),
      QiOperationBook.fromState B.toCrypto b scope identity = .ok book →
      QiOperationBook.fromState B.toCrypto (b ++ extra) scope' identity' = .ok book' →
        extra = []) := by
  refine ⟨?_, ?_, ?_, ?_, ?_, ?_⟩
  · exact fun start actions hstart => run_journal hstart actions
  · exact fun b scope owner book h => (fromState_eq_ok.mp h).2.1
  · exact fun b extra scope scope' owner owner' book book' h h' =>
      fromState_front h h'
  · exact fun start actions hstart => QiOperationBook.run_journal hstart actions
  · exact fun b scope identity book h => (QiOperationBook.fromState_eq_ok.mp h).2.1
  · exact fun b extra scope scope' identity identity' book book' h h' =>
      QiOperationBook.fromState_front h h'

/-- The confirmed transfer and the confirmed coin, through their journals. -/
theorem custody_journals_canonical_confirmed :
    (∃ start, new sampleScope
        sampleOwner 0 = .ok start ∧
      let book := Run.run next start sampleActions
      ∃ b, book.exportState = .ok b ∧
        fromState b book.scope book.owner = .ok book) ∧
    ∃ start, QiOperationBook.new QiOperationBook.coinKeeper.toCrypto sampleScope
        (Hash32.ofNat 1) = .ok start ∧
      let book := Run.run QiOperationBook.next start QiOperationBook.coinActions
      ∃ b, book.exportState = .ok b ∧
        QiOperationBook.fromState QiOperationBook.coinKeeper.toCrypto b book.scope book.identity =
          .ok book := by
  obtain ⟨haccount, -, -, -, -, -⟩ := custody_journals_canonical sampleWallet
  obtain ⟨-, -, -, hqi, -, -⟩ := custody_journals_canonical QiOperationBook.coinKeeper
  constructor
  · obtain ⟨start, hstart⟩ := exists_of_isOk (show (new
      sampleScope sampleOwner 0).isOk = true by
        decide +kernel)
    exact ⟨start, hstart, haccount start _ (.new hstart)⟩
  · obtain ⟨start, hstart⟩ := exists_of_isOk (show (QiOperationBook.new
      QiOperationBook.coinKeeper.toCrypto sampleScope (Hash32.ofNat 1)).isOk = true by
        decide +kernel)
    exact ⟨start, hstart, hqi start _ (.new hstart)⟩

end QuaiSdk.Books
