import QuaiSdk.Books.AccountSafe

/-!
# Account journals

`export_state` and `from_state` of an account book: the importer accepts exactly the exports of valid
books, and every reachable book can be exported.
-/

namespace QuaiSdk.Books

open Result Wallet Storage List BigEndian
open Reader (Reads)

variable {C : Crypto} {B : Backend}

namespace AccountOperationBook

variable {book : AccountOperationBook C}

def operationBytes (op : AccountOperation) : Bytes :=
  op.id.bytes ++ (toBytes 8 op.nonce.toNat ++ ([op.state.byte] ++
    (hashBytes op.transaction ++ (includedBytes op.inclusion ++
      (payloadBytes op.payload ++ edgesBytes op.replacements)))))

def journal (book : AccountOperationBook C) : Bytes :=
  magic ++ (book.scope.key ++ (C.toCompressed book.owner ++
    (toBytes 8 book.nextNonce.toNat ++
      (toBytes 2 book.operations.records.length ++
        book.operations.records.flatMap operationBytes))))

def Bounded (op : AccountOperation) : Prop :=
  (∀ b ∈ op.payload, b.length ≤ maxTransactionBytes) ∧
    ∀ e ∈ op.replacements, e.payload.length ≤ maxTransactionBytes

theorem operationCalls_bytes (op : AccountOperation) :
    (operationCalls op).flatMap Writer.Call.bytes = operationBytes op ∧
      ((∀ c ∈ operationCalls op, c.Fits) ↔ Bounded op) := by
  obtain ⟨htransaction, hfits⟩ := transactionCalls_bytes op.transaction
  obtain ⟨hinclusion, hfits'⟩ := inclusionCalls_bytes op.inclusion
  obtain ⟨hpayload, hbound⟩ := payloadCalls_bytes op.payload
  obtain ⟨hedges, hbound'⟩ := edgesCalls_bytes op.replacements
  constructor
  · simp only [operationCalls, flatMap_append, htransaction, hinclusion, hpayload, hedges,
      operationBytes, append_assoc]
    simp [Writer.Call.bytes]
  · rw [Bounded, ← hbound, ← hbound']
    simp only [operationCalls, forall_mem_append]
    constructor
    · rintro ⟨⟨⟨⟨-, -⟩, -⟩, hp⟩, he⟩
      exact ⟨hp, he⟩
    · rintro ⟨hp, he⟩
      exact ⟨⟨⟨⟨by simp [Writer.Call.Fits], hfits⟩, hfits'⟩, hp⟩, he⟩

variable {b : Bytes} {scope : NetworkScope} {owner : C.PublicKey}

theorem exportState_eq_ok :
    book.exportState = .ok b ↔ (∀ op ∈ book.operations.records, Bounded op) ∧
      b.length ≤ maxCustodyBytes ∧ b = book.journal := by
  obtain ⟨hbytes, hfits⟩ := Writer.flatMap_bytes _ _ _ operationCalls_bytes book.operations.records
  rw [exportState, Writer.write_eq_ok, flatMap_append, hbytes, forall_mem_append, hfits]
  apply and_congr
  · simp [Writer.Call.Fits]
  · simp [journal, Writer.Call.bytes]

theorem readNonce_reads : Reads readNonce (fun _ => True) fun n => toBytes 8 n.toNat :=
  Reads.numberOf UInt64.toNat UInt64.ofNat (fun _ hn => Nat.mod_eq_of_lt hn)
    fun n => ⟨n.toNat_lt, UInt64.ofNat_toNat⟩

/-- What a record can hold: an empty payload would read back as an absent one. -/
structure Readable (op : AccountOperation) : Prop where
  bounded : Bounded op
  payload : op.payload ≠ some []
  edges : op.replacements.length ≤ 32

theorem readOperation_reads (previous : Option ReservationId) :
    Reads (readOperation previous) (fun op => (∀ k ∈ previous, k < op.id) ∧ Readable op)
      operationBytes := by
  refine (Reads.bind AccountOperation.id readId_reads (fun id _ => .guard fun _ =>
    Reads.bind AccountOperation.nonce readNonce_reads (fun nonce _ =>
    Reads.bind AccountOperation.state readState_reads (fun state _ =>
    Reads.bind AccountOperation.transaction (readFlag_reads.optional readHash_reads)
      (fun transaction _ =>
    Reads.bind AccountOperation.inclusion (readFlag_reads.optional readInclusion_reads)
      (fun inclusion _ =>
    Reads.bind AccountOperation.payload readPayload_reads (fun payload _ =>
    Reads.map AccountOperation.replacements readEdges_reads fun _ _ => rfl)
    ?_) ?_) ?_) ?_) ?_) ?_).congr ?_ fun op _ => rfl
  any_goals
    rintro part op - hop
    grind
  · intro op
    simp only [not_exists, not_and, not_le, implies_true, and_true, true_and]
    constructor
    · rintro ⟨hid, ⟨hsome, hpayload⟩, hedges, hbound⟩
      exact ⟨hid, ⟨hpayload, hbound⟩, hsome, hedges⟩
    · rintro ⟨hid, ⟨hpayload, hbound⟩, hsome, hedges⟩
      exact ⟨hid, ⟨hsome, hpayload⟩, hedges, hbound⟩

theorem new_of_book (book : AccountOperationBook C) :
    new book.scope book.owner book.nextNonce = .ok { book with operations := .empty } := by
  unfold new
  split
  · rename_i e he
    rw [book.address_eq] at he
    cases he
  · rename_i address haddress
    have hsame : book.address = address := Except.ok.inj (book.address_eq.symm.trans haddress)
    subst hsame
    rw [dif_pos book.scope_ok]

theorem readOperations_reads {start : AccountOperationBook C} (hstart : start.operations = .empty) :
    Reads (do
      let count ← Reader.number .invalid 2
      if maxAccountOperations < count then Reader.fail .invalid
      else do
        let operations ← Reader.registered readOperation
          (fun op operations => .ok (operations.insert op)) count none start.operations
        pure { start with operations })
      (fun book : AccountOperationBook C => { book with operations := .empty } = start ∧
        book.operations.records.length ≤ maxAccountOperations ∧
        ∀ op ∈ book.operations.records, Readable op)
      fun book => toBytes 2 book.operations.records.length ++
        book.operations.records.flatMap operationBytes := by
  rw [hstart]
  refine (Reads.counted (by decide) fun count _ =>
    (Reads.map operations (Reads.inserted readOperation_reads count) fun _ _ => rfl).congr
      (fun _ => and_assoc) fun _ _ => rfl).congr ?_ fun _ _ => rfl
  intro book
  constructor
  · rintro ⟨hcount, hall, hbook⟩
    refine ⟨?_, hcount, hall⟩
    rw [← hbook, ← hstart]
  · rintro ⟨rfl, hcount, hall⟩
    exact ⟨hcount, hall, rfl⟩

/-- The importer's reader accepts exactly the journals of books it could have read. -/
theorem readBook_reads (scope : NetworkScope) (owner : C.PublicKey) : Reads (readBook scope owner)
      (fun book => (book.scope = scope ∧ book.owner = owner) ∧
        book.operations.records.length ≤ maxAccountOperations ∧
        ∀ op ∈ book.operations.records, Readable op) journal := by
  have hmagic : magic.length = 8 := rfl
  refine (Reads.expect hmagic (.expect scope.length_key (.expect (C.length_toCompressed owner)
    (Reads.bind nextNonce readNonce_reads (fun nonce _ =>
    Reads.bind (fun book : AccountOperationBook C => { book with operations := .empty })
      (Reads.lift _) (fun start hstart => readOperations_reads (new_eq_ok hstart).2.2.2) ?_)
    ?_)))).congr ?_ ?_
  · rintro start book hstart ⟨hbook, -⟩
    exact hbook
  · rintro nonce book - ⟨hnew, -⟩
    exact (new_eq_ok hnew).2.2.1
  · intro book
    constructor
    · rintro ⟨-, hnew, -, hread⟩
      obtain ⟨hscope, howner, -, -⟩ := new_eq_ok hnew
      exact ⟨⟨hscope, howner⟩, hread⟩
    · rintro ⟨⟨rfl, rfl⟩, hread⟩
      exact ⟨trivial, new_of_book book, rfl, hread⟩
  · rintro book ⟨-, hnew, -⟩
    obtain ⟨hscope, howner, -, -⟩ := new_eq_ok hnew
    rw [journal, ← hscope, ← howner]
    rfl

theorem readable_of_sound {op : AccountOperation} (h : op.Sound book) (hbounded : Bounded op) :
    Readable op := by
  have hcandidates := h.candidates
  rw [validateCandidates] at hcandidates
  refine ⟨hbounded, ?_, ?_⟩
  · rintro hempty
    obtain ⟨hash, hchecked, -⟩ := candidates_of_root h.candidates hempty
    obtain ⟨signed, hdecode, -⟩ := checkedPayload_eq_ok hchecked
    cases hdecode
  · cases hpayload : op.payload with
    | none =>
      rw [hpayload, ite_error_eq_ok, not_not] at hcandidates
      rw [hcandidates.1]
      exact Nat.zero_le _
    | some =>
      rw [hpayload] at hcandidates
      simp only [eq_ok] at hcandidates
      obtain ⟨hash, -, -, hfamily⟩ := hcandidates
      exact validateFamily_length hfamily

theorem fromState_accepts : fromState b scope owner = .ok book ↔ ¬maxCustodyBytes < b.length ∧
    (((book.scope = scope ∧ book.owner = owner) ∧
      book.operations.records.length ≤ maxAccountOperations ∧
        ∀ op ∈ book.operations.records, Readable op) ∧ b = book.journal) ∧ book.validate = .ok () :=
  ite_error_eq_ok.trans (and_congr_right fun _ => (readBook_reads scope owner).accept_eq_ok validate)

/-- The importer accepts exactly the exports of valid books. -/
theorem fromState_eq_ok : fromState b scope owner = .ok book ↔
      (book.scope = scope ∧ book.owner = owner) ∧ book.exportState = .ok b ∧ book.Valid := by
  rw [fromState_accepts, exportState_eq_ok, validate_eq_ok, not_lt]
  constructor
  · rintro ⟨hsize, ⟨⟨hidentity, -, hreadable⟩, rfl⟩, hvalid⟩
    exact ⟨hidentity, ⟨fun op hop => (hreadable op hop).bounded, hsize, rfl⟩, hvalid⟩
  · rintro ⟨hidentity, ⟨hbounded, hsize, rfl⟩, hvalid⟩
    exact ⟨hsize, ⟨⟨hidentity, hvalid.count, fun op hop =>
      readable_of_sound (hvalid.sound op hop) (hbounded op hop)⟩, rfl⟩, hvalid⟩

/-- No accepted journal continues another, whatever book each is read for. -/
theorem fromState_front {extra : Bytes} {scope' : NetworkScope} {owner' : C.PublicKey}
    {book book' : AccountOperationBook C} (h : fromState b scope owner = .ok book)
    (h' : fromState (b ++ extra) scope' owner' = .ok book') : extra = [] := by
  obtain ⟨-, ⟨hdomain, rfl⟩, -⟩ := fromState_accepts.mp h
  obtain ⟨-, ⟨hdomain', hlong⟩, -⟩ := fromState_accepts.mp h'
  obtain ⟨hscope, howner⟩ := header_inj (by simp only [C.length_toCompressed]) hlong
  have hsame := C.toCompressed_injective howner
  exact (readBook_reads book.scope book.owner).front_eq ⟨⟨rfl, rfl⟩, hdomain.2⟩
    ⟨⟨hscope.symm, hsame.symm⟩, hdomain'.2⟩ hlong

theorem exportable_iff : book.Exportable ↔
    (∀ op ∈ book.operations.records, Bounded op) ∧ book.journal.length ≤ maxCustodyBytes := by
  simp only [Exportable, exportState_eq_ok, exists_and_left, exists_eq_right]

theorem length_journal (book : AccountOperationBook C) :
    book.journal.length = 116 + (book.operations.records.flatMap operationBytes).length := by
  simp only [journal, length_append, book.scope.length_key, C.length_toCompressed, length_toBytes]
  rw [show magic.length = 8 from rfl]
  omega

theorem length_operationBytes_le {old op : AccountOperation} (h : old.Shrinks op) :
    (operationBytes op).length ≤ (operationBytes old).length := by
  have hinclusion := length_includedBytes_le h.inclusion
  simp only [operationBytes, length_append, op.id.size, old.id.size, length_toBytes,
    h.transaction, h.payload, h.replacements]
  simp only [length_cons, length_nil]
  omega

theorem Change.exportable {book' : AccountOperationBook C} (h : Change book book')
    (hbook : book.Exportable) : book'.Exportable := by
  cases h with
  | same => exact hbook
  | reserve op hnew hroom habove hmax hsound hexport
  | merge nextNonce operations hnext hkept hmerged hexport => exact hexport
  | replace old op hold hkept hsound hroom =>
    rcases hroom with hexport | hshrinks
    · exact hexport
    · obtain ⟨hbounded, hsize⟩ := exportable_iff.mp hbook
      rw [exportable_iff]
      constructor
      · apply Registry.forall_mem_insert _ hbounded
        rw [Bounded, hshrinks.payload, hshrinks.replacements]
        exact hbounded old (Registry.get?_eq_some.mp hold).1
      · rw [length_journal] at hsize ⊢
        rw [← hkept.id] at hold
        have hle := Registry.length_flatMap_insert_le hold (length_operationBytes_le hshrinks)
        change 116 + ((book.operations.insert op).records.flatMap operationBytes).length ≤ _
        omega

theorem Started.exportable {book : AccountOperationBook B.toCrypto} (h : Started book) :
    book.Exportable := by
  cases h with
  | new h =>
    obtain ⟨-, -, -, hempty⟩ := new_eq_ok h
    rw [exportable_iff, length_journal, hempty]
    exact ⟨nofun, by decide⟩
  | fromState h => exact ⟨_, (fromState_eq_ok.mp h).2.1⟩
  | fromBackup h =>
    simp only [AccountOperationBook.fromBackup, eq_ok] at h
    obtain ⟨state, -, -, first, -, operations, -, _, -, bytes, hbytes, h⟩ := h
    cases h
    exact ⟨bytes, hbytes⟩

/-- Every book of a run has a journal that reads back as the book. -/
theorem run_journal {start : AccountOperationBook B.toCrypto} (hstart : Started start)
    (actions : List (AccountAction B)) :
    let book := Run.run next start actions
    ∃ b, book.exportState = .ok b ∧ fromState b book.scope book.owner = .ok book := by
  intro book
  have hrun : book.Valid ∧ book.Exportable := by
    refine Run.run_invariant (G := fun _ _ => True) (I := fun s => Valid s ∧ Exportable s) ?_
      ⟨hstart.valid, hstart.exportable⟩ actions fun _ _ _ _ => trivial
    rintro s a ⟨hvalid, hexport⟩ -
    have hchange := next_change hvalid a
    exact ⟨hchange.valid hvalid, hchange.exportable hexport⟩
  obtain ⟨hvalid, b, hb⟩ := hrun
  exact ⟨b, hb, fromState_eq_ok.mpr ⟨⟨rfl, rfl⟩, hb, hvalid⟩⟩

end AccountOperationBook

end QuaiSdk.Books
