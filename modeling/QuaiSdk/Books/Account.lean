import QuaiSdk.Books.Custody

/-!
# Account operation books

`account_custody.rs`: the nonces and signed candidates of one account.  Some transitions build a
candidate book, export it and install it; others write one field in place.  Methods therefore leave
a state on failure as well.
-/

namespace QuaiSdk.Books

open Result Wallet Storage Reader
open ReservationState (isSigned)

variable {C : Crypto} {B : Backend}

def maxAccountOperations : ℕ := 256

structure AccountOperation where
  id : ReservationId
  nonce : UInt64
  state : ReservationState
  transaction : Option Hash32
  payload : Option Bytes
  replacements : List QuaiReplacement
  inclusion : Option (Hash32 × Block)
  deriving DecidableEq

def AccountOperation.containsCandidate (C : Crypto) (op : AccountOperation) (hash : Hash32) : Prop :=
  op.transaction = some hash ∨ ∃ v ∈ op.replacements,
    (SignedQuaiTransaction.decode C v.payload >>= SignedQuaiTransaction.hash) = .ok hash

instance (op : AccountOperation) (hash : Hash32) : Decidable (op.containsCandidate C hash) :=
  inferInstanceAs (Decidable (_ ∨ _))

structure AccountOperationBook (C : Crypto) where
  scope : NetworkScope
  owner : C.PublicKey
  address : QuaiAddress
  nextNonce : UInt64
  operations : Registry AccountOperation.id
  address_eq : LedgerAddress.tryFrom .quai (C.address owner) = .ok address
  scope_ok : scope.chainId ≠ U256.ofNat 0 ∧ scope.genesis ≠ Hash32.zero ∧ address.zone = scope.zone

structure AccountMergeReport where
  operationsAdded : ℕ
  candidatesAdded : ℕ
  invalidatedInclusions : ℕ
  nextNonce : UInt64
  deriving DecidableEq

namespace AccountOperationBook

def new (scope : NetworkScope) (owner : C.PublicKey) (firstNonce : UInt64) :
    Except StorageError (AccountOperationBook C) :=
  match h : LedgerAddress.tryFrom .quai (C.address owner) with
  | .error _ => .error .invalid
  | .ok address =>
    if hs : scope.chainId ≠ U256.ofNat 0 ∧ scope.genesis ≠ Hash32.zero ∧
        address.zone = scope.zone then
      .ok ⟨scope, owner, address, firstNonce, .empty, h, hs⟩
    else .error .invalid

/-- `QACCTBK1`. -/
def magic : Bytes := [0x51, 0x41, 0x43, 0x43, 0x54, 0x42, 0x4b, 0x31]

open Writer in
def operationCalls (op : AccountOperation) : List Call :=
  [.put op.id.bytes, .put (BigEndian.toBytes 8 op.nonce.toNat), .put [op.state.byte]] ++
    transactionCalls op.transaction ++ inclusionCalls op.inclusion ++ payloadCalls op.payload ++
    edgesCalls op.replacements

def exportState (book : AccountOperationBook C) : Except StorageError Bytes :=
  Writer.write ([.put magic, .put book.scope.key, .put (C.toCompressed book.owner),
    .put (BigEndian.toBytes 8 book.nextNonce.toNat),
    .put (BigEndian.toBytes 2 book.operations.records.length)] ++
    book.operations.records.flatMap operationCalls)

/-- The transaction must be this account's, at the nonce, on the chain. -/
def checkedPayload (book : AccountOperationBook C) (nonce : UInt64) (payload : Bytes) :
    Except StorageError Hash32 := do
  let signed ← orInvalid (SignedQuaiTransaction.decode C payload)
  if signed.sender ≠ book.address ∨ signed.transaction.nonce ≠ nonce ∨
      signed.transaction.chainId ≠ book.scope.chainId then .error .conflict
  else orInvalid signed.hash

/-- A payload is the operation's transaction and the root of its replacements. -/
def validateCandidates (book : AccountOperationBook C) (op : AccountOperation) :
    Except StorageError Unit :=
  match op.payload with
  | some payload => do
    let hash ← book.checkedPayload op.nonce payload
    if some hash ≠ op.transaction then .error .invalid
    else validateFamily C payload op.replacements
  | none => if op.replacements ≠ [] then .error .invalid else .ok ()

/-- One operation of `validate`; the state is the nonces seen before it. -/
def validateOperation (book : AccountOperationBook C) (nonces : List UInt64)
    (op : AccountOperation) : Except StorageError (List UInt64) :=
  if book.nextNonce ≤ op.nonce ∨ op.nonce ∈ nonces then .error .invalid
  else if isSigned op.state ≠ op.transaction.isSome ∨
      (op.state = .confirmed) ≠ (op.inclusion.isSome = true) ∨
      (isSigned op.state = false ∧ (op.payload.isSome = true ∨ op.replacements ≠ [])) then
    .error .invalid
  else do
    book.validateCandidates op
    if ∃ i ∈ op.inclusion, i.2.hash = Hash32.zero ∨ ¬op.containsCandidate C i.1 then
      .error .invalid
    else .ok (op.nonce :: nonces)

def validate (book : AccountOperationBook C) : Except StorageError Unit :=
  if maxAccountOperations < book.operations.records.length then .error .invalid
  else do
    let _ ← book.operations.records.foldlM book.validateOperation []
    .ok ()

def readNonce : Reader StorageError UInt64 := do
  let n ← number .invalid 8
  pure (UInt64.ofNat n)

def readOperation (previous : Option ReservationId) : Reader StorageError AccountOperation := do
  let id ← readId
  if ∃ old ∈ previous, id ≤ old then fail .invalid
  else do
    let nonce ← readNonce
    let state ← readState
    let transaction ← optional readFlag readHash
    let inclusion ← optional readFlag readInclusion
    let payload ← readPayload
    let replacements ← readEdges
    pure ⟨id, nonce, state, transaction, payload, replacements, inclusion⟩

def readBook (scope : NetworkScope) (owner : C.PublicKey) :
    Reader StorageError (AccountOperationBook C) := do
  let found ← take .invalid 8
  if found ≠ magic then fail .invalid
  else do
    let key ← take .invalid 65
    if key ≠ scope.key then fail .invalid
    else do
      let compressed ← take .invalid 33
      if compressed ≠ C.toCompressed owner then fail .invalid
      else do
        let nextNonce ← readNonce
        let book ← lift (new scope owner nextNonce)
        let count ← number .invalid 2
        if maxAccountOperations < count then fail .invalid
        else do
          let operations ← registered readOperation
            (fun op operations => .ok (operations.insert op)) count none book.operations
          pure { book with operations }

def fromState (bytes : Bytes) (scope : NetworkScope) (owner : C.PublicKey) :
    Except StorageError (AccountOperationBook C) :=
  if maxCustodyBytes < bytes.length then .error .invalid
  else do
    let (book, rest) ← readBook scope owner bytes
    if rest ≠ [] then .error .invalid
    else do
      book.validate
      .ok book

/-- One operation of a backup; other accounts and Qi operations are skipped. -/
def importOperation (address : QuaiAddress) (operations : Registry AccountOperation.id)
    (source : OperationState) : Except StorageError (Registry AccountOperation.id) :=
  match source.nonce with
  | none => .ok operations
  | some (owner, nonce) =>
    if owner ≠ address then .ok operations
    else if (operations.get? source.record.id).isSome then .error .conflict
    else .ok (operations.insert
      ⟨source.record.id, nonce, importedState source.record.state, source.record.transaction,
        source.payload, source.replacements, none⟩)

def fromBackup (backup : WalletBackup B) (scope : NetworkScope) (owner : B.PublicKey) :
    Except StorageError (AccountOperationBook B.toCrypto) := do
  let state ← okOr (backup.scopeState scope) StorageError.invalid
  if ¬∃ a ∈ state.addresses, a.publicKey = B.toCompressed owner then .error .invalid
  else do
    let book ← new scope owner 0
    let nextNonce := ((state.nonces.find? fun s => s.address = book.address).map
      NonceState.nextNonce).getD 0
    let operations ← state.operations.foldlM (importOperation book.address) book.operations
    let book := { book with nextNonce, operations }
    book.validate
    let _ ← book.exportState
    .ok book

abbrev Update (C : Crypto) (α : Type) := Method StorageError (AccountOperationBook C) α

open Method

def custody : CustodyBook (AccountOperationBook C) AccountOperation where
  id := AccountOperation.id
  operations := operations
  setOperations book operations := { book with operations }
  exportState := exportState
  state := AccountOperation.state
  transaction := AccountOperation.transaction
  payload := AccountOperation.payload
  inclusion := AccountOperation.inclusion
  containsCandidate := AccountOperation.containsCandidate C
  decidableCandidate := inferInstance
  observe op state inclusion := { op with state, inclusion }
  sign op state payload hash := { op with payload := some payload, transaction := some hash, state }

def reserveNonce (id : ReservationId) (remotePending : UInt64) : Update C UInt64 := do
  let book ← self
  if (book.operations.get? id).isSome then fail .conflict
  else if maxAccountOperations ≤ book.operations.records.length then fail .invalid
  else
    let nonce := max book.nextNonce remotePending
    -- `checked_add(1)`
    if nonce.toNat + 1 = 2 ^ 64 then fail .overflow
    else do
      let op : AccountOperation := ⟨id, nonce, .reserved, none, none, [], none⟩
      let candidate := { book with operations := book.operations.insert op, nextNonce := nonce + 1 }
      let _ ← lift candidate.exportState
      assign candidate
      pure nonce

def releaseUnsigned (id : ReservationId) : Update C Unit := do
  let op ← custody.getMut id
  if op.state ≠ .reserved then fail .transition
  else custody.put { op with state := .released }

def reopenUnsigned (id : ReservationId) : Update C Unit := do
  let op ← custody.getMut id
  if op.state ≠ .released then fail .transition
  else custody.put { op with state := .reserved }

def commitSigned (id : ReservationId) (signed : SignedQuaiTransaction C) : Update C Unit := do
  let op ← custody.getMut id
  let payload ← lift (orInvalid signed.signedBytes)
  let book ← self
  let hash ← lift (book.checkedPayload op.nonce payload)
  custody.commitPayload op payload hash

def commitReplacement (id : ReservationId) (parent : Hash32) (signed : SignedQuaiTransaction C) :
    Update C Unit := do
  let op ← custody.getMut id
  if op.state ≠ .signed ∧ op.state ≠ .submitted then fail .transition
  else do
    let root ← lift (okOr op.payload .invalid)
    let payload ← lift (orInvalid signed.signedBytes)
    if ⟨parent, payload⟩ ∈ op.replacements then pure ()
    else do
      let replacements := op.replacements ++ [⟨parent, payload⟩]
      lift (validateFamily C root replacements)
      custody.install { op with replacements }

def markSubmitted (id : ReservationId) : Update C Unit := custody.markSubmitted id

def observeInclusion (id : ReservationId) (hash : Hash32) (block : Block) : Update C Unit :=
  custody.observeInclusion id hash block

def invalidateInclusion (id : ReservationId) (expected : Hash32 × Block) : Update C Unit :=
  custody.invalidateInclusion id expected

/-- One live operation with the backup's record of it, and the edges it gains. -/
def mergeOperation (live source : AccountOperation) :
    Except StorageError (AccountOperation × ℕ) :=
  if live.nonce ≠ source.nonce ∨ disagree live.transaction source.transaction ∨
      disagree live.payload source.payload then .error .conflict
  else
    let transaction := live.transaction.or source.transaction
    let (replacements, gained) := mergeEdges live.replacements source.replacements
    let state := if transaction.isSome then mergeState live.state source.state else live.state
    .ok ({ live with
      transaction, payload := live.payload.or source.payload, replacements, state }, gained)

def mergeSource (s : Registry AccountOperation.id × AccountMergeReport) (source : AccountOperation) :
    Except StorageError (Registry AccountOperation.id × AccountMergeReport) :=
  match s.1.get? source.id with
  | none => .ok (s.1.insert source,
      { s.2 with
        operationsAdded := s.2.operationsAdded + 1
        candidatesAdded := s.2.candidatesAdded + source.replacements.length })
  | some live => do
    let (op, gained) ← mergeOperation live source
    .ok (s.1.insert op, { s.2 with candidatesAdded := s.2.candidatesAdded + gained })

/-- Inclusions are dropped for fresh reconciliation. -/
def dropInclusion (op : AccountOperation) : AccountOperation :=
  { op with inclusion := none, state := importedState op.state }

theorem dropInclusion_id (op : AccountOperation) : (dropInclusion op).id = op.id := rfl

def merged (book incoming : AccountOperationBook C) :
    Except StorageError (AccountOperationBook C × AccountMergeReport) := do
  let nextNonce := max book.nextNonce incoming.nextNonce
  let (operations, report) ← incoming.operations.records.foldlM mergeSource
    (book.operations, ⟨0, 0, 0, nextNonce⟩)
  let invalidatedInclusions := operations.records.countP fun op => op.inclusion.isSome
  let candidate :=
    { book with nextNonce, operations := operations.map dropInclusion dropInclusion_id }
  candidate.validate
  let _ ← candidate.exportState
  .ok (candidate, { report with invalidatedInclusions })

def mergeBackup (backup : WalletBackup B) : Update B.toCrypto AccountMergeReport := do
  let book ← self
  let incoming ← lift (fromBackup backup book.scope book.owner)
  let (candidate, report) ← lift (book.merged incoming)
  assign candidate
  pure report

end AccountOperationBook

end QuaiSdk.Books
