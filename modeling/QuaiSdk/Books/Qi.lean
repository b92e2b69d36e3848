import QuaiSdk.Books.Custody
import QuaiSdk.Books.Metadata

/-!
# Qi operation books

`qi_custody.rs`: the outpoints that operations hold, with the public origin of every owner.
-/

namespace QuaiSdk.Books

open Result Wallet Storage Reader StorageError PublicAddress
open ReservationState (isSigned)

variable {C : Crypto} {B : Backend}

def maxQiOperations : ℕ := 256

def maxQiCustodyAddresses : ℕ := 4096

structure QiInputClaim where
  outpoint : OutPoint
  owner : QiAddress
  deriving DecidableEq

structure QiOperation where
  id : ReservationId
  state : ReservationState
  reservationCheckpoint : Option Block
  claims : List QiInputClaim
  transaction : Option Hash32
  payload : Option Bytes
  replacements : List QuaiReplacement
  inclusion : Option (Hash32 × Block)
  deriving DecidableEq

def QiOperation.containsCandidate (C : Crypto) (op : QiOperation) (hash : Hash32) : Prop :=
  op.transaction = some hash ∨ ∃ e ∈ op.replacements,
    (SignedQiOperation.decode C e.payload >>= SignedQiOperation.hash) = .ok hash

instance QiOperation.decidableContains (op : QiOperation) (hash : Hash32) :
    Decidable (op.containsCandidate C hash) :=
  inferInstanceAs (Decidable (_ ∨ _))

/-- Signed bytes in a book are read under `C`. -/
structure QiOperationBook (C : Crypto) where
  scope : NetworkScope
  identity : Hash32
  addresses : Registry address
  operations : Registry QiOperation.id
  scope_ok : scope.chainId ≠ U256.ofNat 0 ∧ scope.genesis ≠ Hash32.zero ∧ identity ≠ Hash32.zero

structure QiMergeReport where
  addressesAdded : ℕ
  operationsAdded : ℕ
  candidatesAdded : ℕ
  invalidatedInclusions : ℕ
  invalidatedCheckpoints : ℕ
  deriving DecidableEq

namespace QiOperationBook

def new (C : Crypto) (scope : NetworkScope) (identity : Hash32) :
    Except StorageError (QiOperationBook C) :=
  if hs : scope.chainId ≠ U256.ofNat 0 ∧ scope.genesis ≠ Hash32.zero ∧ identity ≠ Hash32.zero then
    .ok ⟨scope, identity, .empty, .empty, hs⟩
  else .error .invalid

def addAddress (scope : NetworkScope) (address : PublicAddress)
    (addresses : Registry PublicAddress.address) :
    Except StorageError (Registry PublicAddress.address) := do
  let qi ← (LedgerAddress.tryFrom .qi address.address).mapError fun _ => invalid
  if qi.zone ≠ scope.zone then .error .invalid
  else
    match addresses.get? address.address with
    | some old => if old ≠ address then .error .conflict else .ok addresses
    | none =>
      if maxQiCustodyAddresses ≤ addresses.records.length then .error .invalid
      else .ok (addresses.insert address)

def ValidOutpoint (book : QiOperationBook C) (claim : QiInputClaim) : Prop :=
  claim.owner.zone = book.scope.zone ∧
    claim.outpoint.transactionHash.byte 2 = book.scope.zone.byte ∧
    claim.outpoint.transactionHash ≠ Hash32.zero ∧
    (book.addresses.get? claim.owner.address).isSome = true

instance (book : QiOperationBook C) (claim : QiInputClaim) : Decidable (book.ValidOutpoint claim) :=
  inferInstanceAs (Decidable (_ ∧ _))

def claimedOutpoints (book : QiOperationBook C) : List OutPoint :=
  book.operations.records.flatMap fun op => op.claims.map QiInputClaim.outpoint

/-- `QQICUBK1`. -/
def magic : Bytes := [0x51, 0x51, 0x49, 0x43, 0x55, 0x42, 0x4b, 0x31]

open Writer in
def checkpointCalls (checkpoint : Option Block) : List Call :=
  .put [flagByte checkpoint.isSome] :: match checkpoint with
    | none => []
    | some block => [.put block.hash.bytes, .put block.height.toBeBytes]

open Writer in
def claimCalls (claim : QiInputClaim) : List Call :=
  [.put claim.outpoint.transactionHash.bytes,
    .put (BigEndian.toBytes 2 claim.outpoint.index.toNat), .put claim.owner.bytes]

open Writer in
def operationCalls (op : QiOperation) : List Call :=
  [.put op.id.bytes, .put [op.state.byte]] ++ checkpointCalls op.reservationCheckpoint ++
    (.put (BigEndian.toBytes 2 op.claims.length) :: op.claims.flatMap claimCalls) ++
    transactionCalls op.transaction ++ inclusionCalls op.inclusion ++ payloadCalls op.payload ++
    edgesCalls op.replacements

def exportState (book : QiOperationBook C) : Except StorageError Bytes :=
  Writer.write ([.put magic, .put book.scope.key, .put book.identity.bytes,
      .put (BigEndian.toBytes 2 book.addresses.records.length)] ++
    book.addresses.records.map (fun a => .blob a.exportMetadata) ++
    (.put (BigEndian.toBytes 2 book.operations.records.length) ::
      book.operations.records.flatMap operationCalls))

/-- One input against the claims; the state is the outpoints seen before it. -/
def checkInput (book : QiOperationBook C) (claims : List QiInputClaim) (seen : List OutPoint)
    (input : QiInput C) : Except StorageError (List OutPoint) := do
  let claim ← okOr (claims.find? fun c => c.outpoint = input.previousOutput) conflict
  let metadata ← okOr (book.addresses.get? claim.owner.address) invalid
  if input.previousOutput ∈ seen ∨ C.address input.publicKey ≠ claim.owner.address ∨
      C.toCompressed input.publicKey ≠ metadata.publicKey then .error .conflict
  else .ok (input.previousOutput :: seen)

/-- The inputs are exactly the claims, under the recorded keys. -/
def checkClaims (book : QiOperationBook C) (claims : List QiInputClaim) (tx : QiTransaction C) :
    Except StorageError Unit :=
  if tx.chainId ≠ book.scope.chainId ∨ tx.inputs = [] ∨ tx.inputs.length ≠ claims.length then
    .error .conflict
  else do
    let _ ← tx.inputs.foldlM (book.checkInput claims) []
    .ok ()

def checkInputs (book : QiOperationBook C) (id : ReservationId) (tx : QiTransaction C) :
    Except StorageError Unit := do
  let op ← okOr (book.operations.get? id) transition
  book.checkClaims op.claims tx

/-- One claim of `validate`; the state is the outpoints held before it and the last one. -/
def validateClaim (book : QiOperationBook C) (s : List OutPoint × Option OutPoint)
    (claim : QiInputClaim) : Except StorageError (List OutPoint × Option OutPoint) :=
  if ¬book.ValidOutpoint claim ∨ claim.outpoint ∈ s.1 ∨ ∃ p ∈ s.2, claim.outpoint ≤ p then
    .error .invalid
  else .ok (claim.outpoint :: s.1, some claim.outpoint)

def validateCandidates (book : QiOperationBook C) (op : QiOperation) : Except StorageError Unit :=
  match op.payload with
  | some payload => do
    let tx ← orInvalid (SignedQiOperation.decode C payload)
    let hash ← orInvalid tx.hash
    if some hash ≠ op.transaction ∨ hash.byte 0 ≠ book.scope.zone.byte then .error .invalid
    else do
      book.checkInputs op.id tx.transaction
      validateFamily C payload op.replacements
  | none => if op.replacements ≠ [] then .error .invalid else .ok ()

/-- One operation of `validate`; the state is the outpoints held before it. -/
def validateOperation (book : QiOperationBook C) (held : List OutPoint) (op : QiOperation) :
    Except StorageError (List OutPoint) :=
  if isSigned op.state ≠ op.transaction.isSome ∨ (op.state = .released) ≠ (op.claims = []) ∨
      (op.state = .confirmed) ≠ (op.inclusion.isSome = true) ∨
      (isSigned op.state = false ∧ (op.payload.isSome = true ∨ op.replacements ≠ [])) ∨
      4096 < op.claims.length ∨ ∃ b ∈ op.reservationCheckpoint, b.hash = Hash32.zero then
    .error .invalid
  else do
    let (held, _) ← op.claims.foldlM book.validateClaim (held, none)
    book.validateCandidates op
    if ∃ i ∈ op.inclusion, ¬op.containsCandidate C i.1 ∨ i.2.hash = Hash32.zero then
      .error .invalid
    else .ok held

def validate (book : QiOperationBook C) : Except StorageError Unit :=
  if maxQiOperations < book.operations.records.length ∨
      maxQiCustodyAddresses < book.addresses.records.length then .error .invalid
  else do
    let _ ← book.operations.records.foldlM book.validateOperation []
    .ok ()

def readAddress (C : Crypto) (previous : Option Address) : Reader StorageError PublicAddress := do
  let metadata ← readBlob
  let a ← lift (fromMetadata C metadata)
  if ∃ old ∈ previous, a.address ≤ old then fail .invalid else pure a

def readOutPoint : Reader StorageError OutPoint := do
  let hash ← readHash
  let index ← number .invalid 2
  pure ⟨hash, UInt16.ofNat index⟩

def readOwner : Reader StorageError QiAddress := do
  let bytes ← take .invalid 20
  lift (do
    let address ← (Address.tryFrom bytes).mapError fun _ => invalid
    (LedgerAddress.tryFrom .qi address).mapError fun _ => invalid)

def readClaim : Reader StorageError QiInputClaim := do
  let outpoint ← readOutPoint
  let owner ← readOwner
  pure ⟨outpoint, owner⟩

def readClaims : Reader StorageError (List QiInputClaim) := do
  let n ← number .invalid 2
  if 4096 < n then fail .invalid
  else repeated readClaim n

def readOperation (previous : Option ReservationId) : Reader StorageError QiOperation := do
  let id ← readId
  if ∃ old ∈ previous, id ≤ old then fail .invalid
  else do
    let state ← readState
    let reservationCheckpoint ← optional readFlag readBlock
    let claims ← readClaims
    let transaction ← optional readFlag readHash
    let inclusion ← optional readFlag readInclusion
    let payload ← readPayload
    let replacements ← readEdges
    pure ⟨id, state, reservationCheckpoint, claims, transaction, payload, replacements, inclusion⟩

def readBook (C : Crypto) (scope : NetworkScope) (identity : Hash32) :
    Reader StorageError (QiOperationBook C) := do
  let found ← take .invalid 8
  if found ≠ magic then fail .invalid
  else do
    let key ← take .invalid 65
    if key ≠ scope.key then fail .invalid
    else do
      let name ← take .invalid 32
      if name ≠ identity.bytes then fail .invalid
      else do
        let book ← lift (new C scope identity)
        let count ← number .invalid 2
        if maxQiCustodyAddresses < count then fail .invalid
        else do
          let addresses ← registered (readAddress C) (addAddress scope) count none
            book.addresses
          let count ← number .invalid 2
          if maxQiOperations < count then fail .invalid
          else do
            let operations ← registered readOperation
              (fun op operations => .ok (operations.insert op)) count none book.operations
            pure { book with addresses, operations }

def fromState (C : Crypto) (bytes : Bytes) (scope : NetworkScope) (identity : Hash32) :
    Except StorageError (QiOperationBook C) :=
  if maxCustodyBytes < bytes.length then .error .invalid
  else do
    let (book, rest) ← readBook C scope identity bytes
    if rest ≠ [] then .error .invalid
    else do
      book.validate
      .ok book

/-- `claims.sort_by_key(|c| c.outpoint)`. -/
def sortClaims (claims : List QiInputClaim) : List QiInputClaim :=
  claims.insertionSort fun a b => a.outpoint ≤ b.outpoint

def importClaim (claim : OutPoint × Address) : Except StorageError QiInputClaim := do
  let owner ← (LedgerAddress.tryFrom .qi claim.2).mapError fun _ => invalid
  .ok ⟨claim.1, owner⟩

def importOperation (operations : Registry QiOperation.id) (source : OperationState) :
    Except StorageError (Registry QiOperation.id) :=
  if source.nonce ≠ none then .ok operations
  else if maxQiOperations ≤ operations.records.length then .error .invalid
  else do
    let claims ← source.qi.mapM importClaim
    if (operations.get? source.record.id).isSome then .error .conflict
    else .ok (operations.insert
      ⟨source.record.id, importedState source.record.state, none, sortClaims claims,
        source.record.transaction, source.payload, source.replacements, none⟩)

def importAddress (scope : NetworkScope) (addresses : Registry address)
    (a : PublicAddress) : Except StorageError (Registry PublicAddress.address) :=
  if (LedgerAddress.tryFrom .qi a.address).isOk then addAddress scope a addresses else .ok addresses

def fromBackup (backup : WalletBackup B) (scope : NetworkScope) (identity : Hash32) :
    Except StorageError (QiOperationBook B.toCrypto) := do
  let source ← okOr (backup.scopeState scope) invalid
  let book ← new B.toCrypto scope identity
  let addresses ← source.addresses.foldlM (importAddress scope) book.addresses
  let operations ← source.operations.foldlM importOperation book.operations
  let book := { book with addresses, operations }
  book.validate
  let _ ← book.exportState
  .ok book

abbrev Update (C : Crypto) (α : Type) := Method StorageError (QiOperationBook C) α

open Method

def custody : CustodyBook (QiOperationBook C) QiOperation where
  id := QiOperation.id
  operations := operations
  setOperations book operations := { book with operations }
  exportState := exportState
  state := QiOperation.state
  transaction := QiOperation.transaction
  payload := QiOperation.payload
  inclusion := QiOperation.inclusion
  containsCandidate := QiOperation.containsCandidate C
  decidableCandidate := QiOperation.decidableContains
  observe op state inclusion := { op with state, inclusion }
  sign op state payload hash := { op with payload := some payload, transaction := some hash, state }

/-- Owners of one request are distinct; the state is those seen and the addresses so far. -/
def reserveOwner (scope : NetworkScope) (s : List Address × Registry address)
    (owner : PublicAddress) :
    Except StorageError (List Address × Registry address) :=
  if owner.address ∈ s.1 then .error .invalid
  else do
    let addresses ← addAddress scope owner s.2
    .ok (owner.address :: s.1, addresses)

def reserveCoin (book : QiOperationBook C) (candidateHeight : ℕ) (claims : List QiInputClaim)
    (coin : CandidateCoin) : Except StorageError (List QiInputClaim) :=
  let claim : QiInputClaim := ⟨coin.outpoint, coin.address⟩
  if ¬book.ValidOutpoint claim ∨ claim.outpoint ∈ claims.map QiInputClaim.outpoint ∨
      coin.reserved = true ∨ candidateHeight < coin.unlockHeight ∨
      ∃ h ∈ coin.expiresAt, h ≤ coin.unlockHeight ∨ h ≤ candidateHeight then .error .invalid
  else if claim.outpoint ∈ book.claimedOutpoints then .error .conflict
  else .ok (claims ++ [claim])

def reserve (id : ReservationId) (checkpoint : Block) (candidateHeight : ℕ)
    (coins : List CandidateCoin) (owners : List PublicAddress) : Update C Unit := do
  let book ← self
  if (book.operations.get? id).isSome then fail .conflict
  else if maxQiOperations ≤ book.operations.records.length ∨ checkpoint.hash = Hash32.zero ∨
      candidateHeight < checkpoint.height.toNat ∨ coins = [] ∨ 4096 < coins.length ∨
      maxQiCustodyAddresses < owners.length then fail .invalid
  else do
    let (_, addresses) ← lift (owners.foldlM (reserveOwner book.scope) ([], book.addresses))
    let candidate : QiOperationBook C := { book with addresses }
    let claims ← lift (coins.foldlM (candidate.reserveCoin candidateHeight) [])
    let op : QiOperation :=
      ⟨id, .reserved, some checkpoint, sortClaims claims, none, none, [], none⟩
    let candidate : QiOperationBook C :=
      { candidate with operations := candidate.operations.insert op }
    let _ ← lift candidate.exportState
    assign candidate

def releaseUnsigned (id : ReservationId) : Update C Unit := do
  let op ← custody.getMut id
  if op.state ≠ .reserved then fail .transition
  else custody.put { op with state := .released, claims := [] }

def commitSigned (id : ReservationId) (signed : SignedQiOperation C) : Update C Unit := do
  let book ← self
  lift (book.checkInputs id signed.transaction)
  let hash ← lift (orInvalid signed.hash)
  if hash.byte 0 ≠ book.scope.zone.byte then fail .invalid
  else do
    let payload ← lift (orInvalid signed.signedBytes)
    let op ← custody.getMut id
    custody.commitPayload op payload hash

def commitReplacement (id : ReservationId) (parent : Hash32) (signed : SignedQiOperation C) :
    Update C Unit := do
  let op ← custody.getMut id
  if op.state ≠ .signed ∧ op.state ≠ .submitted then fail .transition
  else do
    let payload ← lift (orInvalid signed.signedBytes)
    if ⟨parent, payload⟩ ∈ op.replacements then pure ()
    else do
      let replacements := op.replacements ++ [⟨parent, payload⟩]
      let root ← lift (okOr op.payload .invalid)
      lift (validateFamily C root replacements)
      custody.install { op with replacements }

def markSubmitted (id : ReservationId) : Update C Unit := custody.markSubmitted id

def observeInclusion (id : ReservationId) (hash : Hash32) (block : Block) : Update C Unit :=
  custody.observeInclusion id hash block

def invalidateInclusion (id : ReservationId) (expected : Hash32 × Block) : Update C Unit :=
  custody.invalidateInclusion id expected

/-- One live operation with the backup's record of it, and the edges it gains. -/
def mergeOperation (live source : QiOperation) : Except StorageError (QiOperation × ℕ) :=
  if (live.claims ≠ [] ∧ source.claims ≠ [] ∧ live.claims ≠ source.claims) ∨
      disagree live.transaction source.transaction ∨ disagree live.payload source.payload then
    .error .conflict
  else
    -- a released live operation that the backup knows signed holds its inputs again
    let claims := if source.transaction.isSome ∧ live.claims = [] then source.claims else live.claims
    let transaction := live.transaction.or source.transaction
    let (replacements, gained) := mergeEdges live.replacements source.replacements
    let state := if transaction.isSome then mergeState live.state source.state else live.state
    .ok ({ live with
      claims, transaction, payload := live.payload.or source.payload, replacements, state }, gained)

def mergeSource (s : Registry QiOperation.id × QiMergeReport) (source : QiOperation) :
    Except StorageError (Registry QiOperation.id × QiMergeReport) :=
  match s.1.get? source.id with
  | none => .ok (s.1.insert source,
      { s.2 with
        operationsAdded := s.2.operationsAdded + 1
        candidatesAdded := s.2.candidatesAdded + source.replacements.length })
  | some live => do
    let (op, gained) ← mergeOperation live source
    .ok (s.1.insert op, { s.2 with candidatesAdded := s.2.candidatesAdded + gained })

def mergeAddress (scope : NetworkScope) (s : Registry address × QiMergeReport)
    (a : PublicAddress) : Except StorageError (Registry address × QiMergeReport) := do
  let addressesAdded :=
    if (s.1.get? a.address).isSome then s.2.addressesAdded else s.2.addressesAdded + 1
  let addresses ← addAddress scope a s.1
  .ok (addresses, { s.2 with addressesAdded })

/-- Observations are dropped for fresh reconciliation. -/
def dropObservations (op : QiOperation) : QiOperation :=
  { op with inclusion := none, reservationCheckpoint := none, state := importedState op.state }

theorem dropObservations_id (op : QiOperation) : (dropObservations op).id = op.id := rfl

def merged (book incoming : QiOperationBook C) :
    Except StorageError (QiOperationBook C × QiMergeReport) := do
  let (addresses, report) ← incoming.addresses.records.foldlM (mergeAddress book.scope)
    (book.addresses, ⟨0, 0, 0, 0, 0⟩)
  let (operations, report) ← incoming.operations.records.foldlM mergeSource
    (book.operations, report)
  let invalidatedInclusions := operations.records.countP fun op => op.inclusion.isSome
  let invalidatedCheckpoints := operations.records.countP fun op => op.reservationCheckpoint.isSome
  let candidate :=
    { book with addresses, operations := operations.map dropObservations dropObservations_id }
  candidate.validate
  let _ ← candidate.exportState
  .ok (candidate, { report with invalidatedInclusions, invalidatedCheckpoints })

def mergeBackup (backup : WalletBackup B) : Update B.toCrypto QiMergeReport := do
  let book ← self
  let incoming ← lift (fromBackup backup book.scope book.identity)
  let (candidate, report) ← lift (book.merged incoming)
  assign candidate
  pure report

end QiOperationBook

end QuaiSdk.Books
