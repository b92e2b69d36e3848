import QuaiSdk.Books.QiSteps
import QuaiSdk.Lib.Run

/-!
# Qi operation books keep their custody

Over any sequence of calls no outpoint is held twice, signed claims stay as they were signed, and no
origin is forgotten or rebound; a failed call leaves the book as it was.
-/

namespace QuaiSdk.Books

open Result Wallet Storage

variable {C : Crypto} {B : Backend}

/-- The public addresses of a backup are values of their type. -/
structure CheckedBackup (B : Backend) extends WalletBackup B where
  wellFormed : ∀ a ∈ toWalletBackup.publicAddresses, a.WellFormed B.toCrypto

inductive QiAction (B : Backend) where
  | reserve (id : ReservationId) (checkpoint : Block) (candidateHeight : ℕ)
      (coins : List CandidateCoin) (owners : List (PublicAddress.Checked B.toCrypto))
  | releaseUnsigned (id : ReservationId)
  | commitSigned (id : ReservationId) (signed : SignedQiOperation B.toCrypto)
  | commitReplacement (id : ReservationId) (parent : Hash32) (signed : SignedQiOperation B.toCrypto)
  | markSubmitted (id : ReservationId)
  | observeInclusion (id : ReservationId) (hash : Hash32) (block : Block)
  | invalidateInclusion (id : ReservationId) (expected : Hash32 × Block)
  | mergeBackup (backup : CheckedBackup B)

def QiAction.publicAddresses : QiAction B → List PublicAddress
  | .reserve _ _ _ _ owners => owners.map PublicAddress.Checked.toPublicAddress
  | .mergeBackup backup => backup.publicAddresses
  | _ => []

theorem QiAction.wellFormed (action : QiAction B) :
    ∀ a ∈ action.publicAddresses, a.WellFormed B.toCrypto := by
  cases action with
  | reserve _ _ _ _ owners => exact List.forall_mem_map.mpr fun a _ => a.wellFormed
  | mergeBackup backup => exact backup.wellFormed
  | _ => nofun

namespace QiOperationBook

def perform : QiAction B → Update B.toCrypto Unit
  | .reserve id checkpoint candidateHeight coins owners =>
    reserve id checkpoint candidateHeight coins
      (owners.map PublicAddress.Checked.toPublicAddress)
  | .releaseUnsigned id => releaseUnsigned id
  | .commitSigned id signed => commitSigned id signed
  | .commitReplacement id parent signed => commitReplacement id parent signed
  | .markSubmitted id => markSubmitted id
  | .observeInclusion id hash block => observeInclusion id hash block
  | .invalidateInclusion id expected => invalidateInclusion id expected
  | .mergeBackup backup => do
    let _ ← mergeBackup backup.toWalletBackup
    pure ()

def next (book : QiOperationBook B.toCrypto) (a : QiAction B) : QiOperationBook B.toCrypto :=
  (perform a book).2

section Atomicity

open Method

theorem perform_atomic (a : QiAction B) : Atomic (perform a) := by
  cases a with
  | reserve =>
    exact .bind .self fun book => .ite (.fail _) (.ite (.fail _) (.bind (.lift _) fun added =>
      .bind (.lift _) fun claims => .bind (.lift _) fun bytes => .assign _))
  | releaseUnsigned id =>
    exact .bind (custody.getMut_readOnly id) fun op => .ite (.fail _) (custody.put_atomic _)
  | commitSigned id =>
    exact .bind .self fun book => .bind (.lift _) fun _ => .bind (.lift _) fun hash =>
      .ite (.fail _) (.bind (.lift _) fun payload => .bind (custody.getMut_readOnly id) fun op =>
        custody.commitPayload_atomic _ _ _)
  | commitReplacement id =>
    exact .bind (custody.getMut_readOnly id) fun op => .ite (.fail _) (.bind (.lift _) fun payload =>
      .ite (.pure _) (.bind (.lift _) fun root => .bind (.lift _) fun _ => custody.install_atomic _))
  | markSubmitted id => exact custody.markSubmitted_atomic id
  | observeInclusion id hash block => exact custody.observeInclusion_atomic id hash block
  | invalidateInclusion id expected => exact custody.invalidateInclusion_atomic id expected
  | mergeBackup =>
    refine .map (.bind .self fun book => .bind (.lift _) fun incoming => .bind (.lift _) fun m => ?_) _
    exact .map (.assign _) _

end Atomicity

variable {book : QiOperationBook B.toCrypto}

theorem perform_change {book' : QiOperationBook B.toCrypto} {a : QiAction B} {u : Unit}
    (hvalid : book.Valid) (h : perform a book = (.ok u, book')) :
    Change book a.publicAddresses book' := by
  cases a with
  | reserve => exact reserve_change h
  | releaseUnsigned => exact releaseUnsigned_change hvalid h
  | commitSigned => exact commitSigned_change hvalid h
  | commitReplacement => exact commitReplacement_change hvalid h
  | markSubmitted => exact custody_keeps.markSubmitted_change hvalid h
  | observeInclusion => exact custody_keeps.observeInclusion_change hvalid h
  | invalidateInclusion => exact custody_keeps.invalidateInclusion_change hvalid h
  | mergeBackup =>
    obtain ⟨report, hcall, -⟩ := Method.map_eq_ok.mp h
    exact mergeBackup_change hvalid hcall

theorem next_change (hvalid : book.Valid) (a : QiAction B) :
    Change book a.publicAddresses (next book a) :=
  (perform_atomic a).related (R := fun s t => Change s a.publicAddresses t) .same
    fun _ _ h => perform_change hvalid h

inductive Started : QiOperationBook B.toCrypto → Prop where
  | new {scope identity book} (h : new B.toCrypto scope identity = .ok book) : Started book
  | fromState {bytes scope identity book}
      (h : fromState B.toCrypto bytes scope identity = .ok book) : Started book
  | fromBackup {backup : CheckedBackup B} {scope identity book}
      (h : fromBackup backup.toWalletBackup scope identity = .ok book) : Started book

theorem Started.valid (h : Started book) : book.Valid := by
  cases h with
  | new h =>
    obtain ⟨-, -, haddresses, hoperations⟩ := new_eq_ok h
    constructor
    · rw [hoperations]
      exact Nat.zero_le _
    · rw [haddresses]
      exact Nat.zero_le _
    · rw [claimedOutpoints, hoperations]
      exact List.nodup_nil
    · rw [hoperations]
      simp [Registry.empty]
  | fromState h =>
    simp only [QiOperationBook.fromState, eq_ok] at h
    obtain ⟨-, ⟨read, rest⟩, -, -, _, hvalidate, h⟩ := h
    cases h
    exact validate_eq_ok.mp hvalidate
  | fromBackup h => exact (fromBackup_eq_ok h).1

theorem run_kept (hvalid : book.Valid) (actions : List (QiAction B)) :
    (Run.run next book actions).Valid ∧ Retains book (Run.run next book actions) :=
  Run.run_related (fun _ hs => Retains.refl hs)
    (fun _ _ _ hst htu => ⟨List.Subset.trans hst.addresses htu.addresses,
      hst.operations.trans .trans htu.operations⟩)
    (fun _ a hs => ⟨(next_change hs a).valid hs, (next_change hs a).retains hs⟩) hvalid actions

def candidatePayloads (op : QiOperation) : List Bytes :=
  op.payload.toList ++ op.replacements.map QuaiReplacement.payload

theorem candidate_inputs {book : QiOperationBook C} {op : QiOperation} (h : op.Sound book)
    {payload : Bytes} (hpayload : payload ∈ candidatePayloads op) :
    ∃ signed, SignedQiOperation.decode C payload = .ok signed ∧
      (signed.transaction.inputs.map fun i => (i.previousOutput, C.address i.publicKey)).Perm
        (op.claims.map fun c => (c.outpoint, c.owner.address)) := by
  have hroot : ∃ root, op.payload = some root := by
    cases hnone : op.payload with
    | some root => exact ⟨root, rfl⟩
    | none =>
      rw [candidatePayloads, hnone, h.edges hnone] at hpayload
      cases hpayload
  obtain ⟨root, hroot⟩ := hroot
  obtain ⟨tx, hash, htx, -, -, hclaims, hfamily⟩ := h.root root hroot
  have hperm := inputs_perm_claims hclaims
  rw [candidatePayloads, hroot] at hpayload
  rcases List.mem_append.mp hpayload with hfirst | hmem
  · rw [Option.toList_some, List.mem_singleton] at hfirst
    rw [hfirst]
    exact ⟨tx, htx, hperm⟩
  · obtain ⟨edge, hedge, rfl⟩ := List.mem_map.mp hmem
    obtain ⟨signed, hsigned, hinputs⟩ := qiFamily_inputs hfamily htx hedge
    exact ⟨signed, hsigned, by rw [hinputs]; exact hperm⟩

/-- Custody over a whole run: operations hold disjoint outpoints, exactly the released ones hold none,
signatures spend exactly the claims, and from any point of the run to its end no identifier, origin or
signed claim is lost or changed. -/
theorem qi_custody_kept (start : QiOperationBook B.toCrypto) (hstart : Started start)
    (before after : List (QiAction B)) :
    let early := Run.run next start before
    let late := Run.run next early after
    (late.operations.records.Pairwise fun a b =>
      ∀ c ∈ a.claims, ∀ d ∈ b.claims, c.outpoint ≠ d.outpoint) ∧
    (∀ op ∈ late.operations.records, op.claims ≠ [] ↔ op.state ≠ .released) ∧
    (∀ op ∈ late.operations.records, ∀ payload ∈ candidatePayloads op,
      ∃ signed, SignedQiOperation.decode B.toCrypto payload = .ok signed ∧
        (signed.transaction.inputs.map fun i => (i.previousOutput, B.address i.publicKey)).Perm
          (op.claims.map fun c => (c.outpoint, c.owner.address))) ∧
    (∀ id op, early.operations.get? id = some op →
      ∃ op', late.operations.get? id = some op' ∧
        ∀ hash, op.transaction = some hash →
          op'.transaction = some hash ∧ op'.claims = op.claims) ∧
    (∀ address origin, early.addresses.get? address = some origin →
      late.addresses.get? address = some origin) ∧
    late.validate = .ok () ∧
    ∀ a e t, perform a late = (.error e, t) → t = late := by
  intro early late
  obtain ⟨hearly, -⟩ := run_kept hstart.valid before
  obtain ⟨hlate, hkept⟩ := run_kept hearly after
  refine ⟨?_, ?_, ?_, ?_, ?_, validate_eq_ok.mpr hlate, ?_⟩
  · obtain ⟨-, hapart⟩ := List.nodup_flatMap.mp hlate.distinct
    refine hapart.imp ?_
    intro a b hdisjoint c hc d hd heq
    exact hdisjoint (List.mem_map_of_mem hc) (heq ▸ List.mem_map_of_mem hd)
  · exact fun op hop => not_congr (hlate.sound op hop).released.symm
  · exact fun op hop payload hpayload => candidate_inputs (hlate.sound op hop) hpayload
  · intro id op hop
    obtain ⟨op', hop', hsame⟩ := hkept.operations id op hop
    refine ⟨op', hop', ?_⟩
    intro hash htransaction
    obtain ⟨htransaction', -, hclaims⟩ := hsame.signed hash htransaction
    exact ⟨htransaction', hclaims⟩
  · intro address origin horigin
    rw [Registry.get?_eq_some] at horigin ⊢
    exact ⟨hkept.addresses horigin.1, horigin.2⟩
  · exact fun a e t h => perform_atomic a late e t h

/-! The owner of `coinTransfer` reserves the coin, signs, submits and sees it included. -/

def coinKeeper : Backend := Backend.ofHd (KnownKeys.hd ⟨[], []⟩
  { addresses := [(coinOwnerKey, Address.ofNat 0x00edf2d16afbc028fb1e879559b07997af79539f)]
    digests := [(coinTransferBytes, coinTransferDigest), (coinTransferSignedBytes,
      Hash32.ofNat 0x3ad110fb28826b3252dc4e4eda9c55586d4a2de37a20253c79865579d55b74ac)]
    schnorr := [([coinOwnerKey], coinTransferDigest, coinTransferSignature)]
    recoveries := [] })

def heldCoin : CandidateCoin :=
  ⟨coinInput.previousOutput, ⟨Address.ofNat 0x00edf2d16afbc028fb1e879559b07997af79539f, .cyprus1,
    by decide +kernel, by decide +kernel⟩, ⟨6, by decide⟩, 0, none, false⟩

def coinSigned : SignedQiOperation coinKeeper.toCrypto := .transfer
  { transaction :=
      ⟨U256.ofNat 9, [⟨coinInput.previousOutput, ⟨coinOwnerKey, coinOwnerKey_length⟩⟩],
        coinTransfer.outputs, []⟩
    signature := ⟨coinTransferSignature, coinTransferSignature_length⟩
    verified := by decide +kernel }

def coinOwnerAddress : PublicAddress.Checked coinKeeper.toCrypto :=
  ⟨⟨heldCoin.address.address, coinOwnerKey, .importedPublic⟩, by decide +kernel, by decide +kernel⟩

def coinActions : List (QiAction coinKeeper) :=
  [.reserve sampleId ⟨Hash32.ofNat 7, U256.ofNat 10⟩ 11 [heldCoin] [coinOwnerAddress],
    .commitSigned sampleId coinSigned, .markSubmitted sampleId,
    .observeInclusion sampleId
      (Hash32.ofNat 0x00d100fb28826b3252dc4e4eda9c55586d4a2de37a20253c79865579d55b74ac)
      ⟨Hash32.ofNat 8, U256.ofNat 11⟩]

/-- The run ends with the coin held by a confirmed operation, in a valid book. -/
theorem qi_custody_kept_coin :
    ∃ start, new coinKeeper.toCrypto sampleScope (Hash32.ofNat 1) = .ok start ∧
      ((Run.run next start coinActions).operations.get? sampleId).map
        (fun op => (op.claims.map QiInputClaim.outpoint, op.state)) =
          some ([heldCoin.outpoint], .confirmed) ∧
      (Run.run next start coinActions).validate = .ok () := by
  obtain ⟨start, hstart⟩ := exists_of_isOk
    (show (new coinKeeper.toCrypto sampleScope (Hash32.ofNat 1)).isOk = true by decide +kernel)
  refine ⟨start, hstart, ?_, ?_⟩
  · have hrun : (new coinKeeper.toCrypto sampleScope (Hash32.ofNat 1)).map (fun book =>
        ((Run.run next book coinActions).operations.get? sampleId).map
          fun op => (op.claims.map QiInputClaim.outpoint, op.state)) =
        .ok (some ([heldCoin.outpoint], .confirmed)) := by decide +kernel
    rw [hstart] at hrun
    exact Except.ok.inj hrun
  · obtain ⟨-, -, -, -, -, hvalid, -⟩ := qi_custody_kept start (.new hstart) coinActions []
    exact hvalid

end QiOperationBook

end QuaiSdk.Books
