import QuaiSdk.Books.AccountSteps
import QuaiSdk.Lib.Run

/-!
# Account operation books keep their custody

Over any sequence of calls a book stays valid and forgets nothing that was signed; a failed call
leaves it as it was.
-/

namespace QuaiSdk.Books

open Result Wallet Storage

variable {C : Crypto} {B : Backend}

inductive AccountAction (B : Backend) where
  | reserveNonce (id : ReservationId) (remotePending : UInt64)
  | releaseUnsigned (id : ReservationId)
  | reopenUnsigned (id : ReservationId)
  | commitSigned (id : ReservationId) (signed : SignedQuaiTransaction B.toCrypto)
  | commitReplacement (id : ReservationId) (parent : Hash32)
      (signed : SignedQuaiTransaction B.toCrypto)
  | markSubmitted (id : ReservationId)
  | observeInclusion (id : ReservationId) (hash : Hash32) (block : Block)
  | invalidateInclusion (id : ReservationId) (expected : Hash32 × Block)
  | mergeBackup (backup : WalletBackup B)

namespace AccountOperationBook

def perform : AccountAction B → Update B.toCrypto Unit
  | .reserveNonce id remotePending => do
    let _ ← reserveNonce id remotePending
    pure ()
  | .releaseUnsigned id => releaseUnsigned id
  | .reopenUnsigned id => reopenUnsigned id
  | .commitSigned id signed => commitSigned id signed
  | .commitReplacement id parent signed => commitReplacement id parent signed
  | .markSubmitted id => markSubmitted id
  | .observeInclusion id hash block => observeInclusion id hash block
  | .invalidateInclusion id expected => invalidateInclusion id expected
  | .mergeBackup backup => do
    let _ ← mergeBackup backup
    pure ()

def next (book : AccountOperationBook B.toCrypto) (a : AccountAction B) :
    AccountOperationBook B.toCrypto := (perform a book).2

section Atomicity

open Method

theorem perform_atomic (a : AccountAction B) : Atomic (perform a) := by
  cases a with
  | reserveNonce =>
    refine .map (.bind .self fun book => .ite (.fail _) (.ite (.fail _) (.ite (.fail _) ?_))) _
    exact .bind (.lift _) fun _ => .map (.assign _) _
  | releaseUnsigned id | reopenUnsigned id =>
    exact .bind (custody.getMut_readOnly id) fun op => .ite (.fail _) (custody.put_atomic _)
  | commitSigned id =>
    exact .bind (custody.getMut_readOnly id) fun op => .bind (.lift _) fun payload =>
      .bind .self fun book => .bind (.lift _) fun hash => custody.commitPayload_atomic _ _ _
  | commitReplacement id =>
    exact .bind (custody.getMut_readOnly id) fun op => .ite (.fail _) (.bind (.lift _) fun root =>
      .bind (.lift _) fun payload => .ite (.pure _) (.bind (.lift _) fun _ =>
        custody.install_atomic _))
  | markSubmitted id => exact custody.markSubmitted_atomic id
  | observeInclusion id hash block => exact custody.observeInclusion_atomic id hash block
  | invalidateInclusion id expected => exact custody.invalidateInclusion_atomic id expected
  | mergeBackup =>
    refine .map (.bind .self fun book => .bind (.lift _) fun incoming => .bind (.lift _) fun m => ?_) _
    exact .map (.assign _) _

end Atomicity

variable {book : AccountOperationBook B.toCrypto}

theorem perform_change {book' : AccountOperationBook B.toCrypto} {a : AccountAction B} {u : Unit}
    (hvalid : book.Valid) (h : perform a book = (.ok u, book')) : Change book book' := by
  cases a with
  | reserveNonce =>
    obtain ⟨nonce, hcall, -⟩ := Method.map_eq_ok.mp h
    exact reserveNonce_change hcall
  | releaseUnsigned => exact releaseUnsigned_change hvalid h
  | reopenUnsigned => exact reopenUnsigned_change hvalid h
  | commitSigned => exact commitSigned_change hvalid h
  | commitReplacement => exact commitReplacement_change hvalid h
  | markSubmitted => exact custody_keeps.markSubmitted_change hvalid h
  | observeInclusion => exact custody_keeps.observeInclusion_change hvalid h
  | invalidateInclusion => exact custody_keeps.invalidateInclusion_change hvalid h
  | mergeBackup =>
    obtain ⟨report, hcall, -⟩ := Method.map_eq_ok.mp h
    exact mergeBackup_change hvalid hcall

theorem next_change (hvalid : book.Valid) (a : AccountAction B) : Change book (next book a) :=
  (perform_atomic a).related .same fun _ _ h => perform_change hvalid h

inductive Started : AccountOperationBook B.toCrypto → Prop where
  | new {scope owner firstNonce book} (h : new scope owner firstNonce = .ok book) : Started book
  | fromState {bytes scope owner book} (h : fromState bytes scope owner = .ok book) : Started book
  | fromBackup {backup : WalletBackup B} {scope owner book}
      (h : fromBackup backup scope owner = .ok book) : Started book

theorem new_eq_ok {scope : NetworkScope} {owner : C.PublicKey} {firstNonce : UInt64}
    {book : AccountOperationBook C} (h : new scope owner firstNonce = .ok book) :
    book.scope = scope ∧ book.owner = owner ∧ book.nextNonce = firstNonce ∧
      book.operations = .empty := by
  unfold new at h
  split at h
  · cases h
  · split at h
    · cases h
      exact ⟨rfl, rfl, rfl, rfl⟩
    · cases h

theorem Started.valid (h : Started book) : book.Valid := by
  cases h with
  | new h =>
    obtain ⟨-, -, -, hempty⟩ := new_eq_ok h
    constructor <;> rw [hempty]
    · exact Nat.zero_le _
    · exact List.nodup_nil
    · simp [Registry.empty]
    · simp [Registry.empty]
  | fromState h =>
    simp only [AccountOperationBook.fromState, eq_ok] at h
    obtain ⟨-, ⟨read, rest⟩, -, -, _, hvalidate, h⟩ := h
    cases h
    exact validate_eq_ok.mp hvalidate
  | fromBackup h =>
    simp only [AccountOperationBook.fromBackup, eq_ok] at h
    obtain ⟨state, -, -, first, -, operations, -, _, hvalidate, bytes, -, h⟩ := h
    cases h
    exact validate_eq_ok.mp hvalidate

theorem run_kept (hvalid : book.Valid) (actions : List (AccountAction B)) :
    (Run.run next book actions).Valid ∧ Retains book (Run.run next book actions) :=
  Run.run_related (fun _ hs => Retains.refl hs)
    (fun _ _ _ hst htu => ⟨UInt64.le_trans hst.next htu.next,
      hst.operations.trans .trans htu.operations⟩)
    (fun _ a hs => ⟨(next_change hs a).valid hs, (next_change hs a).retains hs⟩) hvalid actions

/-- Custody over a whole run: nonces are distinct and below the cursor, and from any point of the run
to its end the cursor does not fall and no identifier, nonce, hash, payload or edge is lost. -/
theorem account_custody_kept (start : AccountOperationBook B.toCrypto) (hstart : Started start)
    (before after : List (AccountAction B)) :
    let early := Run.run next start before
    let late := Run.run next early after
    (late.operations.records.Pairwise fun a b => a.nonce ≠ b.nonce) ∧
    (∀ op ∈ late.operations.records, op.nonce < late.nextNonce) ∧
    early.nextNonce ≤ late.nextNonce ∧
    (∀ id op, early.operations.get? id = some op →
      ∃ op', late.operations.get? id = some op' ∧ op'.nonce = op.nonce ∧
        ∀ hash, op.transaction = some hash →
          op'.state ≠ .reserved ∧ op'.state ≠ .released ∧ op'.transaction = some hash ∧
          (∀ p, op.payload = some p → op'.payload = some p) ∧
          ∀ edge ∈ op.replacements, edge ∈ op'.replacements) ∧
    late.validate = .ok () ∧
    ∀ a e t, perform a late = (.error e, t) → t = late := by
  intro early late
  obtain ⟨hearly, -⟩ := run_kept hstart.valid before
  obtain ⟨hlate, hkept⟩ := run_kept hearly after
  refine ⟨?_, hlate.below, hkept.next, ?_, validate_eq_ok.mpr hlate, ?_⟩
  · exact List.pairwise_map.mp hlate.distinct
  · intro id op hop
    obtain ⟨op', hop', hsame⟩ := hkept.operations id op hop
    refine ⟨op', hop', hsame.nonce, ?_⟩
    intro hash htransaction
    obtain ⟨htransaction', hsigned⟩ := hsame.signed hash htransaction
    refine ⟨?_, ?_, htransaction', hsame.payload, hsame.edges⟩
    all_goals
      rintro hstate
      rw [hstate] at hsigned
      cases hsigned
  · exact fun a e t h => perform_atomic a late e t h

/-! The account of `sampleTransfer` reserves its nonce, signs, submits and sees it included. -/

def sampleOwner : sampleWallet.PublicKey := ⟨sampleKeyBytes, by decide +kernel⟩

def sampleActions : List (AccountAction sampleWallet) :=
  [.reserveNonce sampleId 3, .commitSigned sampleId sampleSigned, .markSubmitted sampleId,
    .observeInclusion sampleId
      (Hash32.ofNat 0x004c004826e07da8065f8cda2abea5567a1a6416892214bb0e4484180f3ec148)
      ⟨Hash32.ofNat 8, U256.ofNat 11⟩]

/-- The run ends with the nonce confirmed, in a valid book. -/
theorem account_custody_kept_transfer :
    ∃ start, new sampleScope sampleOwner 0 = .ok start ∧
      ((Run.run next start sampleActions).operations.get? sampleId).map
        (fun op => (op.nonce, op.state)) = some (3, .confirmed) ∧
      (Run.run next start sampleActions).validate = .ok () := by
  obtain ⟨start, hstart⟩ := exists_of_isOk
    (show (new sampleScope sampleOwner 0).isOk = true by decide +kernel)
  refine ⟨start, hstart, ?_, ?_⟩
  · have hrun : (new sampleScope sampleOwner 0).map (fun book =>
        ((Run.run next book sampleActions).operations.get? sampleId).map
          fun op => (op.nonce, op.state)) = .ok (some (3, .confirmed)) := by decide +kernel
    rw [hstart] at hrun
    exact Except.ok.inj hrun
  · obtain ⟨-, -, -, -, hvalid, -⟩ := account_custody_kept start (.new hstart) sampleActions []
    exact hvalid

end AccountOperationBook

end QuaiSdk.Books
