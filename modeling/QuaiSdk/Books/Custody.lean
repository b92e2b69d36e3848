import QuaiSdk.Books.Codec
import QuaiSdk.Lib.Method
import QuaiSdk.Storage.Backup

/-!
# Custody books

What `account_custody.rs` and `qi_custody.rs` share: which states hold a signature, how a backup's
record joins a live one, and the calls that write the state, the signed payload or the inclusion of an
operation.
-/

namespace QuaiSdk.Storage

/-- `scope_state`: the state of one scope of a backup. -/
def WalletBackup.scopeState {B : Backend} (b : WalletBackup B) (scope : NetworkScope) :
    Option ScopeState :=
  b.state.scopes.find? fun s => s.scope = scope

def WalletBackup.publicAddresses {B : Backend} (b : WalletBackup B) : List PublicAddress :=
  b.state.scopes.flatMap ScopeState.addresses

end QuaiSdk.Storage

namespace QuaiSdk.Books

open Result Storage ReservationState

theorem isSigned_of_open {s : ReservationState} (h : ¬(s ≠ .signed ∧ s ≠ .submitted)) :
    isSigned s = true ∧ s ≠ .confirmed := by
  cases s <;> simp [isSigned] at h ⊢

theorem commit_state (s : ReservationState) :
    (s ≠ .released → isSigned (if s = .reserved then .signed else s) = true) ∧
      ((if s = .reserved then .signed else s) = .released ↔ s = .released) ∧
        ((if s = .reserved then .signed else s) = .confirmed ↔ s = .confirmed) := by
  cases s <;> decide

theorem bare_iff {s : ReservationState} {payload : Option Bytes} {edges : List QuaiReplacement} :
    ¬(isSigned s = false ∧ (payload.isSome = true ∨ edges ≠ [])) ↔
      (isSigned s = false → payload = none ∧ edges = []) := by
  rw [not_and, not_or, Option.not_isSome_iff_eq_none, not_not]

/-- A backup's inclusion cannot establish current canonicality. -/
def importedState (s : ReservationState) : ReservationState :=
  if s = .confirmed then .submitted else s

theorem isSigned_importedState (s : ReservationState) : isSigned (importedState s) = isSigned s := by
  cases s <;> rfl

/-- Edges that are not there yet are appended and counted. -/
def mergeEdges (live source : List QuaiReplacement) : List QuaiReplacement × ℕ :=
  source.foldl (fun s edge => if edge ∈ s.1 then s else (s.1 ++ [edge], s.2 + 1)) (live, 0)

/-- Signed evidence keeps a claim held, at the later of the two states. -/
def mergeState (live source : ReservationState) : ReservationState :=
  if live = .submitted ∨ live = .confirmed ∨ source = .submitted then .submitted else .signed

/-- Both are known and differ. -/
def disagree {α : Type} [DecidableEq α] (a b : Option α) : Prop := ∃ x ∈ a, ∃ y ∈ b, x ≠ y

instance {α : Type} [DecidableEq α] (a b : Option α) : Decidable (disagree a b) :=
  inferInstanceAs (Decidable (∃ x ∈ a, _))

theorem subset_mergeEdges (live source : List QuaiReplacement) :
    live ⊆ (mergeEdges live source).1 := by
  have hfold : ∀ (l : List QuaiReplacement) (s : List QuaiReplacement × ℕ),
      s.1 ⊆ (l.foldl (fun s edge => if edge ∈ s.1 then s else (s.1 ++ [edge], s.2 + 1)) s).1 := by
    intro l
    induction l with
    | nil => exact fun s => List.Subset.refl _
    | cons edge l ih =>
      intro s e he
      apply ih
      dsimp only
      split
      · exact he
      · exact List.mem_append_left _ he
  exact hfold source (live, 0)

theorem isSigned_mergeState (live source : ReservationState) :
    isSigned (mergeState live source) = true := by
  unfold mergeState
  split <;> rfl

/-- The operations of a book, and what the shared calls read and write of one. -/
structure CustodyBook (σ Op : Type) where
  id : Op → ReservationId
  operations : σ → Registry id
  setOperations : σ → Registry id → σ
  exportState : σ → Except StorageError Bytes
  state : Op → ReservationState
  transaction : Op → Option Hash32
  payload : Op → Option Bytes
  inclusion : Op → Option (Hash32 × Block)
  containsCandidate : Op → Hash32 → Prop
  decidableCandidate : ∀ op hash, Decidable (containsCandidate op hash)
  observe : Op → ReservationState → Option (Hash32 × Block) → Op
  sign : Op → ReservationState → Bytes → Hash32 → Op

namespace CustodyBook

open Method

variable {σ Op : Type} (K : CustodyBook σ Op)

instance (op : Op) (hash : Hash32) : Decidable (K.containsCandidate op hash) :=
  K.decidableCandidate op hash

def insert (book : σ) (op : Op) : σ := K.setOperations book ((K.operations book).insert op)

/-- `get_mut(id)?`, with a copy of the operation. -/
def getMut (id : ReservationId) : Method StorageError σ Op := do
  let book ← self
  lift (okOr ((K.operations book).get? id) .transition)

/-- A write through the reference of `get_mut`. -/
def put (op : Op) : Method StorageError σ Unit := do
  let book ← self
  assign (K.insert book op)

/-- A candidate book is exported before it is installed. -/
def install (op : Op) : Method StorageError σ Unit := do
  let book ← self
  let _ ← lift (K.exportState (K.insert book op))
  assign (K.insert book op)

/-- The end of `commit_signed`, for a payload that was checked against the operation. -/
def commitPayload (op : Op) (payload : Bytes) (hash : Hash32) : Method StorageError σ Unit :=
  if K.state op = .released ∨ ∃ old ∈ K.transaction op, old ≠ hash then fail .transition
  else
    match K.payload op with
    | some old => if old = payload then pure () else fail .conflict
    | none =>
      K.install (K.sign op (if K.state op = .reserved then .signed else K.state op) payload hash)

def markSubmitted (id : ReservationId) : Method StorageError σ Unit := do
  let op ← K.getMut id
  if K.state op = .submitted then pure ()
  else if K.state op ≠ .signed then fail .transition
  else K.put (K.observe op .submitted (K.inclusion op))

def observeInclusion (id : ReservationId) (hash : Hash32) (block : Block) :
    Method StorageError σ Unit := do
  let op ← K.getMut id
  if K.state op = .confirmed ∧ K.inclusion op = some (hash, block) then pure ()
  else if (K.state op ≠ .signed ∧ K.state op ≠ .submitted) ∨ ¬K.containsCandidate op hash ∨
      block.hash = Hash32.zero then fail .transition
  else K.install (K.observe op .confirmed (some (hash, block)))

def invalidateInclusion (id : ReservationId) (expected : Hash32 × Block) :
    Method StorageError σ Unit := do
  let op ← K.getMut id
  if K.state op ≠ .confirmed ∨ K.inclusion op ≠ some expected then fail .staleSnapshot
  else K.put (K.observe op .submitted none)

section Atomicity

theorem getMut_readOnly (id : ReservationId) : ReadOnly (K.getMut id) :=
  .bind .self fun _ => .lift _

theorem put_atomic (op : Op) : Atomic (K.put op) := .bind .self fun _ => .assign _

theorem install_atomic (op : Op) : Atomic (K.install op) :=
  .bind .self fun _ => .bind (.lift _) fun _ => .assign _

theorem commitPayload_atomic (op : Op) (payload : Bytes) (hash : Hash32) :
    Atomic (K.commitPayload op payload hash) := by
  refine .ite (.fail _) ?_
  cases K.payload op with
  | some => exact .ite (.pure _) (.fail _)
  | none => exact K.install_atomic _

theorem markSubmitted_atomic (id : ReservationId) : Atomic (K.markSubmitted id) :=
  .bind (K.getMut_readOnly id) fun _ => .ite (.pure _) (.ite (.fail _) (K.put_atomic _))

theorem observeInclusion_atomic (id : ReservationId) (hash : Hash32) (block : Block) :
    Atomic (K.observeInclusion id hash block) :=
  .bind (K.getMut_readOnly id) fun _ => .ite (.pure _) (.ite (.fail _) (K.install_atomic _))

theorem invalidateInclusion_atomic (id : ReservationId) (expected : Hash32 × Block) :
    Atomic (K.invalidateInclusion id expected) :=
  .bind (K.getMut_readOnly id) fun _ => .ite (.fail _) (K.put_atomic _)

end Atomicity

def Exportable (book : σ) : Prop := ∃ b, K.exportState book = .ok b

variable {K} {book book' : σ} {id : ReservationId} {op : Op} {u : Unit}

theorem getMut_bind_eq_ok {α : Type} {f : Op → Method StorageError σ α} {a : α} :
    (K.getMut id >>= f) book = (.ok a, book') ↔
      ∃ op, (K.operations book).get? id = some op ∧ f op book = (.ok a, book') := by
  refine lift_bind_eq_ok.trans ?_
  simp only [okOr_eq_ok]

theorem put_eq_ok : K.put op book = (.ok u, book') ↔ K.insert book op = book' := by
  rw [put, self_bind_eq_ok, assign_eq_ok]

theorem install_eq_ok : K.install op book = (.ok u, book') ↔
    K.Exportable (K.insert book op) ∧ K.insert book op = book' := by
  rw [install, self_bind_eq_ok, lift_bind_eq_ok]
  simp only [assign_eq_ok, exists_and_right, Exportable]

/-- A payload is stored unless it is there already. -/
theorem commitPayload_eq_ok {payload : Bytes} {hash : Hash32}
    (h : K.commitPayload op payload hash book = (.ok u, book')) :
    book' = book ∨ K.state op ≠ .released ∧ (∀ old ∈ K.transaction op, old = hash) ∧
      K.payload op = none ∧ K.install (K.sign op
        (if K.state op = .reserved then .signed else K.state op) payload hash) book =
          (.ok u, book') := by
  rw [commitPayload, ite_fail_eq_ok, not_or] at h
  obtain ⟨⟨hstate, hother⟩, h⟩ := h
  cases hpayload : K.payload op with
  | some old =>
    rw [hpayload] at h
    dsimp only at h
    split at h
    · exact .inl (Method.pure_eq_ok.mp h).2.symm
    · cases fail_ne_ok.mp h
  | none =>
    rw [hpayload] at h
    refine .inr ⟨hstate, ?_, rfl, h⟩
    intro old hold
    by_contra hne
    exact hother ⟨old, hold, hne⟩

/-- What a book does with an operation that is signed and stays so. -/
structure Keeps (K : CustodyBook σ Op) (Valid : σ → Prop) (Change : σ → σ → Prop) : Prop where
  same : ∀ book, Change book book
  unconfirmed : ∀ book, Valid book → ∀ op ∈ (K.operations book).records,
    K.state op ≠ .confirmed → K.inclusion op = none
  observe : ∀ book, Valid book → ∀ op, (K.operations book).get? (K.id op) = some op →
    isSigned (K.state op) = true → ∀ state inclusion, isSigned state = true →
    (state = .confirmed ↔ inclusion.isSome = true) →
    (∀ i ∈ inclusion, K.containsCandidate op i.1 ∧ i.2.hash ≠ Hash32.zero) →
    (K.Exportable (K.insert book (K.observe op state inclusion)) ∨
      inclusion = K.inclusion op ∨ inclusion = none) →
    Change book (K.insert book (K.observe op state inclusion))

namespace Keeps

variable {Valid : σ → Prop} {Change : σ → σ → Prop} (hK : K.Keeps Valid Change)
  (hvalid : Valid book)
include hK hvalid

theorem markSubmitted_change (h : K.markSubmitted id book = (.ok u, book')) : Change book book' := by
  rw [markSubmitted, getMut_bind_eq_ok] at h
  simp only [ite_pure_eq_ok, ite_fail_eq_ok, put_eq_ok, not_not] at h
  obtain ⟨op, hop, ⟨-, rfl⟩ | ⟨-, hstate, rfl⟩⟩ := h
  · exact hK.same book
  · obtain ⟨hmem, rfl⟩ := Registry.get?_eq_some.mp hop
    have hnone := hK.unconfirmed book hvalid op hmem (by rw [hstate]; decide)
    apply hK.observe book hvalid op hop (by rw [hstate]; rfl) _ _ rfl
    · rw [hnone]
      decide
    · rw [hnone]
      nofun
    · exact .inr (.inl rfl)

theorem observeInclusion_change {hash : Hash32} {block : Block}
    (h : K.observeInclusion id hash block book = (.ok u, book')) : Change book book' := by
  rw [observeInclusion, getMut_bind_eq_ok] at h
  simp only [ite_pure_eq_ok, ite_fail_eq_ok, install_eq_ok, not_or, not_not] at h
  obtain ⟨op, hop, ⟨-, rfl⟩ | ⟨-, ⟨hstate, hcandidate, hblock⟩, hexport, rfl⟩⟩ := h
  · exact hK.same book
  · obtain ⟨-, rfl⟩ := Registry.get?_eq_some.mp hop
    apply hK.observe book hvalid op hop (isSigned_of_open hstate).1 _ _ rfl
    · exact iff_of_true rfl rfl
    · rintro i ⟨⟩
      exact ⟨hcandidate, hblock⟩
    · exact .inl hexport

theorem invalidateInclusion_change {expected : Hash32 × Block}
    (h : K.invalidateInclusion id expected book = (.ok u, book')) : Change book book' := by
  rw [invalidateInclusion, getMut_bind_eq_ok] at h
  simp only [ite_fail_eq_ok, put_eq_ok, not_or, not_not] at h
  obtain ⟨op, hop, ⟨hstate, -⟩, rfl⟩ := h
  obtain ⟨-, rfl⟩ := Registry.get?_eq_some.mp hop
  apply hK.observe book hvalid op hop (by rw [hstate]; rfl) _ _ rfl
  · decide
  · nofun
  · exact .inr (.inr rfl)

end Keeps

end CustodyBook

end QuaiSdk.Books
