import QuaiSdk.Books.AllocationJournal
import QuaiSdk.Lib.Run

/-!
# Books over an allocation journal

The calls of an allocation book and its runs, whoever may ask, whatever it derives and however its
cursors are imported.  The two books are such ledgers.
-/

namespace QuaiSdk.Books

open Result Wallet Storage AllocationBook Method

/-- `imported` are the cursors of the book that `from_backup` opens, `reread` is `from_state` of the
book's own export. -/
structure AllocationLedger (σ ι A ω β : Type) where
  state : σ → AllocationBook ι A
  setState : σ → AllocationBook ι A → σ
  format : Format ι
  checkOwner : ω → σ → Except StorageError Unit
  exposure : ω → σ → Exposure ι A
  imported : ω → β → σ → Except StorageError (ι → ℕ)
  reread : ω → σ → Except StorageError σ

inductive AllocationAction (ι ω β : Type) where
  | reserve (id : AllocationId) (branch : ι) (attempts : ℕ)
  | complete (owner : ω) (id : AllocationId) (index : ℕ)
  | abandon (id : AllocationId)
  | mergeBackup (owner : ω) (backup : β)
  | reload (owner : ω)

namespace AllocationLedger

variable {σ ι A ω β : Type} [DecidableEq ι] (L : AllocationLedger σ ι A ω β)

def request {α : Type} (x : AllocationBook.Update ι A α) : Method StorageError σ α :=
  zoom L.state L.setState x

def reserve (id : AllocationId) (branch : ι) (attempts : ℕ) : Method StorageError σ Unit :=
  L.request (AllocationBook.reserve L.format.limit id branch attempts)

def complete (owner : ω) (id : AllocationId) (index : ℕ) : Method StorageError σ A := do
  let book ← self
  lift (L.checkOwner owner book)
  L.request (AllocationBook.complete (L.exposure owner book) id index)

def abandon (id : AllocationId) : Method StorageError σ Unit := L.request (AllocationBook.abandon id)

def mergeBackup (owner : ω) (backup : β) : Method StorageError σ ℕ := do
  let book ← self
  lift (L.checkOwner owner book)
  let incoming ← lift (L.imported owner backup book)
  L.request (mergeCursors incoming)

def reload (owner : ω) : Method StorageError σ Unit := do
  let book ← self
  lift (L.checkOwner owner book)
  let imported ← lift (L.reread owner book)
  assign imported

def perform : AllocationAction ι ω β → Method StorageError σ Unit
  | .reserve id branch attempts => L.reserve id branch attempts
  | .complete owner id index => do
    let _ ← L.complete owner id index
    pure ()
  | .abandon id => L.abandon id
  | .mergeBackup owner backup => do
    let _ ← L.mergeBackup owner backup
    pure ()
  | .reload owner => L.reload owner

def next (book : σ) (action : AllocationAction ι ω β) : σ := (L.perform action book).2

/-- A valid book of this owner. -/
structure Held (owner : ω) (book : σ) : Prop where
  checked : L.checkOwner owner book = .ok ()
  valid : (L.state book).Valid (L.exposure owner book) L.format

/-- What a book adds to its journal is apart from it, and its owners see the same book. -/
structure Lawful : Prop where
  state_set : ∀ book s, L.state (L.setState book s) = s
  set_state : ∀ book, L.setState book (L.state book) = book
  checkOwner_set : ∀ owner book s,
    L.checkOwner owner (L.setState book s) = L.checkOwner owner book
  exposure_set : ∀ owner book s, L.exposure owner (L.setState book s) = L.exposure owner book
  agree : ∀ owner owner' book, L.checkOwner owner book = .ok () →
    L.checkOwner owner' book = .ok () → L.exposure owner book = L.exposure owner' book
  imported_le : ∀ owner backup book next, L.imported owner backup book = .ok next →
    ∀ b, next b ≤ hardened
  reread_held : ∀ owner book, L.Held owner book → L.reread owner book = .ok book

/-- A later state of the same book. -/
def Follows (owner : ω) (book book' : σ) : Prop :=
  ∃ s, book' = L.setState book s ∧
    AllocationBook.Change (L.exposure owner book) L.format (L.state book) s

variable {L} {owner : ω} {book book' : σ} {id : AllocationId} {a : Allocation ι A}

omit [DecidableEq ι] in
theorem mergeBackup_eq_ok {backup : β} {n : ℕ} : L.mergeBackup owner backup book = (.ok n, book') ↔
    L.checkOwner owner book = .ok () ∧ ∃ incoming, L.imported owner backup book = .ok incoming ∧
      L.request (mergeCursors incoming) book = (.ok n, book') := by
  simp only [mergeBackup, self_bind_eq_ok, lift_bind_eq_ok]
  exact ⟨fun ⟨_, h⟩ => h, fun h => ⟨(), h⟩⟩

theorem run_mergeBackup {backup : β} {actions : List (AllocationAction ι ω β)} :
    Run.run L.next book (.mergeBackup owner backup :: actions) =
      Run.run L.next (L.mergeBackup owner backup book).2 actions := by
  rw [Run.run_cons, next, perform, bind_apply]
  rcases L.mergeBackup owner backup book with ⟨_ | n, book'⟩ <;> rfl

omit [DecidableEq ι] in
/-- What a merge finds open can never complete. -/
theorem mergeBackup_abandons (hL : ∀ book s, L.state (L.setState book s) = s) {backup : β} {n : ℕ}
    (h : L.mergeBackup owner backup book = (.ok n, book'))
    (ha : (L.state book).allocations.get? id = some a) (hopen : ∀ x, a.status ≠ .completed x) :
    ∃ b, (L.state book').allocations.get? id = some b ∧ b.status = .abandoned := by
  obtain ⟨-, incoming, -, h⟩ := mergeBackup_eq_ok.mp h
  rw [request, zoom_eq_ok] at h
  obtain ⟨s, hmerge, rfl⟩ := h
  rw [hL]
  exact mergeCursors_abandons hmerge ha hopen

namespace Lawful

variable (hL : L.Lawful)
include hL

theorem request_atomic {α : Type} {x : AllocationBook.Update ι A α} (hx : x.Atomic) :
    (L.request x).Atomic := .zoom hx hL.set_state

theorem perform_atomic (action : AllocationAction ι ω β) : (L.perform action).Atomic := by
  cases action with
  | reserve =>
    exact hL.request_atomic (.bind .self fun _ => .ite (.fail _) (.ite (.fail _)
      (.ite (.fail _) (.assign _))))
  | complete owner id index =>
    exact .map (.bind .self fun _ => .bind (.lift _) fun _ =>
      hL.request_atomic (complete_atomic _ id index)) _
  | abandon =>
    exact hL.request_atomic (.bind .self fun _ => .bind (.lift _) fun _ => .ite (.fail _) (.assign _))
  | mergeBackup =>
    exact .map (.bind .self fun _ => .bind (.lift _) fun _ => .bind (.lift _) fun _ =>
      hL.request_atomic (.bind .self fun _ => .map (.assign _) _)) _
  | reload =>
    exact .bind .self fun _ => .bind (.lift _) fun _ => .bind (.lift _) fun _ => .assign _

omit hL in
theorem request_follows {α : Type} {x : AllocationBook.Update ι A α} {a : α}
    (h : L.request x book = (.ok a, book')) (hx : ∀ s, x (L.state book) = (.ok a, s) →
      AllocationBook.Change (L.exposure owner book) L.format (L.state book) s) :
    L.Follows owner book book' := by
  rw [request, zoom_eq_ok] at h
  obtain ⟨s, hs, rfl⟩ := h
  exact ⟨s, rfl, hx s hs⟩

theorem same : L.Follows owner book book := ⟨_, (hL.set_state book).symm, .same⟩

variable (hheld : L.Held owner book)
include hheld

theorem mergeBackup_follows {owner' : ω} {backup : β} {n : ℕ}
    (h : L.mergeBackup owner' backup book = (.ok n, book')) : L.Follows owner book book' := by
  obtain ⟨-, incoming, hincoming, hrequest⟩ := mergeBackup_eq_ok.mp h
  exact request_follows hrequest fun s hs =>
    mergeCursors_change hheld.valid (hL.imported_le _ _ _ _ hincoming) hs

theorem perform_follows {action : AllocationAction ι ω β} {u : Unit}
    (h : L.perform action book = (.ok u, book')) : L.Follows owner book book' := by
  cases action with
  | reserve => exact request_follows h fun s hs => reserve_change hs
  | complete owner' =>
    obtain ⟨x, hcomplete, -⟩ := map_eq_ok.mp h
    obtain ⟨_, hchecked, hrequest⟩ := lift_bind_eq_ok.mp (self_bind_eq_ok.mp hcomplete)
    rw [← hL.agree owner owner' book hheld.checked hchecked] at hrequest
    exact request_follows hrequest fun s hs => complete_change hs
  | abandon => exact request_follows h fun s hs => abandon_change hs
  | mergeBackup =>
    obtain ⟨n, hmerge, -⟩ := map_eq_ok.mp h
    exact hL.mergeBackup_follows hheld hmerge
  | reload owner' =>
    obtain ⟨_, hchecked, hreload⟩ := lift_bind_eq_ok.mp (self_bind_eq_ok.mp h)
    obtain ⟨imported, himported, hassign⟩ := lift_bind_eq_ok.mp hreload
    obtain rfl := assign_eq_ok.mp hassign
    have hheld' : L.Held owner' book :=
      ⟨hchecked, hL.agree owner owner' book hheld.checked hchecked ▸ hheld.valid⟩
    cases (hL.reread_held owner' book hheld').symm.trans himported
    exact hL.same

theorem next_follows (action : AllocationAction ι ω β) :
    L.Follows owner book (L.next book action) :=
  (hL.perform_atomic action).related hL.same fun _ _ h => hL.perform_follows hheld h

theorem follows_held (h : L.Follows owner book book') :
    L.Held owner book' ∧ (L.state book).Grows (L.state book') := by
  obtain ⟨s, rfl, hchange⟩ := h
  refine ⟨⟨?_, ?_⟩, ?_⟩
  · rw [hL.checkOwner_set]
    exact hheld.checked
  · rw [hL.state_set, hL.exposure_set]
    exact hchange.valid hheld.valid
  · rw [hL.state_set]
    exact ⟨hchange.next_le, hchange.follows⟩

/-- Every run keeps the book its owner's and valid, and what it has recorded. -/
theorem run_grows (actions : List (AllocationAction ι ω β)) :
    L.Held owner (Run.run L.next book actions) ∧
      (L.state book).Grows (L.state (Run.run L.next book actions)) :=
  Run.run_related (I := L.Held owner) (R := fun early late => (L.state early).Grows (L.state late))
    (fun book _ => .refl (L.state book)) (fun _ _ _ hab hbc => hab.trans hbc)
    (fun _ action hbook => hL.follows_held hbook (hL.next_follows hbook action)) hheld actions

omit hheld in
theorem complete_abandoned (h : (L.state book).allocations.get? id = some a)
    (hstatus : a.status = .abandoned) (owner : ω) (index : ℕ) :
    ∃ e, L.complete owner id index book = (.error e, book) ∧
      (L.checkOwner owner book = .ok () → e = .transition) := by
  show ∃ e, (lift (L.checkOwner owner book) >>= fun _ =>
    L.request (AllocationBook.complete (L.exposure owner book) id index)) book = (.error e, book) ∧ _
  cases hcheck : L.checkOwner owner book with
  | error e => exact ⟨e, rfl, nofun⟩
  | ok =>
    refine ⟨.transition, ?_, fun _ => rfl⟩
    show L.request (AllocationBook.complete (L.exposure owner book) id index) book = _
    rw [request, zoom, AllocationBook.complete_abandoned h hstatus, hL.set_state]

/-- From any state of a run to its end: what is recorded stays, IDs cannot be reserved again, and what
a merge finds open cannot complete after it. -/
theorem run_kept (actions : List (AllocationAction ι ω β)) :
    let late := Run.run L.next book actions
    AllocationBook.RunKept (L.exposure owner late) (L.state book) (L.state late) ∧
    (∀ id a, (L.state book).allocations.get? id = some a → ∀ branch attempts,
      L.reserve id branch attempts late = (.error .conflict, late)) ∧
    L.reread owner late = .ok late ∧
    ∀ owner' backup n merged, L.mergeBackup owner' backup book = (.ok n, merged) →
      ∀ id a, (L.state book).allocations.get? id = some a → (∀ x, a.status ≠ .completed x) →
      let later := Run.run L.next merged actions
      (∃ b, (L.state later).allocations.get? id = some b ∧ b.status = .abandoned) ∧
        ∀ owner'' index, ∃ e, L.complete owner'' id index later = (.error e, later) ∧
          (L.checkOwner owner'' later = .ok () → e = .transition) := by
  intro late
  obtain ⟨hlate, hgrows⟩ := hL.run_grows hheld actions
  refine ⟨⟨hlate.valid.apart, fun _ => hlate.valid.stop_le, hgrows, fun _ ha _ hb _ _ =>
    hlate.valid.exposed_once ha hb⟩, ?_, hL.reread_held owner late hlate, ?_⟩
  · intro id a ha branch attempts
    obtain ⟨b, hb, -⟩ := hgrows.kept id a ha
    rw [reserve, request, zoom, AllocationBook.reserve_known hb, hL.set_state]
  · intro owner' backup n merged hmerge id a ha hopen later
    obtain ⟨hmerged, -⟩ := hL.follows_held hheld (hL.mergeBackup_follows hheld hmerge)
    obtain ⟨b, hb, hstatus⟩ := mergeBackup_abandons hL.state_set hmerge ha hopen
    obtain ⟨c, hc, hkept⟩ := (hL.run_grows hmerged actions).2.kept id b hb
    have habandoned : c.status = .abandoned := by
      rw [hkept.status (by rw [hstatus]; rfl), hstatus]
    exact ⟨⟨c, hc, habandoned⟩, hL.complete_abandoned hc habandoned⟩

end Lawful

end AllocationLedger

end QuaiSdk.Books
