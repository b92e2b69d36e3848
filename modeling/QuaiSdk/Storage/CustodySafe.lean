import QuaiSdk.Storage.System

/-!
# Custody safety

Whatever the handles do, in any order: no output and no nonce is claimed twice, claimed nonces stay
below cursors that never fall, and a signed operation keeps its identity, bytes, edges and claims.
-/

namespace QuaiSdk.Storage

open Result Wallet

namespace Custody

variable {c c' : Custody} {id : ReservationId}

def SignedAs (c : Custody) (id : ReservationId) (hash : Hash32) : Prop :=
  ∃ row, c.reservations.lookup id = some row ∧ row.status.state.isSigned ∧
    row.status.transaction = some hash

theorem signedAs_iff {hash : Hash32} : c.SignedAs id hash ↔ c.transaction id = some hash := by
  simp only [SignedAs, transaction, Option.bind_eq_some_iff]
  refine exists_congr fun row => and_congr_right fun _ => ⟨fun h => h.2, fun h => ⟨?_, h⟩⟩
  -- a status carries a transaction exactly in the signed states
  cases hstatus : row.status <;> rw [hstatus] at h <;> first | rfl | cases h

/-- What `c'` keeps of a signed operation of `c`. -/
structure Frozen (c c' : Custody) (id : ReservationId) (hash : Hash32) : Prop where
  signed : c'.SignedAs id hash
  payload : ∀ p, c.signedPayloads.lookup id = some p → c'.signedPayloads.lookup id = some p
  replacements : ∀ sequence edge, c.quaiReplacements.lookup (id, sequence) = some edge →
    c'.quaiReplacements.lookup (id, sequence) = some edge
  qiClaims : ∀ o a, c'.qiClaims.lookup o = some ⟨id, a⟩ ↔ c.qiClaims.lookup o = some ⟨id, a⟩
  nonceClaims : ∀ key, c'.nonceClaims.lookup key = some id ↔ c.nonceClaims.lookup key = some id

/-- Custody at one moment, and what is left of it at a later one. -/
structure Safe (c c' : Custody) : Prop where
  outpoints : ∀ o claim claim', (o, claim) ∈ c.qiClaims.rows → (o, claim') ∈ c.qiClaims.rows →
    claim.operation = claim'.operation
  nonces : ∀ key id id', (key, id) ∈ c.nonceClaims.rows → (key, id') ∈ c.nonceClaims.rows → id = id'
  below : ∀ a n id, ((a, n), id) ∈ c.nonceClaims.rows →
    ∃ next, c.nonceCursors.lookup a = some next ∧ n < next
  cursors : ∀ a n, c.nonceCursors.lookup a = some n →
    ∃ n', c'.nonceCursors.lookup a = some n' ∧ n ≤ n'
  frozen : ∀ id hash, c.SignedAs id hash → c.Frozen c' id hash

theorem Extends.frozen (h : c.Extends c') {hash : Hash32} (hsigned : c.SignedAs id hash) :
    c.Frozen c' id hash := by
  rw [signedAs_iff] at hsigned
  exact ⟨signedAs_iff.mpr (h.transaction id hash hsigned), h.payloads id,
    fun sequence => h.replacements (id, sequence), h.qiClaims id hash hsigned,
    h.nonceClaims id hash hsigned⟩

theorem Extends.safe (h : c.Extends c') (hbelow : c.NoncesBelow) : c.Safe c' where
  outpoints o claim claim' hclaim hclaim' := by
    rw [Table.mem_rows] at hclaim hclaim'
    rw [Option.some.inj (hclaim.symm.trans hclaim')]
  nonces key id id' hid hid' := by
    rw [Table.mem_rows] at hid hid'
    exact Option.some.inj (hid.symm.trans hid')
  below a n id hclaim := hbelow a n id (Table.mem_rows.mp hclaim)
  cursors := h.nonceCursors
  frozen _ _ hsigned := h.frozen hsigned

end Custody

namespace System

variable {B : Backend}

/-- Custody in every reachable state, and in every state reachable from it. -/
theorem custody_safe (before later : List (Action B)) (scope : NetworkScope) :
    ((after before).db.tables scope).custody.Safe
      ((after (before ++ later)).db.tables scope).custody := by
  have hrun : ∀ (s : System B) (actions : List (Action B)),
      (s.db.tables scope).custody.Keeps ((Run.run next s actions).db.tables scope).custody := by
    intro s actions
    exact (Run.run_related (I := fun _ => True)
      (R := fun s s' : System B =>
        (s.db.tables scope).custody.Keeps (s'.db.tables scope).custody)
      (fun _ _ => .refl _) (fun _ _ _ h h' => h.trans h')
        (fun s a _ => ⟨trivial, ((next_effect s a).moves scope).custody⟩)
      trivial actions).2
  have hempty : ((empty : System B).db.tables scope).custody.NoncesBelow := by
    intro a n id h
    cases h
  have hbefore := (hrun empty before).nonces hempty
  rw [after, after, Run.run_append]
  exact (hrun (Run.run next empty before) later).extends_.safe hbefore

end System

end QuaiSdk.Storage
