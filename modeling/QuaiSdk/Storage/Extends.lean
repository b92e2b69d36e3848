import QuaiSdk.Storage.Restore

/-!
# What a transaction leaves in place

`Custody.Extends c c'` says what of the operations of `c` is still there in `c'`: identities,
payloads, replacement edges and claims of signed operations, and nonce cursors that only grow.  It is
a preorder, and each statement on the custody tables keeps it under the guard its callers check.
The left side stays fixed: a restore inserts an operation already signed and only then its claims, so
the rows it adds are judged against the custody before the whole transaction.
-/

namespace QuaiSdk.Storage

open Result Wallet

namespace Custody

def transaction (c : Custody) (id : ReservationId) : Option Hash32 :=
  (c.reservations.lookup id).bind (·.status.transaction)

structure Extends (c c' : Custody) : Prop where
  known : ∀ id, id ∈ c.reservations → id ∈ c'.reservations
  transaction : ∀ id h, c.transaction id = some h → c'.transaction id = some h
  payloads : ∀ id p, c.signedPayloads.lookup id = some p → c'.signedPayloads.lookup id = some p
  replacements : ∀ k e, c.quaiReplacements.lookup k = some e → c'.quaiReplacements.lookup k = some e
  qiClaims : ∀ id h, c.transaction id = some h →
    ∀ o a, c'.qiClaims.lookup o = some ⟨id, a⟩ ↔ c.qiClaims.lookup o = some ⟨id, a⟩
  nonceClaims : ∀ id h, c.transaction id = some h →
    ∀ k, c'.nonceClaims.lookup k = some id ↔ c.nonceClaims.lookup k = some id
  nonceCursors : ∀ a n, c.nonceCursors.lookup a = some n →
    ∃ n', c'.nonceCursors.lookup a = some n' ∧ n ≤ n'

def NoncesBelow (c : Custody) : Prop :=
  ∀ a n id, c.nonceClaims.lookup (a, n) = some id →
    ∃ next, c.nonceCursors.lookup a = some next ∧ n < next

/-- What one transaction must keep. -/
structure Keeps (c c' : Custody) : Prop where
  extends_ : c.Extends c'
  nonces : c.NoncesBelow → c'.NoncesBelow

variable {c c' : Custody} {id : ReservationId}

theorem transaction_eq_none_of_notMem (h : id ∉ c.reservations) : c.transaction id = none := by
  rw [transaction, AList.lookup_eq_none.mpr h]
  rfl

theorem transaction_eq_of_lookup {row : ReservationRow} (h : c.reservations.lookup id = some row) :
    c.transaction id = row.status.transaction := by
  rw [transaction, h]
  rfl

namespace Extends

variable {c c' c'' : Custody} {id : ReservationId}

theorem refl (c : Custody) : c.Extends c where
  known _ h := h
  transaction _ _ h := h
  payloads _ _ h := h
  replacements _ _ h := h
  qiClaims _ _ _ _ _ := Iff.rfl
  nonceClaims _ _ _ _ := Iff.rfl
  nonceCursors _ n h := ⟨n, h, UInt64.le_refl n⟩

variable (h : c.Extends c')

include h

theorem trans (h' : c'.Extends c'') : c.Extends c'' where
  known id hid := h'.known id (h.known id hid)
  transaction id t ht := h'.transaction id t (h.transaction id t ht)
  payloads id p hp := h'.payloads id p (h.payloads id p hp)
  replacements k e he := h'.replacements k e (h.replacements k e he)
  qiClaims id t ht o a :=
    (h'.qiClaims id t (h.transaction id t ht) o a).trans (h.qiClaims id t ht o a)
  nonceClaims id t ht k :=
    (h'.nonceClaims id t (h.transaction id t ht) k).trans (h.nonceClaims id t ht k)
  nonceCursors a n hn := by
    obtain ⟨m, hm, hle⟩ := h.nonceCursors a n hn
    obtain ⟨m', hm', hle'⟩ := h'.nonceCursors a m hm
    exact ⟨m', hm', UInt64.le_trans hle hle'⟩

theorem transaction_eq_none (hid : id ∉ c'.reservations) : c.transaction id = none :=
  transaction_eq_none_of_notMem fun hc => hid (h.known id hc)

theorem insertReservation (row : ReservationRow) (hnew : c'.reservations.lookup id = none) :
    c.Extends { c' with reservations := c'.reservations.insert id row } :=
  { h with
    known := fun i hi => by
      rw [AList.mem_insert]
      exact .inr (h.known i hi)
    transaction := fun i t ht => by
      have hold := h.transaction i t ht
      have hne : i ≠ id := by
        rintro rfl
        rw [transaction_eq_none_of_notMem (AList.lookup_eq_none.mp hnew)] at hold
        cases hold
      rw [Custody.transaction, AList.lookup_insert_ne hne]
      exact hold }

/-- Rewriting rows of `reservations` keeps every operation and the hash of each signed one. -/
theorem updateReservations {f : ReservationId → ReservationRow → ReservationRow}
    (hf : ∀ i row t, c'.reservations.lookup i = some row → c.transaction i = some t →
      row.status.transaction = some t → (f i row).status.transaction = some t) :
    c.Extends { c' with reservations := c'.reservations.update f } :=
  { h with
    known := fun i hi => by
      rw [← AList.lookup_isSome, Table.lookup_update, Option.isSome_map, AList.lookup_isSome]
      exact h.known i hi
    transaction := fun i t ht => by
      have hold := h.transaction i t ht
      rw [Custody.transaction, Option.bind_eq_some_iff] at hold
      obtain ⟨row, hrow, hstatus⟩ := hold
      rw [Custody.transaction, Table.lookup_update, hrow]
      exact hf i row t hrow ht hstatus }

theorem setStatus {status : Status}
    (hstatus : ∀ t, c.transaction id = some t → status.transaction = some t) :
    c.Extends { c' with reservations := c'.reservations.update fun k (row : ReservationRow) =>
      if k = id then { row with status } else row } := by
  apply h.updateReservations
  intro i row t _ ht hrow
  by_cases hi : i = id
  · subst hi
    rw [if_pos rfl]
    exact hstatus t ht
  · rw [if_neg hi]
    exact hrow

section

variable (hid : c.transaction id = none)
include hid

theorem insertQiClaim {o : OutPoint} {a : Address} (hnew : c'.qiClaims.lookup o = none) :
    c.Extends { c' with qiClaims := c'.qiClaims.insert o ⟨id, a⟩ } :=
  { h with
    qiClaims := fun i t ht p b => by
      rw [← h.qiClaims i t ht p b, Table.lookup_insert_eq]
      by_cases hp : p = o
      · subst hp
        rw [if_pos rfl, hnew]
        simp only [Option.some.injEq, QiClaim.mk.injEq, reduceCtorEq, iff_false, not_and]
        rintro rfl
        rw [hid] at ht
        cases ht
      · rw [if_neg hp] }

theorem insertNonceClaim {k : Address × UInt64} (hnew : c'.nonceClaims.lookup k = none) :
    c.Extends { c' with nonceClaims := c'.nonceClaims.insert k id } :=
  { h with
    nonceClaims := fun i t ht k' => by
      rw [← h.nonceClaims i t ht k', Table.lookup_insert_eq]
      by_cases hk : k' = k
      · subst hk
        rw [if_pos rfl, hnew]
        simp only [Option.some.injEq, reduceCtorEq, iff_false]
        rintro rfl
        rw [hid] at ht
        cases ht
      · rw [if_neg hk] }

theorem deleteQiClaims :
    c.Extends { c' with qiClaims := c'.qiClaims.delete fun _ (claim : QiClaim) =>
      claim.operation = id } :=
  { h with
    qiClaims := fun i t ht o a => by
      rw [← h.qiClaims i t ht o a, Table.lookup_delete, and_iff_left_iff_imp]
      rintro - rfl
      rw [hid] at ht
      cases ht }

end

theorem insertPayload {p : SignedPayload} (hnew : c'.signedPayloads.lookup id = none) :
    c.Extends { c' with signedPayloads := c'.signedPayloads.insert id p } :=
  { h with
    payloads := fun i q hq => Table.lookup_insert_of_some hnew (h.payloads i q hq) }

theorem insertReplacement {k : ReservationId × ℕ} {e : QuaiReplacement}
    (hnew : c'.quaiReplacements.lookup k = none) :
    c.Extends { c' with quaiReplacements := c'.quaiReplacements.insert k e } :=
  { h with
    replacements := fun k' e' he => Table.lookup_insert_of_some hnew (h.replacements k' e' he) }

theorem raiseNonceCursor {a : Address} {next : UInt64}
    (hnext : ∀ n, c'.nonceCursors.lookup a = some n → n ≤ next) :
    c.Extends { c' with nonceCursors := c'.nonceCursors.insert a next } :=
  { h with
    nonceCursors := fun b n hn => by
      obtain ⟨m, hm, hle⟩ := h.nonceCursors b n hn
      rw [Table.lookup_insert_eq]
      by_cases hb : b = a
      · subst hb
        rw [if_pos rfl]
        exact ⟨next, rfl, UInt64.le_trans hle (hnext m hm)⟩
      · rw [if_neg hb]
        exact ⟨m, hm, hle⟩ }

end Extends

theorem NoncesBelow.of_tables (h : c.NoncesBelow) (hclaims : c'.nonceClaims = c.nonceClaims)
    (hcursors : c'.nonceCursors = c.nonceCursors) :
    c'.NoncesBelow := by
  intro a n id hclaim
  rw [hclaims] at hclaim
  rw [hcursors]
  exact h a n id hclaim

theorem NoncesBelow.raise {a : Address} {next : UInt64} (h : c.NoncesBelow)
    (hnext : ∀ n, c.nonceCursors.lookup a = some n → n ≤ next) :
    NoncesBelow { c with nonceCursors := c.nonceCursors.insert a next } := by
  intro b n id hclaim
  obtain ⟨m, hm, hlt⟩ := h b n id hclaim
  rw [Table.lookup_insert_eq]
  by_cases hb : b = a
  · subst hb
    rw [if_pos rfl]
    exact ⟨next, rfl, UInt64.lt_of_lt_of_le hlt (hnext m hm)⟩
  · rw [if_neg hb]
    exact ⟨m, hm, hlt⟩

theorem NoncesBelow.claim {a : Address} {n next : UInt64} (h : c.NoncesBelow)
    (hcursor : c.nonceCursors.lookup a = some next) (hlt : n < next) :
    NoncesBelow { c with nonceClaims := c.nonceClaims.insert (a, n) id } := by
  intro b m id' hclaim
  by_cases hb : (b, m) = (a, n)
  · cases hb
    exact ⟨next, hcursor, hlt⟩
  · rw [Table.lookup_insert_eq, if_neg hb] at hclaim
    exact h b m id' hclaim

theorem Keeps.refl (c : Custody) : c.Keeps c := ⟨.refl c, id⟩

theorem Keeps.trans {c'' : Custody} (h : c.Keeps c') (h' : c'.Keeps c'') : c.Keeps c'' :=
  ⟨h.extends_.trans h'.extends_, fun hn => h'.nonces (h.nonces hn)⟩

theorem Extends.keeps (h : c.Extends c') (hclaims : c'.nonceClaims = c.nonceClaims)
    (hcursors : c'.nonceCursors = c.nonceCursors) : c.Keeps c' :=
  ⟨h, fun hn => hn.of_tables hclaims hcursors⟩

end Custody

/-- No address is recorded and no derivation cursor moves; the generation does not fall. -/
structure ScopeTables.SameKeys (t t' : ScopeTables) : Prop where
  addresses : t'.addresses = t.addresses
  derivationCursors : t'.derivationCursors = t.derivationCursors
  generation : t.generation ≤ t'.generation

namespace ScopeTables.SameKeys

theorem refl (t : ScopeTables) : t.SameKeys t := ⟨rfl, rfl, le_refl _⟩

theorem trans {t t' t'' : ScopeTables} (h : t.SameKeys t') (h' : t'.SameKeys t'') : t.SameKeys t'' :=
  ⟨h'.addresses.trans h.addresses, h'.derivationCursors.trans h.derivationCursors,
    h.generation.trans h'.generation⟩

theorem withCustody {t : ScopeTables} (f : Custody → Custody) : t.SameKeys (t.withCustody f) :=
  ⟨rfl, rfl, le_refl _⟩

end ScopeTables.SameKeys

end QuaiSdk.Storage
