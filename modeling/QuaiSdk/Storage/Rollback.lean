import QuaiSdk.Storage.Store

/-!
# Rollback of a removed suffix

`invalidate` of `storage/replay.rs`, alone and as a part of `commit_head_replay`: a reorganisation
takes observations back, never custody.
-/

namespace QuaiSdk.Storage

open Result Wallet

variable {B : Backend} {t t' : ScopeTables} {first expected : ℕ} {scope : NetworkScope}

/-- The blocks from height `first` on are gone; `replay` is the ancestry cursor afterwards. -/
structure ScopeTables.RolledBack (first : ℕ) (replay : Option HeadReplayState) (t t' : ScopeTables) :
    Prop where
  reverted : ∀ id kind hash block,
    t.custody.reservations.lookup id = some ⟨kind, .confirmed hash block⟩ → first ≤ block.height →
      t'.custody.reservations.lookup id = some ⟨kind, .submitted hash⟩
  kept : ∀ id, (∀ kind hash block, t.custody.reservations.lookup id =
      some ⟨kind, .confirmed hash block⟩ → block.height < first) →
    t'.custody.reservations.lookup id = t.custody.reservations.lookup id
  tombstoned : ∀ slot, t'.observationCache.lookup slot =
    (t.observationCache.lookup slot).map fun c => ⟨c.revision + 1, none⟩
  -- every other row, of claims, payloads, replacements, cursors and addresses, is the old one
  rest : t' = { t with
    generation := t.generation + 1, checkpoint := none, coins := ∅, headReplay := replay
    observationCache := t'.observationCache
    custody := { t.custody with reservations := t'.custody.reservations } }

theorem ScopeTables.invalidate_rolledBack {report : ReorgInvalidation}
    (h : t.invalidate expected first = .ok (report, t')) : RolledBack first t.headReplay t t' := by
  simp only [invalidate, eq_ok, Prod.mk.injEq] at h
  obtain ⟨-, next, hnext, -, -, rfl⟩ := h
  obtain ⟨-, rfl⟩ := nextGeneration_eq_ok hnext
  refine ⟨fun id kind hash block hrow hheight => ?_, fun id hlow => ?_, fun slot => ?_, rfl⟩
  · show (t.custody.reservations.update _).lookup id = _
    rw [Table.lookup_update, hrow]
    simp only [Option.map_some, Status.revert, if_pos hheight]
  · show (t.custody.reservations.update _).lookup id = _
    rw [Table.lookup_update]
    cases hrow : t.custody.reservations.lookup id with
    | none => rfl
    | some row =>
      obtain ⟨kind, status⟩ := row
      cases status with
      | confirmed hash block =>
        have hnot : ¬first ≤ block.height := Nat.not_le.mpr (hlow kind hash block hrow)
        simp only [Option.map_some, Status.revert, if_neg hnot]
      | _ => rfl
  · exact Table.lookup_update _ _ slot

namespace Call

def removes : Call B → Option ℕ
  | invalidateReorgFrom _ first => some first
  | commitHeadReplay _ _ _ first => first
  | _ => none

def replay (t : ScopeTables) : Call B → Option HeadReplayState
  | commitHeadReplay _ revision payload _ => some ⟨revision.getD 0 + 1, payload⟩
  | _ => t.headReplay

theorem exec_rolledBack {call : Call B} (h : call.exec scope t = .ok t')
    (hfirst : call.removes = some first) : t.RolledBack first (call.replay t) t' := by
  cases call with
  | invalidateReorgFrom =>
    cases hfirst
    obtain ⟨⟨report, t₁⟩, hinvalidate, rfl⟩ := map_eq_ok.mp h
    exact ScopeTables.invalidate_rolledBack hinvalidate
  | commitHeadReplay =>
    cases hfirst
    obtain ⟨⟨result, t₁⟩, hhead, rfl⟩ := map_eq_ok.mp h
    simp only [ScopeTables.commitHeadReplay, ScopeTables.invalidateIf, eq_ok,
      map_eq_ok, Prod.mk.injEq] at hhead
    obtain ⟨-, -, hrevision, -, ⟨report, t₂⟩, ⟨⟨report', t₃⟩, hinvalidate, -, rfl⟩, -, rfl⟩ := hhead
    -- the cursor is the only row written after the invalidation
    have hback := ScopeTables.invalidate_rolledBack hinvalidate
    refine ⟨hback.reverted, hback.kept, hback.tombstoned, ?_⟩
    rw [headRevision, not_not.mp hrevision, hback.rest]
    rfl
  | _ => cases hfirst

end Call

namespace Store

/-- A reorganisation either fails and changes nothing, or rolls its scope back and nothing else.  The
column `block_height` holds 32 bytes, which SQLite compares as `memcmp` does: as numbers. -/
theorem reorganisation_rolls_back (s : Store B) (scope : NetworkScope) (call : Call B) (first : ℕ)
    (hfirst : call.removes = some first) :
    let s' := s.next (.wallet (.call scope call))
    ((∃ e, call.exec scope (s.tables scope) = .error e) ∧ s' = s ∨
      (s.tables scope).RolledBack first (call.replay (s.tables scope)) (s'.tables scope) ∧
      (∀ other ≠ scope, s'.tables other = s.tables other) ∧
      s' = { s with wallet := { s.wallet with db := { s.db with scopes := s'.db.scopes } } }) ∧
    ∀ height < 2 ^ 256, first < 2 ^ 256 → (BigEndian.memcmpLe (BigEndian.toBytes 32 first)
      (BigEndian.toBytes 32 height) ↔ first ≤ height) := by
  intro s'
  refine ⟨?_, fun height hheight hword => BigEndian.memcmpLe_toBytes hword hheight⟩
  cases hexec : call.exec scope (s.tables scope) with
  | error e =>
    left
    refine ⟨⟨e, rfl⟩, ?_⟩
    show ({ s with wallet := s.wallet.commit scope (call.exec scope (s.tables scope)) } : Store B) = s
    rw [hexec]
    rfl
  | ok t =>
    right
    have hnext : s' = { s with wallet := s.wallet.write scope t } := by
      show ({ s with wallet := s.wallet.commit scope (call.exec scope (s.tables scope)) } : Store B) = _
      rw [hexec]
      rfl
    have htables (other : NetworkScope) :
        s'.tables other = if other = scope then t else s.tables other := by
      rw [hnext]
      exact System.tables_write s.wallet scope other t
    refine ⟨?_, fun other hother => by rw [htables, if_neg hother], by rw [hnext]; rfl⟩
    rw [htables, if_pos rfl]
    exact Call.exec_rolledBack hexec hfirst

/-! An operation of a file is included at height five, and the blocks from three on are removed. -/

def includedWallet : Backend := .ofHd (KnownKeys.hd ⟨[], []⟩ ⟨[], [], [], []⟩)

def includedRow : ReservationRow := ⟨.quai, .confirmed (Hash32.ofNat 2) ⟨Hash32.ofNat 3, 5⟩⟩

def includedTables : ScopeTables :=
  { ScopeTables.empty with
    custody := { Custody.empty with reservations := AList.insert sampleId includedRow ∅ } }

def includedStore : Store includedWallet :=
  { empty with wallet := System.write .empty sampleScope includedTables }

theorem reorganisation_rolls_back_inclusion :
    ((includedStore.next (.wallet (.call sampleScope (.invalidateReorgFrom 0 3)))).tables
      sampleScope).custody.reservations.lookup sampleId =
        some ⟨.quai, .submitted (Hash32.ofNat 2)⟩ := by
  obtain ⟨⟨⟨e, he⟩, -⟩ | ⟨hback, -⟩, -⟩ :=
    reorganisation_rolls_back includedStore sampleScope (.invalidateReorgFrom 0 3) 3 rfl
  · cases he
  · exact hback.reverted _ _ _ ⟨Hash32.ofNat 3, 5⟩ (by decide +kernel) (by decide)

end Store

end QuaiSdk.Storage
