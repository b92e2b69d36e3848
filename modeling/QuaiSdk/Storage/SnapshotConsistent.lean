import QuaiSdk.Storage.Reads
import QuaiSdk.Storage.Store

/-!
# Snapshot consistency

A scope either has no checkpoint and no coins, or its coins carry the current generation and belong to
recorded addresses of its zone.  Every writer keeps this, so a snapshot read never finds a row it must
refuse.  The refresh that keeps its generation differs from a full rewrite in that number only.
-/

namespace QuaiSdk.Storage

open Result Wallet

variable {W : HdCrypto} {B : Backend}

namespace ScopeTables

variable {t t' : ScopeTables} {scope : NetworkScope} {offered : List PublicAddress}

structure Consistent (scope : NetworkScope) (t : ScopeTables) : Prop where
  unscanned : t.checkpoint = none → t.coins = ∅
  current : ∀ o c, t.coins.lookup o = some c →
    c.generation = t.generation ∧ c.row.address ∈ t.addresses ∧ Placed scope o c.row
  count : t.coins.entries.length ≤ maxCoins

theorem consistent_cleared (next : ℕ) : (t.clearSnapshot next).Consistent scope where
  unscanned _ := rfl
  current o c hc := by cases hc
  count := Nat.zero_le _

theorem Consistent.of_eq (h : t.Consistent scope) (hcheckpoint : t'.checkpoint = t.checkpoint)
    (hcoins : t'.coins = t.coins) (hgeneration : t'.generation = t.generation)
    (haddresses : t'.addresses = t.addresses) : t'.Consistent scope where
  unscanned hnone := by
    rw [hcoins]
    exact h.unscanned (hcheckpoint ▸ hnone)
  current o c hc := by
    rw [hgeneration, haddresses]
    exact h.current o c (hcoins ▸ hc)
  count := hcoins ▸ h.count

theorem Commit.consistent (h : Commit W scope offered t t') (ht : t.Consistent scope) :
    t'.Consistent scope := by
  cases h with
  | operations | signed | replaced | observed | released | head => exact ht.of_eq rfl rfl rfl rfl
  | advanced => exact ⟨fun hnone => (nomatch hnone), ht.current, ht.count⟩
  | rewritten addresses cursors coins checkpoint rows bound count placed =>
    exact ⟨fun hnone => (nomatch hnone), placed, count⟩
  | recorded | invalidated | restored => exact consistent_cleared _
  | keyed t₁ only haddresses =>
    obtain ⟨addresses, cursors, rfl, -⟩ := only
    exact ht.of_eq rfl rfl rfl haddresses

/-- No refresh was committed since the view was last cleared. -/
def Unscanned (t : ScopeTables) : Prop := t.checkpoint = none ∧ t.coins.rows = []

/-- The view of the last refresh: every coin is current, and its owner is a recorded address. -/
structure Scanned (scope : NetworkScope) (t : ScopeTables) : Prop where
  checkpoint : t.checkpoint.isSome
  coins : ∀ r ∈ t.coins.rows, r.2.generation = t.generation ∧
    r.2.row.address ∈ t.addresses ∧ Placed scope r.1 r.2.row

theorem Consistent.view (h : t.Consistent scope) : t.Unscanned ∨ t.Scanned scope := by
  cases hcheckpoint : t.checkpoint with
  | none =>
    left
    refine ⟨hcheckpoint, ?_⟩
    rw [h.unscanned hcheckpoint]
    rfl
  | some checkpoint =>
    right
    exact ⟨Option.isSome_iff_exists.mpr ⟨checkpoint, hcheckpoint⟩,
      fun r hr => h.current r.1 r.2 (Table.mem_rows.mp hr)⟩

theorem Consistent.coinRead_ok (h : t.Consistent scope) {o : OutPoint} {c : StoredCoin}
    (hc : t.coins.lookup o = some c) : ∃ coin, coinRead scope t (o, c) = .ok coin := by
  obtain ⟨hgeneration, -, ⟨address, haddress, hzone⟩, hbyte, hhash⟩ := h.current o c hc
  have hscanned : t.checkpoint ≠ none := by
    intro hnone
    rw [h.unscanned hnone] at hc
    cases hc
  have howner : LedgerAddress.tryFrom .qi c.row.address = .ok address := by
    rw [← haddress, LedgerAddress.tryFrom_address]
  simp only [coinRead, eq_ok, not_or, not_not]
  exact ⟨_, ⟨hgeneration, hscanned⟩, address, howner, ⟨hzone, hbyte, hhash⟩, rfl⟩

theorem Consistent.snapshot_ok (h : t.Consistent scope) :
    ∃ snapshot, t.snapshot scope = .ok snapshot := by
  have hrows : ∃ coins, (t.coins.rows.insertionSort fun a b =>
      outPointKey a.1 ≤ outPointKey b.1).mapM (coinRead scope t) = .ok coins := by
    apply mapM_ok_of_forall
    rintro ⟨o, c⟩ hr
    exact h.coinRead_ok (Table.mem_rows.mp ((List.perm_insertionSort _ _).mem_iff.mp hr))
  obtain ⟨coins, hcoins⟩ := hrows
  simp only [snapshot, eq_ok]
  exact ⟨_, not_lt.mpr h.count, coins, hcoins, rfl⟩

/-- `replace_snapshot` without its fast path: every accepted refresh rewrites the coins. -/
def rewriteSnapshot (scope : NetworkScope) (snapshot : Snapshot) (t : ScopeTables) :
    Except StorageError (ℕ × ScopeTables) :=
  if snapshot.scope ≠ scope then .error .staleSnapshot
  else do
    let checkpoint ← okOr snapshot.checkpoint StorageError.invalid
    if maxCoins < snapshot.coins.length then .error .invalid
    else do
      let next ← t.nextGeneration snapshot.generation
      if rewinds t.checkpoint checkpoint then .error .staleSnapshot
      else do
        let rows ← snapshot.coins.foldlM (t.collectCoin scope) ∅
        .ok (next, { t with
          coins := rows.update fun _ row => ⟨next, row⟩
          generation := next
          checkpoint := some checkpoint })

/-- Same coins and checkpoint, and all other rows equal: only generations differ. -/
structure UpToGeneration (t t' : ScopeTables) : Prop where
  coins : t.coinRows.Same t'.coinRows
  checkpoint : t.checkpoint = t'.checkpoint
  others : t' = { t with coins := t'.coins, generation := t'.generation }

theorem same_refl {K V : Type*} [DecidableEq K] (rows : Table K V) : rows.Same rows :=
  ⟨fun _ h => Table.mem_rows.mp h, fun _ h => Table.mem_rows.mp h⟩

theorem coinRows_update (rows : Table OutPoint CoinRow) (next : ℕ) (t : ScopeTables) :
    rows.Same (coinRows { t with coins := rows.update fun _ row => ⟨next, row⟩ }) := by
  have hlookup : ∀ o, (coinRows { t with coins := rows.update fun _ row => ⟨next, row⟩ }).lookup o =
      rows.lookup o := by
    intro o
    rw [coinRows, Table.lookup_update, Table.lookup_update, Option.map_map]
    exact congrFun Option.map_id _
  refine ⟨fun r hr => ?_, fun r hr => ?_⟩
  · rw [hlookup]
    exact Table.mem_rows.mp hr
  · rw [← hlookup]
    exact Table.mem_rows.mp hr

theorem same_trans {K V : Type*} [DecidableEq K] {a b c : Table K V} (h : a.Same b)
    (h' : b.Same c) : a.Same c := by
  refine ⟨fun r hr => ?_, fun r hr => ?_⟩
  · exact h'.1 r (Table.mem_rows.mpr (h.1 r hr))
  · exact h.2 r (Table.mem_rows.mpr (h'.2 r hr))

theorem replaceSnapshot_rewrite (scope : NetworkScope) (snapshot : Snapshot) (t : ScopeTables) :
    (∃ e, t.replaceSnapshot scope snapshot = .error e ∧ t.rewriteSnapshot scope snapshot = .error e) ∨
      ∃ generation t' full, t.replaceSnapshot scope snapshot = .ok (generation, t') ∧
        t.rewriteSnapshot scope snapshot = .ok (t.generation + 1, full) ∧ t'.UpToGeneration full ∧
        generation = t'.generation ∧ (t'.generation = t.generation ∨ t' = full) := by
  unfold replaceSnapshot rewriteSnapshot
  split
  · exact .inl ⟨_, rfl, rfl⟩
  cases hcheckpoint : snapshot.checkpoint with
  | none => exact .inl ⟨_, rfl, rfl⟩
  | some =>
    simp only [okOr_some, ok_bind]
    split
    · exact .inl ⟨_, rfl, rfl⟩
    cases hnext : t.nextGeneration snapshot.generation with
    | error e => exact .inl ⟨e, rfl, rfl⟩
    | ok =>
      obtain ⟨hgeneration, rfl⟩ := nextGeneration_eq_ok hnext
      split
      · exact .inl ⟨_, rfl, rfl⟩
      cases hrows : snapshot.coins.foldlM (t.collectCoin scope) ∅ with
      | error e => exact .inl ⟨e, rfl, rfl⟩
      | ok rows =>
        right
        simp only [ok_bind, writeSnapshot]
        split
        · -- the stored rows are the submitted ones
          rename_i hfast
          refine ⟨_, _, _, rfl, rfl, ⟨?_, rfl, rfl⟩, hgeneration.symm, .inl rfl⟩
          exact same_trans hfast.2 (coinRows_update rows (t.generation + 1) t)
        · exact ⟨_, _, _, rfl, rfl, ⟨same_refl _, rfl, rfl⟩, rfl, .inr rfl⟩

end ScopeTables

namespace Store

theorem consistent_after (actions : List (StoreAction B)) (scope : NetworkScope) :
    ((after actions).tables scope).Consistent scope := by
  have hempty : ((empty : Store B).tables scope).Consistent scope :=
    ScopeTables.consistent_cleared (t := .empty) 0
  refine Run.run_invariant (G := fun _ _ => True)
    (I := fun s : Store B => (s.tables scope).Consistent scope) ?_ hempty actions
    fun _ _ _ _ => trivial
  intro s action hs _
  exact (s.next_commits action scope).invariant (fun _ _ hstep ht => hstep.consistent ht) hs

theorem generation_mono (s : Store B) (actions : List (StoreAction B)) (scope : NetworkScope) :
    (s.tables scope).generation ≤ ((Run.run next s actions).tables scope).generation :=
  (Run.run_related (I := fun _ => True)
    (R := fun s s' : Store B => (s.tables scope).generation ≤ (s'.tables scope).generation)
    (fun _ _ => le_refl _) (fun _ _ _ h h' => h.trans h')
    (fun s a _ => ⟨trivial, (s.next_commits a scope).generation_le⟩) trivial actions).2

/-- In every reachable state a scope without a checkpoint has no coins, and with one its coins are
current, owned and in the zone, so the snapshot can be read; generations never fall; and the refresh
that keeps its generation leaves what a full rewrite leaves. -/
theorem snapshot_consistency (actions : List (StoreAction B)) (scope : NetworkScope) :
    (((after actions).tables scope).Unscanned ∨ ((after actions).tables scope).Scanned scope) ∧
    (∃ snapshot, ((after actions).tables scope).snapshot scope = .ok snapshot) ∧
    (∀ later, ((after actions).tables scope).generation ≤
      ((after (actions ++ later)).tables scope).generation) ∧
    ∀ (t : ScopeTables) (snapshot : Snapshot),
      (∃ e, t.replaceSnapshot scope snapshot = .error e ∧
        t.rewriteSnapshot scope snapshot = .error e) ∨
      ∃ generation t' full, t.replaceSnapshot scope snapshot = .ok (generation, t') ∧
        t.rewriteSnapshot scope snapshot = .ok (t.generation + 1, full) ∧ t'.UpToGeneration full ∧
        generation = t'.generation ∧ (t'.generation = t.generation ∨ t' = full) := by
  have hconsistent := consistent_after actions scope
  refine ⟨hconsistent.view, hconsistent.snapshot_ok, fun later => ?_,
    fun t snapshot => ScopeTables.replaceSnapshot_rewrite scope snapshot t⟩
  rw [after_append]
  exact generation_mono _ later scope

end Store

end QuaiSdk.Storage
