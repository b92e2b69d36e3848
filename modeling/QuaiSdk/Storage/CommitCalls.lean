import QuaiSdk.Storage.Commits

/-!
# Commits of snapshots and addresses

The calls on snapshots: refresh and discovery, recorded addresses and reorganisations.
-/

namespace QuaiSdk.Storage

open Result Wallet Except

variable {W : HdCrypto}

theorem DiscoveryBatch.length_coins {scope : NetworkScope} {checkpoint : Checkpoint}
    {reports : List DiscoveryReport} {batch : DiscoveryBatch}
    (h : reports.foldlM (addReport W scope checkpoint) ⟨[], []⟩ = .ok batch) :
    batch.coins.length ≤ maxCoins := by
  refine collect_invariant (P := fun batch => batch.coins.length ≤ maxCoins) (Nat.zero_le _) ?_ h
  intro _ _ _ _ _ _ s derived coins hs _ hcoins
  refine foldlM_invariant (P := fun coins : List CandidateCoin => coins.length ≤ maxCoins) ?_ hs
    hcoins
  intro coins coin coins' hlength hcoin
  simp only [addCoin, eq_ok, not_or] at hcoin
  obtain ⟨⟨-, hroom⟩, rfl⟩ := hcoin
  rw [List.length_append, List.length_singleton]
  omega

/-- A loop of insertions under new keys. -/
theorem foldlM_inserts {σ α κ β : Type} [DecidableEq κ] {f : σ → α → Except StorageError σ}
    (get : σ → Table κ β) {I : σ → Prop} {P : κ → β → Prop}
    (hstep : ∀ s x s', I s → f s x = .ok s' →
      I s' ∧ ∃ k v, P k v ∧ k ∉ get s ∧ get s' = (get s).insert k v)
    {xs : List α} {s s' : σ} (hs : I s) (hrows : ∀ k v, (get s).lookup k = some v → P k v)
    (h : xs.foldlM f s = .ok s') :
    I s' ∧ (∀ k v, (get s').lookup k = some v → P k v) ∧
      (get s').entries.length ≤ (get s).entries.length + xs.length := by
  induction xs generalizing s with
  | nil =>
    cases h
    exact ⟨hs, hrows, le_refl _⟩
  | cons x rest ih =>
    rw [List.foldlM_cons, bind_eq_ok] at h
    obtain ⟨s₁, hfirst, hrest⟩ := h
    obtain ⟨hs₁, k, v, hv, hnew, hget⟩ := hstep s x s₁ hs hfirst
    obtain ⟨hinvariant, hall, hlength⟩ := ih hs₁ (fun k' v' hv' => by
      rw [hget, Table.lookup_insert_eq] at hv'
      split at hv'
      · rename_i hk
        cases hv'
        exact hk ▸ hv
      · exact hrows k' v' hv') hrest
    refine ⟨hinvariant, hall, ?_⟩
    rw [hget, AList.entries_insert_of_notMem hnew, List.length_cons] at hlength
    rw [List.length_cons]
    omega

namespace ScopeTables

variable {t t' : ScopeTables} {scope : NetworkScope} {offered : List PublicAddress}

theorem placed_of_not_misplaced {coin : CandidateCoin} (h : ¬misplaced scope coin) :
    Placed scope coin.outpoint (coinRow coin) := by
  simp only [misplaced, not_or, not_not] at h
  exact ⟨⟨coin.address, rfl, h.1⟩, h.2.1, h.2.2.1⟩

theorem mem_of_requireAddress {a : Address} (h : t.requireAddress a = .ok ()) : a ∈ t.addresses := by
  by_contra habsent
  rw [requireAddress, if_neg habsent] at h
  cases h

theorem collectCoins_spec {coins : List CandidateCoin} {rows : Table OutPoint CoinRow}
    (h : coins.foldlM (t.collectCoin scope) ∅ = .ok rows) :
    (∀ o row, rows.lookup o = some row → row.address ∈ t.addresses ∧ Placed scope o row) ∧
      rows.entries.length ≤ coins.length := by
  obtain ⟨-, hall, hlength⟩ := foldlM_inserts (I := fun _ => True) id (P := fun o row =>
    row.address ∈ t.addresses ∧ Placed scope o row) (fun s coin s' _ hstep => by
      simp only [collectCoin, eq_ok] at hstep
      obtain ⟨hplaced, ⟨⟩, howner, hnew, rfl⟩ := hstep
      exact ⟨trivial, _, _, ⟨mem_of_requireAddress howner, placed_of_not_misplaced hplaced⟩, hnew, rfl⟩)
    trivial (fun _ _ hrow => by cases hrow) h
  exact ⟨hall, by simpa using hlength⟩

variable {expected generation : ℕ}

theorem replaceSnapshot_works {snapshot : Snapshot}
    (h : t.replaceSnapshot scope snapshot = .ok (generation, t')) :
    Works W scope offered t t' := by
  simp only [replaceSnapshot, eq_ok] at h
  obtain ⟨-, checkpoint, -, hcount, next, hnext, -, rows, hrows, h⟩ := h
  obtain ⟨-, rfl⟩ := nextGeneration_eq_ok hnext
  rw [writeSnapshot] at h
  split at h <;> cases h
  · rename_i hfast
    exact (Commit.advanced checkpoint hfast.1).works ⟨⟨rfl, rfl, le_refl _⟩, .refl _⟩
  · obtain ⟨hall, hlength⟩ := collectCoins_spec hrows
    refine (Commit.rewritten _ _ _ checkpoint (fun _ h => h) (.refl _) ?_ fun o c hc => ?_).works
      ⟨⟨rfl, rfl, Nat.le_succ _⟩, .refl _⟩
    · rw [Table.update, List.length_map]
      omega
    · rw [Table.lookup_update, Option.map_eq_some_iff] at hc
      obtain ⟨row, hrow, rfl⟩ := hc
      exact ⟨rfl, hall o row hrow⟩

theorem insertCoins_spec {next : ℕ} {coins : List CandidateCoin} (hempty : t.coins = ∅)
    (h : coins.foldlM (insertCoin scope next) t = .ok t') :
    t' = { t with coins := t'.coins } ∧ (∀ o c, t'.coins.lookup o = some c →
        c.generation = next ∧ c.row.address ∈ t.addresses ∧ Placed scope o c.row) ∧
      t'.coins.entries.length ≤ coins.length := by
  obtain ⟨honly, hall, hlength⟩ := foldlM_inserts (I := fun s => s = { t with coins := s.coins })
    ScopeTables.coins (P := fun o c =>
      c.generation = next ∧ c.row.address ∈ t.addresses ∧ Placed scope o c.row)
    (fun s coin s' hs hstep => by
      simp only [insertCoin, eq_ok, not_or, not_not] at hstep
      obtain ⟨⟨hplaced, hnew⟩, howner, rfl⟩ := hstep
      rw [hs] at howner
      exact ⟨by rw [hs], _, _, ⟨rfl, howner, placed_of_not_misplaced hplaced⟩, hnew, rfl⟩)
    rfl (fun _ _ hrow => by rw [hempty] at hrow; cases hrow) h
  exact ⟨honly, hall, by simpa [hempty] using hlength⟩

/-- A discovery rewrites the coins after it has recorded the children of its reports. -/
theorem commitDiscovery_eq_ok {reports : List DiscoveryReport}
    (h : t.commitDiscovery W scope expected reports = .ok (generation, t')) :
    ∃ checkpoint batch t₁ coins,
      reports.foldlM (DiscoveryBatch.addReport W scope checkpoint) ⟨[], []⟩ = .ok batch ∧
      t.insertAddresses W scope batch.addresses = .ok t₁ ∧
      (coins.entries.length ≤ maxCoins ∧ ∀ o c, coins.lookup o = some c →
        c.generation = t.generation + 1 ∧ c.row.address ∈ t₁.addresses ∧ Placed scope o c.row) ∧
      t' = { t₁ with coins, generation := t.generation + 1, checkpoint := some checkpoint } := by
  rw [commitDiscovery.eq_def] at h
  split at h
  · cases h
  · rename_i first rest
    simp only [eq_ok, Prod.mk.injEq] at h
    obtain ⟨-, batch, hbatch, next, hnext, -, -, t₁, hinsert, t₂, hcoins, -, rfl⟩ := h
    obtain ⟨-, rfl⟩ := nextGeneration_eq_ok hnext
    obtain ⟨honly, hall, hlength⟩ := insertCoins_spec rfl hcoins
    refine ⟨first.checkpoint, batch, t₁, t₂.coins, hbatch, hinsert,
      ⟨hlength.trans (DiscoveryBatch.length_coins hbatch), hall⟩, ?_⟩
    rw [honly]

theorem commitDiscovery_moves {reports : List DiscoveryReport} (offered : List PublicAddress)
    (h : t.commitDiscovery W scope expected reports = .ok (generation, t')) :
    Moves W scope offered t t' ∧ t.Grows (reports.flatMap DiscoveryReport.origins) t' := by
  obtain ⟨checkpoint, batch, t₁, coins, hbatch, hinsert, ⟨hcount, hplaced⟩, rfl⟩ :=
    commitDiscovery_eq_ok h
  obtain ⟨hrecords, hcovered⟩ := insertAddresses_records hinsert
  have hbounded := DiscoveryBatch.origins_subset hbatch
  refine ⟨?_, hrecords.grows (fun e he => hbounded (List.mem_map_of_mem he)) hcovered
    ⟨rfl, rfl, hrecords.generation.le.trans (Nat.le_succ _)⟩ (Nat.lt_succ_self _)⟩
  obtain ⟨addresses, cursors, rfl, hrows, hbound⟩ := hrecords.keyed
  exact ⟨(Commit.rewritten addresses cursors coins checkpoint hrows hbound hcount hplaced).commits,
    .refl _⟩

theorem reconcileCheckpoint_works {canonical : Option Checkpoint}
    {result : CheckpointReconciliation}
    (h : t.reconcileCheckpoint expected canonical = .ok (result, t')) :
    Works W scope offered t t' := by
  simp only [reconcileCheckpoint, ite_error_eq_ok] at h
  obtain ⟨-, h⟩ := h
  split at h
  · cases h
    exact .refl t
  · rw [ite_error_eq_ok] at h
    obtain ⟨-, h⟩ := h
    split at h
    · cases h
      exact .refl t
    · simp only [eq_ok, Prod.mk.injEq] at h
      obtain ⟨next, hnext, -, rfl⟩ := h
      obtain ⟨-, rfl⟩ := nextGeneration_eq_ok hnext
      exact (commit_cleared t).works (kept_clearSnapshot (Nat.le_succ _))

theorem invalidate_works {first : ℕ} {report : ReorgInvalidation}
    (h : t.invalidate expected first = .ok (report, t')) : Works W scope offered t t' := by
  simp only [invalidate, eq_ok, Prod.mk.injEq] at h
  obtain ⟨-, next, hnext, -, -, rfl⟩ := h
  obtain ⟨-, rfl⟩ := nextGeneration_eq_ok hnext
  refine Commit.works (.invalidated { t.custody with reservations := _ } rfl rfl)
    ⟨⟨rfl, rfl, Nat.le_succ _⟩, Custody.Extends.keeps ?_ rfl rfl⟩
  apply (Custody.Extends.refl t.custody).updateReservations
  intro i row hash _ _ hrow
  rw [← hrow]
  exact Status.transaction_revert first row.status

theorem commitHeadReplay_works {revision : Option ℕ} {payload : Option Bytes} {first : Option ℕ}
    {result : ℕ × Option ReorgInvalidation}
    (h : t.commitHeadReplay expected revision payload first = .ok (result, t')) :
    Works W scope offered t t' := by
  simp only [commitHeadReplay, eq_ok, Prod.mk.injEq] at h
  obtain ⟨-, -, -, -, ⟨report, t₁⟩, hinvalidate, -, rfl⟩ := h
  obtain ⟨hfirst, hhead⟩ : Works W scope offered t t₁ ∧ t₁.headReplay = t.headReplay := by
    cases first with
    | none =>
      cases hinvalidate
      exact ⟨.refl t, rfl⟩
    | some =>
      simp only [invalidateIf, map_eq_ok, Prod.mk.injEq] at hinvalidate
      obtain ⟨⟨report', t₂⟩, hrun, -, rfl⟩ := hinvalidate
      refine ⟨invalidate_works hrun, ?_⟩
      simp only [invalidate, eq_ok, Prod.mk.injEq] at hrun
      obtain ⟨-, next, -, -, -, rfl⟩ := hrun
      rfl
  rw [← hhead]
  exact hfirst.trans ((Commit.head payload).works ⟨⟨rfl, rfl, le_refl _⟩, .refl _⟩)

theorem importMetadata_moves {addresses : List PublicAddress} (offered : List PublicAddress)
    (h : t.importMetadata W scope expected addresses = .ok (generation, t')) :
    Moves W scope offered t t' ∧ t.Grows (addresses.map PublicAddress.origin) t' := by
  simp only [importMetadata, eq_ok, Prod.mk.injEq] at h
  obtain ⟨-, next, hnext, t₁, hinsert, -, rfl, rfl⟩ := h
  obtain ⟨-, rfl⟩ := nextGeneration_eq_ok hnext
  obtain ⟨hrecords, hcovered⟩ := insertAddresses_records hinsert
  exact ⟨hrecords.moves, hrecords.cleared (fun _ he => List.mem_map_of_mem he) hcovered⟩

end ScopeTables

end QuaiSdk.Storage
