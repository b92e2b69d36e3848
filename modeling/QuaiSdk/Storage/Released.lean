import QuaiSdk.Storage.AllocationKept
import QuaiSdk.Storage.CommitCalls

/-!
# Address rows and released change

Which rows the metadata transactions add to `addresses`, and how the two halves of change recycling
and the storage of a payload move released addresses.
-/

namespace QuaiSdk.Storage

open Result Wallet

variable {W : HdCrypto}

theorem DiscoveryBatch.addresses_derived {P : PublicAddress → Prop} {scope : NetworkScope}
    {checkpoint : Checkpoint} {reports : List DiscoveryReport} {batch : DiscoveryBatch}
    (hP : ∀ report ∈ reports, ∀ account,
      AccountPublic.importXpub W report.accountXpub report.coin report.account = .ok account →
      ∀ change index e, PublicAddress.derive account change index = .ok e → P e)
    (h : reports.foldlM (addReport W scope checkpoint) ⟨[], []⟩ = .ok batch) :
    ∀ e ∈ batch.addresses, P e := by
  refine collect_invariant (P := fun batch => ∀ e ∈ batch.addresses, P e) (by simp) ?_ h
  intro report hreport account haccount observed _ s derived coins hs hderived _ e he
  rcases List.mem_append.mp he with he | he
  · exact hs e he
  · rw [List.mem_singleton.mp he]
    exact hP report hreport account haccount _ _ derived hderived

namespace ScopeTables

variable {t t' t'' : ScopeTables} {P : PublicAddress → Prop}

/-- Rows stay, new ones satisfy `P`, and neither operations nor released change are touched. -/
structure Adds (P : PublicAddress → Prop) (t t' : ScopeTables) : Prop
    extends AddsRows P t t' where
  releasedChange : t'.releasedChange = t.releasedChange
  custody : t'.custody = t.custody

theorem Adds.trans (h : t.Adds P t') (h' : t'.Adds P t'') : t.Adds P t'' where
  toAddsRows := h.toAddsRows.trans h'.toAddsRows
  releasedChange := h'.releasedChange.trans h.releasedChange
  custody := h'.custody.trans h.custody

theorem Adds.imp {Q : PublicAddress → Prop} (h : t.Adds P t') (hPQ : ∀ e, P e → Q e) : t.Adds Q t' :=
  { h with toAddsRows := h.toAddsRows.imp hPQ }

theorem Adds.mem (h : t.Adds P t') {a : Address} (ha : a ∈ t.addresses) : a ∈ t'.addresses :=
  Table.mem_of_lookup h.rows ha

theorem Records.adds (h : t.Records P t') : t.Adds P t' :=
  ⟨h.toAddsRows, h.keyed.lists.1, h.custody⟩

theorem Adds.of_eq (haddresses : t'.addresses = t.addresses)
    (hreleased : t'.releasedChange = t.releasedChange) (hcustody : t'.custody = t.custody) :
    t.Adds P t' :=
  ⟨.of_eq haddresses, hreleased, hcustody⟩

variable {scope : NetworkScope} {account : AccountPublic W}

theorem mem_insertAddress {a : PublicAddress} (h : t.insertAddress W scope a = .ok t') :
    a.address ∈ t'.addresses := by
  simp only [insertAddress, bind_eq_ok] at h
  obtain ⟨⟨⟩, -, t₁, hrecord, h⟩ := h
  have hmem : a.address ∈ t₁.addresses := by
    obtain ⟨hrow, rfl⟩ | ⟨-, rfl⟩ := recordAddress_eq_ok hrecord
    · exact Table.mem_iff_lookup.mpr ⟨_, hrow⟩
    · exact (AList.mem_insert _).mpr (.inl rfl)
  -- what follows only moves a cursor
  split at h
  · cases h
    exact hmem
  · simp only [eq_ok] at h
    obtain ⟨⟨⟩, -, rfl⟩ := h
    exact hmem

theorem insertAddresses_adds {addresses : List PublicAddress} (hP : ∀ a ∈ addresses, P a)
    (h : t.insertAddresses W scope addresses = .ok t') : t.Adds P t' :=
  ((insertAddresses_records h).1.imp hP).adds

theorem importMetadata_adds {expected generation : ℕ} {addresses : List PublicAddress}
    (hP : ∀ a ∈ addresses, P a)
    (h : t.importMetadata W scope expected addresses = .ok (generation, t')) : t.Adds P t' := by
  simp only [importMetadata, eq_ok, Prod.mk.injEq] at h
  obtain ⟨-, next, -, t₁, hinsert, -, rfl, rfl⟩ := h
  exact (insertAddresses_adds hP hinsert).trans (.of_eq rfl rfl rfl)

theorem commitDiscovery_adds {expected generation : ℕ} {reports : List DiscoveryReport}
    (hP : ∀ report ∈ reports, ∀ account,
      AccountPublic.importXpub W report.accountXpub report.coin report.account = .ok account →
        ∀ change index e, PublicAddress.derive account change index = .ok e → P e)
    (h : t.commitDiscovery W scope expected reports = .ok (generation, t')) : t.Adds P t' := by
  obtain ⟨checkpoint, batch, t₁, coins, hbatch, hinsert, -, rfl⟩ := commitDiscovery_eq_ok h
  exact (insertAddresses_adds (DiscoveryBatch.addresses_derived hP hbatch) hinsert).trans
    (.of_eq rfl rfl rfl)

/-- A compact allocation adds the row of the child it returns, which was not there before. -/
theorem allocateCompact_adds {change : Bool} {maxAttempts : ℕ} {cancelled : ℕ → Bool}
    {allocated : AllocatedAddress} (hc : t.Covered)
    (h : t.allocateCompact scope account change maxAttempts cancelled = .ok (allocated, t')) :
    (∃ index, PublicAddress.derive account change index = .ok allocated.address) ∧
      t.Adds (· = allocated.address) t' ∧ allocated.address.address ∈ t'.addresses ∧
      allocated.address.address ∉ t.addresses ∧ t'.Covered := by
  obtain ⟨i, hcompacted⟩ := allocateCompact_spec h
  have hnew : allocated.address.address ∉ t.addresses := by
    rw [← AList.lookup_eq_none]
    refine hcompacted.row.resolve_right fun hr => ?_
    have hlt := hcompacted.fresh.recorded hc i hr
    exact absurd hcompacted.low (Nat.not_le.mpr hlt)
  have hcovered := hcompacted.grows.covered hc
  simp only [allocateCompact, eq_ok, finishAllocation, Prod.mk.injEq] at h
  obtain ⟨⟨range, polls⟩, -, ⟨found, polls'⟩, -, -, address, hderive, next, -, -, t₁, hinsert, rfl,
    rfl⟩ := h
  have hmem := mem_insertAddress hinsert
  refine ⟨⟨_, hderive⟩, ?_, hmem, hnew, hcovered⟩
  have hcursor : t.Adds (· = address)
      (t.setCursor (branchOf account change) account.exportXpub (found.address.index + 1)) :=
    .of_eq rfl rfl rfl
  exact hcursor.trans ((insertAddress_records hinsert).adds.trans (.of_eq rfl rfl rfl))

theorem releaseAddress_eq_ok {cursor : ℕ} {a : PublicAddress}
    (h : releaseAddress account cursor t a = .ok t') :
    t' = t ∨ ∃ key, key ∉ t.releasedChange ∧
      t' = { t with releasedChange := t.releasedChange.insert key a.address } := by
  simp only [releaseAddress] at h
  split at h
  · simp only [eq_ok] at h
    obtain ⟨-, derived, -, -, ⟨⟩, -, -, h⟩ := h
    split at h <;> cases h
    · exact .inl rfl
    · rename_i hnew
      exact .inr ⟨_, hnew, rfl⟩
  · cases h

/-- A payload signed for an unsigned operation is stored, unless it was stored before. -/
theorem commitPayload_eq_ok {id : ReservationId} {hash : Hash32} {kind : OperationKind}
    {payload : Bytes} {row : ReservationRow} (hrow : t.custody.reservations.lookup id = some row)
    (hreserved : row.status = .reserved) (h : t.commitPayload id hash kind payload = .ok t') :
    t' = t ∨ t' = ((t.withCustody fun c => { c with
      signedPayloads := c.signedPayloads.insert id ⟨kind, payload⟩ }).burnSigned payload).setStatus
        id (.signed hash) := by
  simp only [commitPayload, eq_ok] at h
  obtain ⟨-, row', hrow', -, h⟩ := h
  rw [hrow, Option.some.injEq] at hrow'
  subst hrow'
  split at h
  · simp only [eq_ok] at h
    exact .inl h.2.symm
  · simp only [storePayload, eq_ok, Table.insertNew_eq_ok, hreserved, Status.state, if_true] at h
    obtain ⟨payloads, ⟨-, rfl⟩, rfl⟩ := h
    exact .inr rfl

end ScopeTables

end QuaiSdk.Storage
