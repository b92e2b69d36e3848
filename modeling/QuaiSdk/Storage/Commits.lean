import QuaiSdk.Storage.Keys

/-!
# What a transaction commits

`Commit` says once everything a committed transaction can do to the rows of one scope, with the checks
that later arguments rely on.  Custody is summarised by its signed bytes; snapshots, observation
caches and released change are kept in full.
-/

namespace QuaiSdk.Storage

open Result Wallet Except

variable {W : HdCrypto}

/-- A coin that a snapshot read accepts in this scope. -/
structure Placed (scope : NetworkScope) (o : OutPoint) (row : CoinRow) : Prop where
  owner : ∃ address : QiAddress, address.address = row.address ∧ address.zone = scope.zone
  zone : o.transactionHash.byte 2 = scope.zone.byte
  hash : o.transactionHash ≠ Hash32.zero

structure BoundChild (W : HdCrypto) (cursor : DerivationCursor) (account index : ℕ)
    (address : Address) : Prop where
  child : ∃ (key : AccountPublic W) (entry : PublicAddress), key.coin = .qi ∧
    key.account = account ∧ key.exportXpub = cursor.xpub ∧
    PublicAddress.derive key true index = .ok entry ∧ entry.address = address

namespace ScopeTables

/-- What `release_change` checks of an address before it lists it. -/
structure Releasable (W : HdCrypto) (t : ScopeTables) (key : ℕ × ℕ) (a : Address) : Prop where
  stored : a ∈ t.addresses
  unsigned : ¬t.inSignedBytes a
  child : ∃ cursor, t.derivationCursors.lookup ⟨.qi, key.1, true⟩ = some cursor ∧
    key.2 < cursor.nextIndex ∧ BoundChild W cursor key.1 key.2 a

/-- Only addresses are added and cursors moved. -/
def Keyed (t t' : ScopeTables) : Prop :=
  ∃ addresses derivationCursors, t' = { t with addresses, derivationCursors } ∧
    (∀ a ∈ t.addresses, a ∈ addresses) ∧ KeepsBound t.derivationCursors derivationCursors

variable {t t' t'' : ScopeTables}

theorem Records.keyed {P : PublicAddress → Prop} (h : t.Records P t') : t.Keyed t' :=
  ⟨_, _, h.only, fun _ => Table.mem_of_lookup h.rows, h.bound⟩

/-- Released change and the head cursor, which operations and keys leave alone. -/
def Lists (t t' : ScopeTables) : Prop :=
  t'.releasedChange = t.releasedChange ∧ t'.headReplay = t.headReplay

theorem Lists.trans (h : t.Lists t') (h' : t'.Lists t'') : t.Lists t'' :=
  ⟨h'.1.trans h.1, h'.2.trans h.2⟩

theorem Keyed.lists (h : t.Keyed t') : t.Lists t' := by
  obtain ⟨addresses, cursors, rfl, -⟩ := h
  exact ⟨rfl, rfl⟩

/-- An address among the offered ones for a key of `released_change`. -/
def Offers (offered : List PublicAddress) (key : ℕ × ℕ) (a : Address) : Prop :=
  ∃ e ∈ offered, e.origin = .bip44 .qi key.1 true key.2 ∧ e.address = a

/-- One step of a committed transaction; `offered` are the addresses that it releases. -/
inductive Commit (W : HdCrypto) (scope : NetworkScope) (offered : List PublicAddress)
    (t : ScopeTables) : ScopeTables → Prop where
  -- operations move, signed bytes stay
  | operations (c : Custody) (payloads : c.signedPayloads = t.custody.signedPayloads)
    (replacements : c.quaiReplacements = t.custody.quaiReplacements) :
    Commit W scope offered t { t with custody := c }
  | signed (c : Custody) (id : ReservationId) (p : SignedPayload)
    (payloads : c.signedPayloads = t.custody.signedPayloads.insert id p)
    (replacements : c.quaiReplacements = t.custody.quaiReplacements) :
    Commit W scope offered t { t.burnSigned p.payload with custody := c }
  | replaced (c : Custody) (key : ReservationId × ℕ) (edge : QuaiReplacement)
    (payloads : c.signedPayloads = t.custody.signedPayloads)
    (replacements : c.quaiReplacements = t.custody.quaiReplacements.insert key edge) :
    Commit W scope offered t { t.burnSigned edge.payload with custody := c }
  -- a write or a tombstone of one cache row
  | observed (slot : ReservationId × Hash32 × UInt16) (cache : ObservationCache)
    (revision : cache.revision = ((t.observationCache.lookup slot).map (·.revision)).getD 0 + 1) :
    Commit W scope offered t { t with observationCache := t.observationCache.insert slot cache }
  | released (listed : Table (ℕ × ℕ) Address)
    (rows : ∀ key a, listed.lookup key = some a → t.releasedChange.lookup key = some a ∨
      Offers offered key a ∧ t.Releasable W key a) :
    Commit W scope offered t { t with releasedChange := listed }
  -- unchanged coins keep their generation
  | advanced (checkpoint : Checkpoint) (scanned : t.checkpoint.isSome) :
    Commit W scope offered t { t with checkpoint := some checkpoint }
  | rewritten (addresses : Table Address AddressRow) (cursors : Table Branch DerivationCursor)
    (coins : Table OutPoint StoredCoin) (checkpoint : Checkpoint)
    (rows : ∀ a ∈ t.addresses, a ∈ addresses)
    (bound : KeepsBound t.derivationCursors cursors)
    (count : coins.entries.length ≤ maxCoins)
    (placed : ∀ o c, coins.lookup o = some c →
      c.generation = t.generation + 1 ∧ c.row.address ∈ addresses ∧ Placed scope o c.row) :
    Commit W scope offered t
      { t with addresses, derivationCursors := cursors, coins, generation := t.generation + 1,
               checkpoint := some checkpoint }
  | recorded (t₁ : ScopeTables) (keyed : t.Keyed t₁) :
    Commit W scope offered t (t₁.clearSnapshot (t.generation + 1))
  -- a reorganisation tombstones every cache row
  | invalidated (c : Custody) (payloads : c.signedPayloads = t.custody.signedPayloads)
    (replacements : c.quaiReplacements = t.custody.quaiReplacements) :
    Commit W scope offered t (clearSnapshot (t.generation + 1)
      { t with
        custody := c
        observationCache := t.observationCache.update fun _ (o : ObservationCache) =>
          ObservationCache.mk (o.revision + 1) none })
  -- a head cursor or a tombstone
  | head (payload : Option Bytes) :
    Commit W scope offered t
      { t with headReplay := some ⟨headRevision t.headReplay + 1, payload⟩ }
  | keyed (t₁ : ScopeTables) (only : t.Keyed t₁) (addresses : t₁.addresses = t.addresses) :
    Commit W scope offered t t₁
  | restored (t₁ : ScopeTables) (released : t₁.releasedChange = ∅)
    (head : t₁.headReplay = t.headReplay.map fun state => ⟨state.revision + 1, none⟩) :
    Commit W scope offered t (t₁.clearSnapshot (t.generation + 1))

abbrev Commits (W : HdCrypto) (scope : NetworkScope) (offered : List PublicAddress) :
    ScopeTables → ScopeTables → Prop := Relation.ReflTransGen (Commit W scope offered)

variable {scope : NetworkScope} {offered : List PublicAddress} {id : ReservationId}

theorem Commit.commits (h : Commit W scope offered t t') : Commits W scope offered t t' := .single h

theorem Commits.invariant {P : ScopeTables → Prop}
    (hstep : ∀ t t', Commit W scope offered t t' → P t → P t') (h : Commits W scope offered t t')
    (ht : P t) : P t' := by
  induction h with
  | refl => exact ht
  | tail _ hlast ih => exact hstep _ _ hlast ih

theorem Commit.generation_le (h : Commit W scope offered t t') : t.generation ≤ t'.generation := by
  cases h with
  | rewritten | recorded | invalidated | restored => exact Nat.le_succ _
  | keyed t₁ only =>
    obtain ⟨addresses, cursors, rfl, -⟩ := only
    exact le_refl _
  | operations | signed | replaced | observed | released | advanced | head => exact le_refl _

theorem Commits.generation_le (h : Commits W scope offered t t') : t.generation ≤ t'.generation :=
  h.invariant (P := fun s : ScopeTables => t.generation ≤ s.generation)
    (fun _ _ hstep hle => hle.trans hstep.generation_le) (le_refl _)

/-- No transaction writes a head cursor under a revision that was there before. -/
theorem Commit.headReplay (h : Commit W scope offered t t') :
    t'.headReplay = t.headReplay ∨ headRevision t.headReplay < headRevision t'.headReplay := by
  cases h with
  | head => exact .inr (Nat.lt_succ_self _)
  | restored t₁ _ head =>
    change t₁.headReplay = _ ∨ _ < headRevision t₁.headReplay
    rw [head]
    cases t.headReplay with
    | none => exact .inl rfl
    | some => exact .inr (Nat.lt_succ_self _)
  | keyed t₁ only | recorded t₁ only =>
    obtain ⟨addresses, cursors, rfl, -⟩ := only
    exact .inl rfl
  | operations | signed | replaced | observed | released | advanced | rewritten | invalidated =>
    exact .inl rfl

theorem Commits.headReplay (h : Commits W scope offered t t') :
    t'.headReplay = t.headReplay ∨ headRevision t.headReplay < headRevision t'.headReplay := by
  refine h.invariant (P := fun s : ScopeTables =>
    s.headReplay = t.headReplay ∨ headRevision t.headReplay < headRevision s.headReplay) ?_ (.inl rfl)
  rintro s s' hstep (hsame | hless)
  · rw [← hsame]
    exact hstep.headReplay
  · right
    rcases hstep.headReplay with hsame | hless'
    · rw [hsame]
      exact hless
    · exact hless.trans hless'

theorem commit_cleared (t : ScopeTables) :
    Commit W scope offered t (t.clearSnapshot (t.generation + 1)) :=
  .recorded t ⟨_, _, rfl, fun _ h => h, .refl _⟩

/-- The steps of a transaction, which keep custody. -/
structure Moves (W : HdCrypto) (scope : NetworkScope) (offered : List PublicAddress)
    (t t' : ScopeTables) : Prop where
  commits : Commits W scope offered t t'
  custody : t.custody.Keeps t'.custody

theorem Moves.refl (t : ScopeTables) : Moves W scope offered t t := ⟨.refl, .refl _⟩

theorem Moves.trans (h : Moves W scope offered t t') (h' : Moves W scope offered t' t'') :
    Moves W scope offered t t'' := ⟨h.commits.trans h'.commits, h.custody.trans h'.custody⟩

theorem moves_setCursor (b : Branch) (xpub : String) (next : ℕ) (t : ScopeTables) :
    Moves W scope offered t (t.setCursor b xpub next) := by
  have honly : t.Keyed (t.setCursor b xpub next) :=
    ⟨_, _, rfl, fun _ h => h, keepsBound_setCursor b xpub next t⟩
  exact ⟨(Commit.keyed _ honly rfl).commits, .refl _⟩

theorem Records.moves {P : PublicAddress → Prop} (h : t.Records P t') :
    Moves W scope offered t (t'.clearSnapshot (t.generation + 1)) :=
  ⟨(Commit.recorded t' h.keyed).commits, h.custody ▸ .refl _⟩

/-- A call that works on operations and snapshots: its steps, and what they leave in place. -/
structure Works (W : HdCrypto) (scope : NetworkScope) (offered : List PublicAddress)
    (t t' : ScopeTables) : Prop where
  commits : Commits W scope offered t t'
  kept : t.Kept t'

theorem Works.refl (t : ScopeTables) : Works W scope offered t t := ⟨.refl, .refl t⟩

theorem Works.trans (h : Works W scope offered t t') (h' : Works W scope offered t' t'') :
    Works W scope offered t t'' := ⟨h.commits.trans h'.commits, h.kept.trans h'.kept⟩

theorem Commit.works (h : Commit W scope offered t t') (hkept : t.Kept t') :
    Works W scope offered t t' := ⟨h.commits, hkept⟩

/-! ### Operations -/

variable {status : Status} {kind : OperationKind}

theorem Works.operations {c : Custody} (hkept : t.Kept t') (hcustody : t' = { t with custody := c })
    (hpayloads : c.signedPayloads = t.custody.signedPayloads)
    (hreplacements : c.quaiReplacements = t.custody.quaiReplacements) :
    Works W scope offered t t' := by
  subst hcustody
  exact (Commit.operations c hpayloads hreplacements).works hkept

theorem works_setStatus
    (hstatus : ∀ h, t.custody.transaction id = some h → status.transaction = some h) :
    Works W scope offered t (t.setStatus id status) := by
  have hkept : t.Kept (t.setStatus id status) :=
    .withCustody ((Custody.Extends.refl _).setStatus hstatus) rfl rfl
  exact .operations hkept rfl rfl rfl

theorem works_setStatus_of_unsigned (hnone : t.custody.transaction id = none) :
    Works W scope offered t (t.setStatus id status) :=
  works_setStatus fun h hsome => by
    rw [hnone] at hsome
    cases hsome

theorem works_setStatus_of_same {old : Status} (hold : t.requireReservation id = .ok old)
    (hsame : status.transaction = old.transaction) :
    Works W scope offered t (t.setStatus id status) := by
  apply works_setStatus
  intro h hsome
  rw [hsame, ← transaction_of_require hold]
  exact hsome

theorem reserveQi_works {generation height : ℕ} {outpoints : List OutPoint}
    (h : t.reserveQi id generation height outpoints = .ok t') : Works W scope offered t t' := by
  have hkept := reserveQi_kept h
  obtain ⟨-, -, qiClaims, rfl⟩ := reserveQi_eq_ok h
  exact .operations hkept rfl rfl rfl

theorem reserveNonce_works {address : QuaiAddress} {remote nonce : UInt64}
    (h : t.reserveNonce scope id address remote = .ok (nonce, t')) :
    Works W scope offered t t' := by
  have hkept := reserveNonce_kept h
  simp only [reserveNonce, eq_ok, Prod.mk.injEq] at h
  obtain ⟨-, ⟨⟩, -, -, t₁, hinsert, t₂, hclaim, t₃, hcursor, rfl, rfl⟩ := h
  obtain ⟨-, rfl⟩ := insertReservation_eq_ok hinsert
  obtain ⟨-, rfl⟩ := insertNonceClaim_eq_ok hclaim
  cases setNonceCursor_eq_ok hcursor
  exact .operations hkept rfl rfl rfl

theorem markSigned_works {transaction : Hash32} (h : t.markSigned id transaction = .ok t') :
    Works W scope offered t t' := by
  simp only [markSigned, bind_eq_ok] at h
  obtain ⟨old, hold, h⟩ := h
  split at h
  · cases h
    exact .refl t
  · simp only [eq_ok, not_not] at h
    obtain ⟨rfl, rfl⟩ := h
    exact works_setStatus_of_unsigned (transaction_of_require hold)

theorem markSubmitted_works (h : t.markSubmitted id = .ok t') : Works W scope offered t t' := by
  simp only [markSubmitted, bind_eq_ok] at h
  obtain ⟨old, hold, h⟩ := h
  split at h <;> cases h
  · exact .refl t
  · exact works_setStatus_of_same hold rfl

theorem observeInclusionScoped_works {expected : ℕ} {transaction : Hash32} {block : Checkpoint}
    (h : t.observeInclusionScoped expected id transaction block = .ok t') :
    Works W scope offered t t' := by
  simp only [observeInclusionScoped, eq_ok] at h
  obtain ⟨-, old, hold, h⟩ := h
  split at h
  · cases h
    exact .refl t
  · simp only [eq_ok, not_and_or, not_not] at h
    obtain ⟨hsigned, rfl⟩ := h
    apply works_setStatus_of_same hold
    rcases hsigned with rfl | rfl <;> rfl

theorem invalidateInclusion_works {expected : Checkpoint}
    (h : t.invalidateInclusion id expected = .ok t') : Works W scope offered t t' := by
  simp only [invalidateInclusion, bind_eq_ok] at h
  obtain ⟨old, hold, h⟩ := h
  split at h
  · rw [ite_error_eq_ok, ok.injEq] at h
    rw [← h.2]
    exact works_setStatus_of_same hold rfl
  · cases h

theorem reopenUnsignedNonce_works (h : t.reopenUnsignedNonce id = .ok t') :
    Works W scope offered t t' := by
  simp only [reopenUnsignedNonce, eq_ok, not_not] at h
  obtain ⟨old, hold, rfl, -, rfl⟩ := h
  exact works_setStatus_of_unsigned (transaction_of_require hold)

/-- The only transaction that deletes claims. -/
theorem releaseUnsigned_works (h : t.releaseUnsigned id = .ok t') : Works W scope offered t t' := by
  simp only [releaseUnsigned, eq_ok, not_not] at h
  obtain ⟨old, hold, rfl, rfl⟩ := h
  have hunsigned : t.custody.transaction id = none := transaction_of_require hold
  have hdeleted : t.Kept (t.withCustody fun c =>
      { c with qiClaims := c.qiClaims.delete fun _ (claim : QiClaim) => claim.operation = id }) :=
    .withCustody ((Custody.Extends.refl _).deleteQiClaims hunsigned) rfl rfl
  exact (Works.operations hdeleted rfl rfl rfl).trans (works_setStatus_of_unsigned hunsigned)

/-! ### Signed bytes -/

theorem kept_burnSigned (payload : Bytes) : t.Kept (t.burnSigned payload) :=
  ⟨⟨rfl, rfl, le_refl _⟩, .refl _⟩

theorem storePayload_works {hash : Hash32} {payload : Bytes} {row : ReservationRow}
    (hrow : t.custody.reservations.lookup id = some row)
    (h : t.storePayload id hash kind payload row.status.state = .ok t') :
    Works W scope offered t t' := by
  simp only [storePayload, bind_eq_ok, Table.insertNew_eq_ok] at h
  obtain ⟨payloads, ⟨hnew, rfl⟩, h⟩ := h
  have hstored : t.Kept (t.withCustody fun c =>
      { c with signedPayloads := c.signedPayloads.insert id ⟨kind, payload⟩ }) :=
    .withCustody ((Custody.Extends.refl _).insertPayload hnew) rfl rfl
  have hburned : Works W scope offered t ((t.withCustody fun c =>
      { c with signedPayloads := c.signedPayloads.insert id ⟨kind, payload⟩ }).burnSigned payload) :=
    Commit.works (.signed { t.custody with
      signedPayloads := t.custody.signedPayloads.insert id ⟨kind, payload⟩ } id ⟨kind, payload⟩ rfl rfl)
      (hstored.trans (kept_burnSigned payload))
  split at h
  · rename_i hstate
    cases h
    apply hburned.trans
    apply works_setStatus_of_unsigned
    change t.custody.transaction id = none
    rw [Custody.transaction_eq_of_lookup hrow]
    cases hstatus : row.status <;> rw [hstatus] at hstate <;> first | rfl | cases hstate
  · cases h
    exact hburned

theorem commitPayload_works {hash : Hash32} {payload : Bytes}
    (h : t.commitPayload id hash kind payload = .ok t') : Works W scope offered t t' := by
  simp only [commitPayload, eq_ok] at h
  obtain ⟨-, row, hrow, -, h⟩ := h
  split at h
  · -- the same bytes again
    rw [ite_error_eq_ok] at h
    cases h.2
    exact .refl t
  · exact storePayload_works hrow h

variable {C : Crypto} {account : AccountPublic W} {candidate : Hash32} {payload : Option Bytes}
  {revision : ℕ}

theorem commitSignedQuai_works {signed : SignedQuaiTransaction C}
    (h : t.commitSignedQuai scope id signed = .ok t') : Works W scope offered t t' := by
  simp only [commitSignedQuai, eq_ok] at h
  obtain ⟨payload, -, hash, -, -, ⟨⟩, -, h⟩ := h
  exact commitPayload_works h

theorem commitSignedQiOperation_works {signed : SignedQiOperation C}
    (h : t.commitSignedQiOperation scope id signed = .ok t') : Works W scope offered t t' := by
  simp only [commitSignedQiOperation, eq_ok] at h
  obtain ⟨payload, -, hash, -, -, ⟨⟩, -, h⟩ := h
  exact commitPayload_works h

theorem tombstoneFamily_works (h : t.tombstoneFamily id candidate = .ok t') :
    Works W scope offered t t' := by
  simp only [tombstoneFamily] at h
  split at h
  · cases h
    exact .refl t
  · rename_i cache hcache
    rw [ite_error_eq_ok, ok.injEq] at h
    rw [← h.2]
    refine (Commit.observed _ _ ?_).works ⟨⟨rfl, rfl, le_refl _⟩, .refl _⟩
    rw [hcache]
    rfl

theorem commitReplacementPayload_works {parent : Hash32} {payload : Bytes}
    (h : t.commitReplacementPayload C scope id parent payload = .ok t') :
    Works W scope offered t t' := by
  simp only [commitReplacementPayload, eq_ok] at h
  obtain ⟨record, -, -, stored, -, root, -, variants, -, h⟩ := h
  split at h
  · simp only [eq_ok] at h
    obtain ⟨⟨⟩, -, rfl⟩ := h
    exact .refl t
  · simp only [bind_eq_ok, appendVariant] at h
    obtain ⟨⟨⟩, -, candidate, -, t₁, hinsert, htomb⟩ := h
    obtain ⟨hnew, rfl⟩ := insertVariant_eq_ok hinsert
    have hinserted : t.Kept (t.withCustody fun c => { c with
        quaiReplacements := c.quaiReplacements.insert (id, variants.length) ⟨parent, payload⟩ }) :=
      .withCustody ((Custody.Extends.refl _).insertReplacement hnew) rfl rfl
    have hreplaced : Works W scope offered t ((t.withCustody fun c => { c with
        quaiReplacements := c.quaiReplacements.insert (id, variants.length) ⟨parent, payload⟩
        }).burnSigned payload) :=
      Commit.works (.replaced
        { t.custody with quaiReplacements :=
            t.custody.quaiReplacements.insert (id, variants.length) ⟨parent, payload⟩ }
        (id, variants.length) ⟨parent, payload⟩ rfl rfl)
        (hinserted.trans (kept_burnSigned payload))
    exact hreplaced.trans (tombstoneFamily_works htomb)

/-! ### Observations and released change -/

theorem writeObservation_works {slot : UInt16} {expected : Option ℕ}
    (h : t.writeObservation id candidate slot expected payload = .ok (revision, t')) :
    Works W scope offered t t' := by
  simp only [writeObservation, eq_ok, Prod.mk.injEq] at h
  obtain ⟨-, -, -, -, -, rfl⟩ := h
  exact (Commit.observed _ _ rfl).works ⟨⟨rfl, rfl, le_refl _⟩, .refl _⟩

theorem compareExchangeObservationScoped_works {slot : UInt16} {expected : ℕ × Option ℕ}
    (h : t.compareExchangeObservationScoped C scope id candidate slot expected payload =
      .ok (revision, t')) :
    Works W scope offered t t' := by
  simp only [compareExchangeObservationScoped, eq_ok] at h
  obtain ⟨-, -, ⟨⟩, -, h⟩ := h
  exact writeObservation_works h

theorem compareExchangeFamilyObservationScoped_works {candidates : List Hash32}
    {expected : ℕ × Option ℕ}
    (h : t.compareExchangeFamilyObservationScoped C scope id candidates expected payload =
      .ok (revision, t')) :
    Works W scope offered t t' := by
  cases candidates with
  | nil => cases h
  | cons =>
    simp only [compareExchangeFamilyObservationScoped, eq_ok] at h
    obtain ⟨-, -, ⟨root, variants⟩, -, actual, -, -, h⟩ := h
    exact writeObservation_works h

theorem changeCursor_eq_ok {next : ℕ} (h : t.changeCursor account = .ok (some next)) :
    ∃ cursor, t.derivationCursors.lookup ⟨.qi, account.account, true⟩ = some cursor ∧
      cursor.xpub = account.exportXpub ∧ cursor.nextIndex = next := by
  simp only [changeCursor] at h
  split at h
  · cases h
  · rename_i cursor hcursor
    simp only [eq_ok, not_not, Option.some.injEq] at h
    exact ⟨cursor, hcursor, h.1, h.2⟩

theorem releaseAddress_listed {next : ℕ} {cursor : DerivationCursor} {a : PublicAddress}
    (hcoin : account.coin = .qi)
    (hcursor : t.derivationCursors.lookup ⟨.qi, account.account, true⟩ = some cursor)
    (hxpub : cursor.xpub = account.exportXpub) (hnext : cursor.nextIndex = next)
    (h : releaseAddress account next t a = .ok t') :
    ∃ listed, t' = { t with releasedChange := listed } ∧
      ∀ key b, listed.lookup key = some b → t.releasedChange.lookup key = some b ∨
        (a.origin = .bip44 .qi key.1 true key.2 ∧ a.address = b) ∧ t.Releasable W key b := by
  simp only [releaseAddress] at h
  split at h
  · rename_i owner index horigin
    simp only [eq_ok, not_or, not_not, not_le] at h
    obtain ⟨⟨rfl, hindex⟩, derived, hderive, rfl, ⟨⟩, hstored, hunsigned, h⟩ := h
    split at h <;> cases h
    · exact ⟨_, rfl, fun _ _ hlisted => .inl hlisted⟩
    · refine ⟨_, rfl, fun key b hlisted => ?_⟩
      rw [Table.lookup_insert_eq] at hlisted
      split at hlisted
      · rename_i hkey
        cases hlisted
        subst hkey
        have hmem : derived.address ∈ t.addresses := by
          by_contra habsent
          rw [requireAddress, if_neg habsent] at hstored
          cases hstored
        refine .inr ⟨⟨horigin, rfl⟩, hmem, hunsigned, cursor, hcursor, hnext ▸ hindex, ?_⟩
        exact ⟨account, derived, hcoin, rfl, hxpub.symm, hderive, rfl⟩
      · exact .inl hlisted
  · cases h

theorem releaseChange_works {addresses : List PublicAddress}
    (h : t.releaseChange account addresses = .ok t') : Works W scope addresses t t' := by
  simp only [releaseChange, eq_ok, not_or, not_not] at h
  obtain ⟨⟨hcoin, -⟩, found, hfound, next, rfl, h⟩ := h
  obtain ⟨cursor, hcursor, hxpub, hnext⟩ := changeCursor_eq_ok hfound
  refine foldlM_invariant_mem (P := Works W scope addresses t) ?_ (.refl t) h
  intro s a s' ha hs hstep
  -- nothing but the list changes, so the cursor stays the one that was read
  obtain ⟨listed, rfl, hlisted⟩ :=
    releaseAddress_listed hcoin (hs.kept.keys.derivationCursors ▸ hcursor) hxpub hnext hstep
  have hrelease : Commit W scope addresses s { s with releasedChange := listed } :=
    .released listed fun key b hb =>
      (hlisted key b hb).imp_right fun hnew => ⟨⟨a, ha, hnew.1⟩, hnew.2⟩
  exact hs.trans (hrelease.works ⟨⟨rfl, rfl, le_refl _⟩, .refl _⟩)

theorem takeAddress_eq_ok {index : ℕ} {taken taken' : List PublicAddress}
    (h : takeAddress account (taken, t) index = .ok (taken', t')) :
    ∃ e, PublicAddress.derive account true index = .ok e ∧
      t.releasedChange.lookup (account.account, index) = some e.address ∧ taken' = taken ++ [e] ∧
      t' = { t with releasedChange := t.releasedChange.erase (account.account, index) } := by
  simp only [takeAddress, eq_ok, not_not, Prod.mk.injEq] at h
  obtain ⟨e, hderive, hlookup, rfl, rfl⟩ := h
  exact ⟨e, hderive, hlookup, rfl, rfl⟩

theorem takeAddress_works {index : ℕ} {taken taken' : List PublicAddress}
    (h : takeAddress account (taken, t) index = .ok (taken', t')) :
    Works W scope offered t t' := by
  obtain ⟨e, -, -, -, rfl⟩ := takeAddress_eq_ok h
  refine (Commit.released _ fun key' b hb => .inl ?_).works ⟨⟨rfl, rfl, le_refl _⟩, .refl _⟩
  rw [Table.lookup_erase_eq] at hb
  split at hb
  · cases hb
  · exact hb

theorem takeReleasedChange_works {max : ℕ} {taken : List PublicAddress}
    (h : t.takeReleasedChange account max = .ok (taken, t')) :
    Works W scope offered t t' := by
  simp only [takeReleasedChange, ite_error_eq_ok] at h
  obtain ⟨-, h⟩ := h
  split at h
  · cases h
    exact .refl t
  · simp only [bind_eq_ok] at h
    obtain ⟨cursor, -, h⟩ := h
    split at h
    · cases h
      exact .refl t
    · exact foldlM_invariant (P := fun s => Works W scope offered t s.2)
        (fun s index s' hs hstep => hs.trans (takeAddress_works hstep)) (Works.refl t) h

end ScopeTables

end QuaiSdk.Storage
