import QuaiSdk.Storage.Extends

/-!
# Reservations

What a transaction on operations leaves in place, and the rows that the insertions and the two
reservations write.  The relation to carry through a loop is `Extends` from the custody at the start,
because a new operation must not have been signed there.
-/

namespace QuaiSdk.Storage

open Result Wallet

variable {W : HdCrypto} {t t' : ScopeTables} {id : ReservationId}

theorem Status.transaction_revert (first : ℕ) (status : Status) :
    (status.revert first).transaction = status.transaction := by
  cases status with
  | confirmed =>
    simp only [Status.revert]
    split <;> rfl
  | reserved | signed | submitted | released => rfl

namespace ScopeTables

/-- The effect of a transaction that only works on operations and snapshots. -/
structure Kept (t t' : ScopeTables) : Prop where
  keys : t.SameKeys t'
  custody : t.custody.Keeps t'.custody

theorem Kept.refl (t : ScopeTables) : t.Kept t := ⟨.refl t, .refl t.custody⟩

theorem Kept.trans {t'' : ScopeTables} (h : t.Kept t') (h' : t'.Kept t'') : t.Kept t'' :=
  ⟨h.keys.trans h'.keys, h.custody.trans h'.custody⟩

theorem Kept.withCustody {f : Custody → Custody} (h : t.custody.Extends (f t.custody))
    (hclaims : (f t.custody).nonceClaims = t.custody.nonceClaims)
    (hcursors : (f t.custody).nonceCursors = t.custody.nonceCursors) :
    t.Kept (t.withCustody f) :=
  ⟨.withCustody f, h.keeps hclaims hcursors⟩

variable {scope : NetworkScope} {height expected generation : ℕ} {outpoints seen : List OutPoint}
  {kind : OperationKind} {address : Address} {nonce : UInt64}

theorem nextGeneration_eq_ok {next : ℕ} (h : t.nextGeneration expected = .ok next) :
    t.generation = expected ∧ next = t.generation + 1 := by
  simp only [nextGeneration, eq_ok] at h
  obtain ⟨hexpected, -, rfl⟩ := h
  exact ⟨not_not.mp hexpected, rfl⟩

theorem transaction_of_require {old : Status} (h : t.requireReservation id = .ok old) :
    t.custody.transaction id = old.transaction := by
  simp only [requireReservation, okOr_eq_ok, Option.map_eq_some_iff] at h
  obtain ⟨row, hrow, rfl⟩ := h
  exact Custody.transaction_eq_of_lookup hrow

theorem insertReservation_eq_ok (h : t.insertReservation id kind = .ok t') :
    t.custody.reservations.lookup id = none ∧ t' = t.withCustody fun c =>
        { c with reservations := c.reservations.insert id ⟨kind, .reserved⟩ } := by
  simp only [insertReservation, eq_ok, Table.insertNew_eq_ok] at h
  obtain ⟨reservations, ⟨hnew, rfl⟩, rfl⟩ := h
  exact ⟨hnew, rfl⟩

/-- Every outpoint is a free coin, and exactly these are claimed. -/
structure Claims (id : ReservationId) (outpoints : List OutPoint) (t t' : ScopeTables) : Prop where
  free : ∀ o ∈ outpoints, o ∈ t.coins ∧ t.custody.qiClaims.lookup o = none
  claims : ∀ o claim, t'.custody.qiClaims.lookup o = some claim ↔
    t.custody.qiClaims.lookup o = some claim ∨
      o ∈ outpoints ∧ ∃ coin, t.coins.lookup o = some coin ∧ claim = ⟨id, coin.row.address⟩

/-- The claims of one reservation; the custody before it judges them. -/
theorem claimOutpoints_eq_ok (h : claimOutpoints id height outpoints seen t = .ok t') :
    Claims id outpoints t t' ∧
      (∀ c : Custody, c.transaction id = none → c.Extends t.custody → c.Extends t'.custody) ∧
      ∃ qiClaims, t' = t.withCustody fun c => { c with qiClaims } := by
  induction outpoints generalizing seen t with
  | nil =>
    cases h
    exact ⟨⟨by simp, by simp⟩, fun c _ hc => hc, t'.custody.qiClaims, rfl⟩
  | cons first rest ih =>
    simp only [claimOutpoints, claimOutpoint, eq_ok] at h
    obtain ⟨-, t₁, ⟨coin, hcoin, -, hnew, -, rfl⟩, hrest⟩ := h
    rw [← AList.lookup_eq_none] at hnew
    obtain ⟨⟨hfree, hclaims⟩, hext, qiClaims, rfl⟩ := ih hrest
    have hinsert : ∀ o, (t.withCustody fun c => { c with
        qiClaims := c.qiClaims.insert first ⟨id, coin.row.address⟩ }).custody.qiClaims.lookup o =
          if o = first then some ⟨id, coin.row.address⟩ else t.custody.qiClaims.lookup o :=
      fun _ => Table.lookup_insert_eq
    simp only [hinsert] at hfree hclaims
    refine ⟨⟨fun o ho => ?_, fun o claim => ?_⟩,
      fun c hid hc => hext c hid (hc.insertQiClaim hid hnew), qiClaims, rfl⟩
    · by_cases heq : o = first
      · subst heq
        exact ⟨AList.lookup_isSome.mp (by rw [hcoin]; rfl), hnew⟩
      · -- an outpoint free after the insertion was free before it
        have hafter := hfree o ((List.mem_cons.mp ho).resolve_left heq)
        rwa [if_neg heq] at hafter
    · rw [hclaims, List.mem_cons]
      by_cases heq : o = first
      · subst heq
        rw [if_pos rfl, hnew, hcoin]
        simp only [withCustody, hcoin, Option.some.injEq, reduceCtorEq, false_or, true_or, true_and,
          exists_eq_left', @eq_comm _ claim, or_iff_left_iff_imp, and_imp, imp_self, implies_true]
      · rw [if_neg heq]
        simp only [heq, false_or, withCustody]

theorem reserveQi_eq_ok (h : t.reserveQi id generation height outpoints = .ok t') :
    t.custody.reservations.lookup id = none ∧ Claims id outpoints t t' ∧
      ∃ qiClaims, t' = t.withCustody fun c =>
        { c with qiClaims, reservations := c.reservations.insert id ⟨.qi, .reserved⟩ } := by
  simp only [reserveQi, eq_ok] at h
  obtain ⟨-, -, t₁, hinsert, hclaims⟩ := h
  obtain ⟨hnew, rfl⟩ := insertReservation_eq_ok hinsert
  obtain ⟨⟨hfree, hclaims⟩, -, qiClaims, rfl⟩ := claimOutpoints_eq_ok hclaims
  exact ⟨hnew, ⟨hfree, hclaims⟩, qiClaims, rfl⟩

theorem reserveQi_kept (h : t.reserveQi id generation height outpoints = .ok t') : t.Kept t' := by
  simp only [reserveQi, eq_ok] at h
  obtain ⟨-, -, t₁, hinsert, hclaims⟩ := h
  obtain ⟨hnew, rfl⟩ := insertReservation_eq_ok hinsert
  have hunsigned : t.custody.transaction id = none :=
    Custody.transaction_eq_none_of_notMem (AList.lookup_eq_none.mp hnew)
  have hstart := (Custody.Extends.refl t.custody).insertReservation ⟨.qi, .reserved⟩ hnew
  obtain ⟨-, hext, qiClaims, rfl⟩ := claimOutpoints_eq_ok hclaims
  exact ⟨(SameKeys.withCustody _).trans (.withCustody _), (hext _ hunsigned hstart).keeps rfl rfl⟩

theorem insertNonceClaim_eq_ok (h : t.insertNonceClaim address nonce id = .ok t') :
    t.custody.nonceClaims.lookup (address, nonce) = none ∧ t' = t.withCustody fun c =>
        { c with nonceClaims := c.nonceClaims.insert (address, nonce) id } := by
  simp only [insertNonceClaim, eq_ok, Table.insertNew_eq_ok] at h
  obtain ⟨-, claims, ⟨hnew, rfl⟩, rfl⟩ := h
  exact ⟨hnew, rfl⟩

theorem setNonceCursor_eq_ok {next : UInt64} (h : t.setNonceCursor address next = .ok t') :
    t' = t.withCustody fun c => { c with nonceCursors := c.nonceCursors.insert address next } := by
  simp only [setNonceCursor, eq_ok] at h
  exact h.2.symm

theorem le_maxNonce {n : UInt64} (h : t.custody.nonceCursors.lookup address = some n) :
    n ≤ t.maxNonce address nonce := by
  rw [maxNonce, h, Option.getD_some]
  change n ≤ if nonce ≤ n then n else nonce
  split
  · exact UInt64.le_refl n
  · rename_i hlt
    exact UInt64.le_of_lt (UInt64.not_le.mp hlt)

theorem lt_succ_of_checked {n : UInt64} (h : ¬ n.toNat + 1 = 2 ^ 64) : n < n + 1 := by
  have hsize := n.toNat_lt
  change n.toNat < (n.toNat + 1) % 2 ^ 64
  omega

/-- The new claim sits at the old cursor or above it, and the cursor moves past the claim. -/
theorem reserveNonce_kept {address : QuaiAddress} {remote : UInt64}
    (h : t.reserveNonce scope id address remote = .ok (nonce, t')) : t.Kept t' := by
  simp only [reserveNonce, eq_ok, Prod.mk.injEq] at h
  obtain ⟨-, ⟨⟩, -, hchecked, t₁, hinsert, t₂, hclaim, t₃, hcursor, rfl, rfl⟩ := h
  obtain ⟨hnew, rfl⟩ := insertReservation_eq_ok hinsert
  obtain ⟨hfree, rfl⟩ := insertNonceClaim_eq_ok hclaim
  cases setNonceCursor_eq_ok hcursor
  have hlt := lt_succ_of_checked hchecked
  have hraise : ∀ n, t.custody.nonceCursors.lookup address.address = some n →
      n ≤ t.maxNonce address.address remote + 1 :=
    fun n hn => UInt64.le_trans (le_maxNonce hn) (UInt64.le_of_lt hlt)
  refine ⟨⟨rfl, rfl, le_refl _⟩, ?_, fun hbelow => ?_⟩
  · have hunsigned : t.custody.transaction id = none :=
      Custody.transaction_eq_none_of_notMem (AList.lookup_eq_none.mp hnew)
    exact (((Custody.Extends.refl t.custody).insertReservation _ hnew).insertNonceClaim hunsigned
      hfree).raiseNonceCursor hraise
  · -- raise first, then claim: the two statements commute on the tables
    exact (hbelow.raise hraise).claim (AList.lookup_insert _) hlt

theorem insertVariant_eq_ok {sequence : ℕ} {variant : QuaiReplacement}
    (h : t.insertVariant id sequence variant = .ok t') :
    t.custody.quaiReplacements.lookup (id, sequence) = none ∧ t' = t.withCustody fun c =>
        { c with quaiReplacements := c.quaiReplacements.insert (id, sequence) variant } := by
  simp only [insertVariant, eq_ok, Table.insertNew_eq_ok] at h
  obtain ⟨-, replacements, ⟨hnew, rfl⟩, rfl⟩ := h
  exact ⟨hnew, rfl⟩

theorem kept_clearSnapshot {next : ℕ} (hnext : t.generation ≤ next) :
    t.Kept (t.clearSnapshot next) := ⟨⟨rfl, rfl, hnext⟩, .refl _⟩

end ScopeTables

end QuaiSdk.Storage
