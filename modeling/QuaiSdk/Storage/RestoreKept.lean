import QuaiSdk.Storage.Commits

/-!
# What a restore leaves in place

A restore of a validated backup keeps custody and only records the backed-up addresses.  Nonce
cursors come first: every restored nonce claim then lies below the cursor that validation compared
it with.
-/

namespace QuaiSdk.Storage

open Result Wallet Except

variable {C : Crypto} {W : HdCrypto} {t t' t₀ t₁ : ScopeTables}

namespace ScopeTables

variable {next : ℕ} {nonces : List NonceState} {b : Branch} {P : PublicAddress → Prop}
  {id : ReservationId} {scope : NetworkScope} {rows : List (Address × AddressRow)}

theorem mergeCursor_records {xpub : String} : t.Records P (t.mergeCursor b xpub next) := by
  rw [mergeCursor]
  split
  · rename_i hnone
    refine records_setCursor fun n hn => ?_
    rw [cursor, hnone] at hn
    cases hn
  · rename_i old hold
    refine records_setCursor fun n hn => ?_
    rw [cursor, hold] at hn
    cases hn
    exact le_max_left _ _

theorem restoreCursors_records {cursors : List DerivationState}
    (h : cursors.foldlM (restoreCursor W) t = .ok t') : t.Records P t' := by
  apply foldlM_invariant _ (.refl _ _) h
  intro s cursor s' hs hstep
  simp only [restoreCursor, eq_ok] at hstep
  obtain ⟨⟨⟩, -, rfl⟩ := hstep
  exact hs.trans mergeCursor_records

theorem raisePast_records (row : Address × AddressRow) : t.Records P (t.raisePast row) := by
  rw [raisePast]
  split
  · exact .refl _ _
  · exact records_raiseCursor _ _ _

theorem foldl_raisePast_records (rows : List (Address × AddressRow)) :
    t.Records P (rows.foldl raisePast t) := by
  induction rows generalizing t with
  | nil => exact .refl _ _
  | cons row rows ih => exact (raisePast_records row).trans ih

theorem addresses_foldl_raisePast (rows : List (Address × AddressRow)) :
    (rows.foldl raisePast t).addresses = t.addresses := by
  induction rows generalizing t with
  | nil => rfl
  | cons row rows ih =>
    rw [List.foldl_cons, ih, raisePast]
    split <;> rfl

theorem cursor_raisePast {row : Address × AddressRow} (h : (t.raisePast row).cursor b = some next) :
    ∃ n, t.cursor b = some n ∧ n ≤ next := by
  rw [raisePast] at h
  split at h
  · exact ⟨next, h, le_refl next⟩
  · rw [cursor_raiseCursor, Option.map_eq_some_iff] at h
    obtain ⟨n, hn, rfl⟩ := h
    refine ⟨n, hn, ?_⟩
    split
    · exact le_max_left _ _
    · exact le_refl n

theorem cursor_foldl_raisePast
    (h : (rows.foldl raisePast t).cursor b = some next) : ∃ n, t.cursor b = some n ∧ n ≤ next := by
  induction rows generalizing t with
  | nil => exact ⟨next, h, le_refl next⟩
  | cons row rest ih =>
    obtain ⟨m, hm, hle⟩ := ih h
    obtain ⟨n, hn, hle'⟩ := cursor_raisePast hm
    exact ⟨n, hn, hle'.trans hle⟩

theorem lt_cursor_of_mem_foldl {row : Address × AddressRow}
    (hmem : row ∈ rows) {index : ℕ} (horigin : row.2.origin = b.origin index)
    (hnext : (rows.foldl raisePast t).cursor b = some next) : index < next := by
  induction rows generalizing t with
  | nil => cases hmem
  | cons first rest ih =>
    rcases List.mem_cons.mp hmem with rfl | hmem
    · -- this row's own raise; the rows after it only raise further
      rw [List.foldl_cons] at hnext
      obtain ⟨n, hn, hle⟩ := cursor_foldl_raisePast hnext
      rw [raisePast, horigin] at hn
      simp only [Branch.origin] at hn
      rw [cursor_raiseCursor, Option.map_eq_some_iff] at hn
      obtain ⟨m, -, rfl⟩ := hn
      rw [if_pos rfl] at hle
      omega
    · exact ih hmem hnext

/-- The last pass over the stored addresses covers the scope, whatever the cursors were. -/
theorem covered_raiseAll (t : ScopeTables) : t.raiseAll.Covered := by
  rintro b next index hnext ⟨a, row, hrow, horigin⟩
  rw [raiseAll, addresses_foldl_raisePast, ← Table.mem_rows] at hrow
  exact lt_cursor_of_mem_foldl hrow horigin hnext

theorem restoreNonce_eq_ok {nonce : NonceState} (h : t.restoreNonce nonce = .ok t') :
    t' = t.withCustody fun c => { c with
      nonceCursors := c.nonceCursors.insert nonce.address.address
        (t.maxNonce nonce.address.address nonce.nextNonce) } :=
  setNonceCursor_eq_ok h

theorem restoreNonce_kept {nonce : NonceState} (h : t.restoreNonce nonce = .ok t') : t.Kept t' := by
  cases restoreNonce_eq_ok h
  have hraise : ∀ n, t.custody.nonceCursors.lookup nonce.address.address = some n →
      n ≤ t.maxNonce nonce.address.address nonce.nextNonce := fun n hn => le_maxNonce hn
  exact ⟨.withCustody _, (Custody.Extends.refl _).raiseNonceCursor hraise,
    fun hbelow => hbelow.raise hraise⟩

theorem restoreNonces_kept (h : nonces.foldlM restoreNonce t = .ok t') : t.Kept t' ∧ t.Lists t' := by
  refine foldlM_invariant (P := fun s => t.Kept s ∧ t.Lists s) ?_ ⟨.refl t, rfl, rfl⟩ h
  rintro s nonce s' ⟨hkept, hlists⟩ hstep
  refine ⟨hkept.trans (restoreNonce_kept hstep), ?_⟩
  cases restoreNonce_eq_ok hstep
  exact hlists

def NonceMerged (nonce : NonceState) (t : ScopeTables) : Prop :=
  ∃ next, t.custody.nonceCursors.lookup nonce.address.address = some next ∧ nonce.nextNonce ≤ next

theorem le_maxNonce_left (address : Address) (nonce : UInt64) : nonce ≤ t.maxNonce address nonce := by
  rw [maxNonce]
  generalize (t.custody.nonceCursors.lookup address).getD 0 = n
  change nonce ≤ if nonce ≤ n then n else nonce
  split
  · assumption
  · exact UInt64.le_refl nonce

theorem restoreNonces_merged (h : nonces.foldlM restoreNonce t = .ok t') :
    ∀ nonce ∈ nonces, t'.NonceMerged nonce := by
  refine foldlM_establishes (Q := NonceMerged) ?_ ?_ h
  · intro s nonce s' hstep
    cases restoreNonce_eq_ok hstep
    exact ⟨_, AList.lookup_insert _, le_maxNonce_left _ _⟩
  · rintro s nonce s' other ⟨next, hnext, hle⟩ hstep
    have hkept := restoreNonce_kept hstep
    obtain ⟨next', hnext', hle'⟩ := hkept.custody.extends_.nonceCursors _ next hnext
    exact ⟨next', hnext', UInt64.le_trans hle hle'⟩

/-- The operation loop: `t₀` is before the transaction, `t₁` before the loop. -/
structure Restoring (t₀ t₁ t : ScopeTables) : Prop where
  custody : t₀.custody.Extends t.custody
  keys : t₁.SameKeys t
  cursors : t.custody.nonceCursors = t₁.custody.nonceCursors
  lists : t₁.Lists t

theorem Restoring.withCustody {f : Custody → Custody} (h : t₀.Restoring t₁ t)
    (hext : t₀.custody.Extends (f t.custody))
    (hcursors : (f t.custody).nonceCursors = t.custody.nonceCursors) :
    t₀.Restoring t₁ (t.withCustody f) :=
  ⟨hext, h.keys.trans (.withCustody f), hcursors.trans h.cursors, h.lists⟩

theorem insertQiClaims_restoring {claims : List (OutPoint × Address)}
    (hid : t₀.custody.transaction id = none) (ht : t₀.Restoring t₁ t)
    (h : claims.foldlM (insertQiClaim id) t = .ok t') :
    t₀.Restoring t₁ t' ∧ t'.custody.nonceClaims = t.custody.nonceClaims := by
  apply foldlM_invariant (P := fun s => t₀.Restoring t₁ s ∧
    s.custody.nonceClaims = t.custody.nonceClaims) _ ⟨ht, rfl⟩ h
  rintro s claim s' ⟨hs, hclaims⟩ hstep
  simp only [insertQiClaim, eq_ok, Table.insertNew_eq_ok] at hstep
  obtain ⟨-, table, ⟨hnew, rfl⟩, rfl⟩ := hstep
  exact ⟨hs.withCustody (hs.custody.insertQiClaim hid hnew) rfl, hclaims⟩

theorem restorePayload_restoring {kind : OperationKind} {payload : Option Bytes}
    (ht : t₀.Restoring t₁ t) (h : t.restorePayload C scope id kind payload = .ok t') :
    t₀.Restoring t₁ t' ∧ t'.custody.nonceClaims = t.custody.nonceClaims := by
  cases payload with
  | none =>
    cases h
    exact ⟨ht, rfl⟩
  | some =>
    simp only [restorePayload, eq_ok, Table.insertNew_eq_ok] at h
    obtain ⟨-, table, ⟨hnew, rfl⟩, stored, -, root, -, rfl⟩ := h
    exact ⟨ht.withCustody (ht.custody.insertPayload hnew) rfl, rfl⟩

theorem insertVariants_restoring {sequence : ℕ} {variants : List QuaiReplacement}
    (ht : t₀.Restoring t₁ t) (h : insertVariants id sequence variants t = .ok t') :
    t₀.Restoring t₁ t' ∧ t'.custody.nonceClaims = t.custody.nonceClaims := by
  induction variants generalizing sequence t with
  | nil =>
    cases h
    exact ⟨ht, rfl⟩
  | cons variant rest ih =>
    simp only [insertVariants, bind_eq_ok] at h
    obtain ⟨t₂, hinsert, hrest⟩ := h
    obtain ⟨hnew, rfl⟩ := insertVariant_eq_ok hinsert
    obtain ⟨hrestoring, hclaims⟩ :=
      ih (ht.withCustody (ht.custody.insertReplacement hnew) rfl) hrest
    exact ⟨hrestoring, hclaims⟩

def NonceBacked (nonces : List NonceState) (operation : OperationState) : Prop :=
  ∀ a n, operation.nonce = some (a, n) → ∃ s ∈ nonces, s.address = a ∧ n < s.nextNonce

theorem restoreNonceClaim_restoring {operation : OperationState}
    (hid : t₀.custody.transaction id = none) (hmerged : ∀ nonce ∈ nonces, t₁.NonceMerged nonce)
    (hbacked : NonceBacked nonces operation) (ht : t₀.Restoring t₁ t)
    (h : t.restoreNonceClaim id operation.nonce = .ok t') :
    t₀.Restoring t₁ t' ∧ (t.custody.NoncesBelow → t'.custody.NoncesBelow) := by
  cases hnonce : operation.nonce with
  | none =>
    rw [hnonce] at h
    cases h
    exact ⟨ht, fun hb => hb⟩
  | some claim =>
    obtain ⟨address, nonce⟩ := claim
    rw [hnonce] at h
    obtain ⟨hnew, rfl⟩ := insertNonceClaim_eq_ok h
    obtain ⟨state, hmem, rfl, hlt⟩ := hbacked address nonce hnonce
    obtain ⟨next, hnext, hle⟩ := hmerged state hmem
    rw [← ht.cursors] at hnext
    exact ⟨ht.withCustody (ht.custody.insertNonceClaim hid hnew) rfl,
      fun hb => hb.claim hnext (UInt64.lt_of_lt_of_le hlt hle)⟩

theorem restoreOperation_restoring {operation : OperationState}
    (hmerged : ∀ nonce ∈ nonces, t₁.NonceMerged nonce) (hbacked : NonceBacked nonces operation)
    (ht : t₀.Restoring t₁ t) (h : restoreOperation C scope t operation = .ok t') :
    t₀.Restoring t₁ t' ∧ (t.custody.NoncesBelow → t'.custody.NoncesBelow) := by
  simp only [restoreOperation, bind_eq_ok] at h
  obtain ⟨old, -, h⟩ := h
  cases old with
  | some =>
    -- the store has the operation already: it must be the same one
    simp only [eq_ok] at h
    obtain ⟨-, rfl⟩ := h
    exact ⟨ht, fun hb => hb⟩
  | none =>
    simp only [insertOperation, bind_eq_ok, Table.insertNew_eq_ok] at h
    obtain ⟨kind, -, status, -, table, ⟨hnew, rfl⟩, t₂, hqi, t₃, hnonce, t₄, hpayload, hrest⟩ := h
    have hid : t₀.custody.transaction operation.record.id = none :=
      ht.custody.transaction_eq_none (AList.lookup_eq_none.mp hnew)
    have hinserted : t₀.Restoring t₁ (t.withCustody fun c => { c with
        reservations := c.reservations.insert operation.record.id ⟨kind, status⟩ }) :=
      ht.withCustody (ht.custody.insertReservation _ hnew) rfl
    obtain ⟨h₂, hclaims₂⟩ := insertQiClaims_restoring hid hinserted hqi
    obtain ⟨h₃, hbelow₃⟩ := restoreNonceClaim_restoring hid hmerged hbacked h₂ hnonce
    obtain ⟨h₄, hclaims₄⟩ := restorePayload_restoring h₃ hpayload
    obtain ⟨h₅, hclaims₅⟩ := insertVariants_restoring h₄ hrest
    refine ⟨h₅, fun hbelow => ?_⟩
    have hbelow₂ : t₂.custody.NoncesBelow :=
      hbelow.of_tables hclaims₂ (h₂.cursors.trans ht.cursors.symm)
    exact (hbelow₃ hbelow₂).of_tables (hclaims₅.trans hclaims₄) (h₅.cursors.trans h₃.cursors.symm)

theorem clearHead_eq_ok (h : t.clearHead = .ok t') : t' =
    { t with headReplay := t.headReplay.map fun state => ⟨state.revision + 1, none⟩ } := by
  rw [clearHead] at h
  split at h
  · rename_i hnone
    cases h
    rw [hnone, Option.map_none, ← hnone]
  · rename_i state hsome
    rw [ite_error_eq_ok, ok.injEq] at h
    rw [← h.2, hsome, Option.map_some]

theorem restoreOperations_restoring {operations : List OperationState}
    (hmerged : ∀ nonce ∈ nonces, t₁.NonceMerged nonce)
    (hbacked : ∀ operation ∈ operations, NonceBacked nonces operation)
    (hstart : t₀.custody.Extends t₁.custody)
    (h : operations.foldlM (restoreOperation C scope) t₁ = .ok t') :
    t₀.Restoring t₁ t' ∧ (t₁.custody.NoncesBelow → t'.custody.NoncesBelow) := by
  refine foldlM_invariant_mem (P := fun s =>
    t₀.Restoring t₁ s ∧ (t₁.custody.NoncesBelow → s.custody.NoncesBelow)) ?_ ?_ h
  · rintro s operation s' hmem ⟨hs, hbelow⟩ hstep
    obtain ⟨hs', hbelow'⟩ := restoreOperation_restoring hmerged (hbacked operation hmem) hs hstep
    exact ⟨hs', fun hb => hbelow' (hbelow hb)⟩
  · exact ⟨⟨hstart, .refl _, rfl, rfl, rfl⟩, fun hb => hb⟩

/-- One scope of a validated backup.  Released change is dropped before any operation is inserted, and
the head cursor is cleared after. -/
theorem restoreScope_moves {offered : List PublicAddress} {state : ScopeState}
    (hbacked : ∀ operation ∈ state.operations, NonceBacked state.nonces operation)
    (h : t.restoreScope W state = .ok (next, t')) :
    Moves W scope offered t t' ∧ t.Grows (state.addresses.map PublicAddress.origin) t' := by
  simp only [restoreScope, eq_ok, Prod.mk.injEq] at h
  obtain ⟨next, hnext, t₁, haddresses, -, t₂, hcursors, t₃, hnonces, t₄, hoperations, t₅, hhead, -,
    rfl⟩ := h
  obtain ⟨-, rfl⟩ := nextGeneration_eq_ok hnext
  obtain rfl := clearHead_eq_ok hhead
  obtain ⟨hfirst, -⟩ := insertAddresses_records haddresses
  have hrecords : ScopeTables.Records _ _ t₂.raiseAll :=
    (hfirst.trans (restoreCursors_records hcursors)).trans (foldl_raisePast_records _)
  obtain ⟨hkept, hlists⟩ := restoreNonces_kept hnonces
  have hstart : t.custody.Extends t₃.custody := by
    have hext := hkept.custody.extends_
    rw [hrecords.custody] at hext
    exact hext
  obtain ⟨hrestoring, hbelow⟩ :=
    restoreOperations_restoring (restoreNonces_merged hnonces) hbacked hstart hoperations
  obtain ⟨hreleased, hreplay⟩ := hrecords.keyed.lists.trans (hlists.trans hrestoring.lists)
  have hsame := hkept.keys.trans hrestoring.keys
  have hdropped : t.SameKeys { t with observationCache := ∅, releasedChange := ∅ } :=
    ⟨rfl, rfl, le_refl _⟩
  have hcommit : Commit W scope offered t _ :=
    .restored { t₄ with headReplay := t₄.headReplay.map fun state => ⟨state.revision + 1, none⟩ }
      hreleased (congrArg (Option.map _) hreplay)
  refine ⟨⟨hcommit.commits, hrestoring.custody, fun hb => ?_⟩,
    (hdropped.grows _).trans (hrecords.grows (fun _ he => List.mem_map_of_mem he)
      (fun _ => covered_raiseAll t₂) ⟨hsame.addresses, hsame.derivationCursors,
        hrecords.generation.le.trans (Nat.le_succ _)⟩ (Nat.lt_succ_self _))⟩
  have hb₂ : t₂.raiseAll.custody.NoncesBelow := hrecords.custody ▸ hb
  exact hbelow (hkept.custody.nonces hb₂)

end ScopeTables

namespace WalletBackup

variable {B : Backend}

theorem checkOperation_backed {scope : ScopeState} {used used' : Used} {operation : OperationState}
    (h : checkOperation C scope used operation = .ok used') :
    ScopeTables.NonceBacked scope.nonces operation := by
  intro a n hnonce
  simp only [checkOperation, eq_ok] at h
  obtain ⟨-, ⟨⟩, -, -, used₁, hclaims, -⟩ := h
  rw [checkClaims] at hclaims
  split at hclaims
  · -- an operation on outputs has no nonce
    rw [ite_error_eq_ok, not_or, not_not] at hclaims
    rw [hclaims.1.1] at hnonce
    cases hnonce
  · rw [hnonce] at hclaims
    simp only [ite_error_eq_ok, not_or, not_not] at hclaims
    exact hclaims.2.1.1

theorem validate_backed {b : WalletBackup B} {owners : List B.PrivateCode}
    (h : b.validate = .ok owners) :
    ∀ scope ∈ b.state.scopes, ∀ operation ∈ scope.operations,
      ScopeTables.NonceBacked scope.nonces operation := by
  simp only [validate, eq_ok] at h
  obtain ⟨-, -, -, ⟨owners', owned⟩, -, proof, -, total, hscopes, -⟩ := h
  refine foldlM_establishes (Q := fun scope _ => ∀ operation ∈ scope.operations,
    ScopeTables.NonceBacked scope.nonces operation) ?_ (fun _ _ _ _ hq _ => hq) hscopes
  intro s scope s' hscope
  simp only [checkScope, bind_eq_ok] at hscope
  obtain ⟨⟨seen, checks⟩, -, cursors, -, nonces, -, used, hoperations, -⟩ := hscope
  exact foldlM_establishes (Q := fun operation _ => ScopeTables.NonceBacked scope.nonces operation)
    (fun _ _ _ hstep => checkOperation_backed hstep) (fun _ _ _ _ hq _ => hq) hoperations

end WalletBackup

def PublicWalletState.originsOf (state : PublicWalletState) (scope : NetworkScope) :
    List KeyOrigin :=
  (state.scopes.filter fun s => s.scope = scope).flatMap fun s =>
    s.addresses.map PublicAddress.origin

namespace Database

open ScopeTables (Moves)

variable {B : Backend} {db db' db'' : Database} {W : HdCrypto}
  {offered : NetworkScope → List PublicAddress} {origins : NetworkScope → List KeyOrigin}

theorem tables_insert (db : Database) (scope scope' : NetworkScope) (t : ScopeTables) :
    tables { db with scopes := db.scopes.insert scope t } scope' =
      if scope' = scope then t else db.tables scope' := by
  rw [tables, Table.lookup_insert_eq]
  split <;> rfl

/-- Every scope moves and grows. -/
def Merges (W : HdCrypto) (offered : NetworkScope → List PublicAddress)
    (origins : NetworkScope → List KeyOrigin) (db db' : Database) : Prop :=
  ∀ scope, Moves W scope (offered scope) (db.tables scope) (db'.tables scope) ∧
    (db.tables scope).Grows (origins scope) (db'.tables scope)

theorem Merges.refl (db : Database) : db.Merges W offered origins db :=
  fun _ => ⟨.refl _, .refl _ _⟩

theorem Merges.trans (h : db.Merges W offered origins db') (h' : db'.Merges W offered origins db'') :
    db.Merges W offered origins db'' :=
  fun scope => ⟨(h scope).1.trans (h' scope).1, (h scope).2.trans (h' scope).2⟩

theorem Merges.of_scopes (h : db'.scopes = db.scopes) : db.Merges W offered origins db' := by
  intro scope
  rw [tables, tables, h]
  exact ⟨.refl _, .refl _ _⟩

variable {scope : NetworkScope} {generations : List (NetworkScope × ℕ)}

theorem Merges.insert {t : ScopeTables} (hmoves : Moves W scope (offered scope) (db.tables scope) t)
    (hgrows : (db.tables scope).Grows (origins scope) t) :
    db.Merges W offered origins { db with scopes := db.scopes.insert scope t } := by
  intro scope'
  rw [tables_insert]
  split
  · rename_i heq
    subst heq
    exact ⟨hmoves, hgrows⟩
  · exact ⟨.refl _, .refl _ _⟩

theorem restoreScopes_merges {state : PublicWalletState}
    (hbacked : ∀ scope ∈ state.scopes, ∀ operation ∈ scope.operations,
      ScopeTables.NonceBacked scope.nonces operation)
    (h : state.scopes.foldlM (restoreScope W) ([], db) = .ok (generations, db')) :
    db.Merges W offered state.originsOf db' := by
  refine foldlM_invariant_mem (P := fun st => db.Merges W offered state.originsOf st.2) ?_ (.refl db) h
  rintro ⟨generations₁, db₁⟩ scope st' hmem hs hstep
  simp only [restoreScope, eq_ok] at hstep
  obtain ⟨⟨next, t⟩, hscope, rfl⟩ := hstep
  obtain ⟨hmoves, hgrows⟩ := ScopeTables.restoreScope_moves (hbacked scope hmem) hscope
  refine hs.trans (.insert hmoves { hgrows with added := fun a row hrow => ?_ })
  refine (hgrows.added a row hrow).imp_right fun horigin => ?_
  exact List.mem_flatMap.mpr ⟨scope, List.mem_filter.mpr ⟨hmem, decide_eq_true rfl⟩, horigin⟩

theorem restoreChannel_scopes {entry : StoredPaymentChannel × B.PrivateCode}
    (h : restoreChannel db entry = .ok db') : db'.scopes = db.scopes := by
  simp only [restoreChannel, bind_eq_ok] at h
  obtain ⟨incoming, -, existing, -, merged, -, hwrite⟩ := h
  simp only [writeChannel, eq_ok] at hwrite
  obtain ⟨metadata, -, -, -, rfl⟩ := hwrite
  rfl

theorem insertExposure_scopes {allowIdentical : Bool} {exposure : StoredPaymentExposure}
    (h : insertExposure allowIdentical db exposure = .ok db') : db'.scopes = db.scopes := by
  simp only [insertExposure] at h
  split at h
  · split at h <;> cases h
    rfl
  · simp only [eq_ok] at h
    obtain ⟨-, -, rfl⟩ := h
    rfl

theorem invalidateScope_merges {networks : List Network} {skip : List NetworkScope}
    {st st' : List (NetworkScope × ℕ) × Database}
    (h : invalidateScope networks skip st scope = .ok st') :
    st.2.Merges W offered origins st'.2 := by
  obtain ⟨generations, db⟩ := st
  simp only [invalidateScope] at h
  split at h
  · simp only [eq_ok] at h
    obtain ⟨next, hnext, rfl⟩ := h
    obtain ⟨-, rfl⟩ := ScopeTables.nextGeneration_eq_ok hnext
    have hkept := ScopeTables.kept_clearSnapshot (t := db.tables scope) (Nat.le_succ _)
    exact .insert ⟨(ScopeTables.commit_cleared _).commits, hkept.custody⟩ (hkept.keys.grows _)
  · cases h
    exact .refl db

theorem restoreChannels_merges {state : PublicWalletState} {owners : List B.PrivateCode}
    {generations' : List (NetworkScope × ℕ)}
    (h : db.restoreChannels state owners generations = .ok (generations', db')) :
    db.Merges W offered origins db' := by
  simp only [restoreChannels, eq_ok] at h
  obtain ⟨-, db₁, hchannels, db₂, hexposures, hinvalidate⟩ := h
  have h₁ : db₁.scopes = db.scopes :=
    foldlM_invariant (P := fun d : Database => d.scopes = db.scopes)
      (fun _ _ _ hs hstep => (restoreChannel_scopes hstep).trans hs) rfl hchannels
  have h₂ : db₂.scopes = db.scopes :=
    foldlM_invariant (P := fun d : Database => d.scopes = db.scopes)
      (fun _ _ _ hs hstep => (insertExposure_scopes hstep).trans hs) h₁ hexposures
  exact foldlM_invariant (P := fun st => db.Merges W offered origins st.2)
    (fun _ _ _ hs hstep => hs.trans (invalidateScope_merges hstep)) (.of_scopes h₂) hinvalidate

theorem restore_merges {backup : WalletBackup B}
    (h : db.restore scope backup = .ok (generations, db')) :
    db.Merges B.toHdCrypto offered backup.state.originsOf db' := by
  simp only [restore, eq_ok] at h
  obtain ⟨owners, hvalid, h⟩ := h
  simp only [restorePublicState, eq_ok] at h
  obtain ⟨-, ⟨generations₁, db₁⟩, hscopes, hchannels⟩ := h
  exact (restoreScopes_merges (WalletBackup.validate_backed hvalid) hscopes).trans
    (restoreChannels_merges hchannels)

end Database

end QuaiSdk.Storage
