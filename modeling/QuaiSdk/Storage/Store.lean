import QuaiSdk.Storage.IndexBurning
import QuaiSdk.Storage.Payments

/-!
# The store with its payment channels

`System` with the transactions of `storage/payment.rs`: the complete set of writers of one database
file.  A payment allocation takes part twice, as an address allocation does.
-/

namespace QuaiSdk.Storage

open Result Wallet ScopeTables Except

variable {B : Backend}

structure IssuedPayment (B : Backend) where
  scope : NetworkScope
  channel : ChannelKey
  direction : PaymentDirection
  allocation : PaymentAddressAllocation B

inductive StoreAction (B : Backend) where
  | wallet (action : Action B)
  | importPaymentChannel (scope : NetworkScope) (owner : B.PrivateCode) (channel : PaymentChannel)
      (expected : Option ℕ)
  | importPaymentReceiveIndexes (scope : NetworkScope) (owner : B.PrivateCode) (peer : Bytes)
      (indexes : List ℕ)
  | reservePayment (scope : NetworkScope) (owner : B.PrivateCode) (peer : Bytes)
      (direction : PaymentDirection) (maxAttempts : ℕ) (cancelled : ℕ → Bool)
  -- the second transaction of the `k`-th payment allocation under way
  | completePayment (k : ℕ)
  -- that call ends after its first transaction
  | abandonPayment (k : ℕ)
  | allocatePaymentCompact (scope : NetworkScope) (owner : B.PrivateCode) (peer : Bytes)
      (direction : PaymentDirection) (maxAttempts : ℕ) (cancelled : ℕ → Bool)

structure Store (B : Backend) where
  wallet : System B
  payments : List (NetworkScope × PendingPayment B)
  paid : List (IssuedPayment B)

namespace Store

def empty : Store B := ⟨.empty, [], []⟩

abbrev db (s : Store B) : Database := s.wallet.db

def tables (s : Store B) (scope : NetworkScope) : ScopeTables := s.db.tables scope

def write (s : Store B) (db : Database) : Store B := { s with wallet := { s.wallet with db } }

def commit (s : Store B) (result : Except StorageError Database) : Store B :=
  match result with
  | .ok db => s.write db
  | .error _ => s

def issue (s : Store B) (scope : NetworkScope) (channel : ChannelKey) (direction : PaymentDirection)
    (result : Except StorageError (PaymentAddressAllocation B × Database)) : Store B :=
  match result with
  | .ok (allocation, db) =>
    { s.write db with paid := s.paid ++ [⟨scope, channel, direction, allocation⟩] }
  | .error _ => s

def next (s : Store B) : StoreAction B → Store B
  | .wallet action => { s with wallet := s.wallet.next action }
  | .importPaymentChannel scope owner channel expected =>
    s.commit ((s.db.importPaymentChannel scope owner channel expected).map Prod.snd)
  | .importPaymentReceiveIndexes scope owner peer indexes =>
    s.commit (s.db.importPaymentReceiveIndexes scope owner peer indexes)
  | .reservePayment scope owner peer direction maxAttempts cancelled =>
    match s.db.reservePayment scope owner peer direction maxAttempts cancelled with
    | .ok (p, db) => { s.write db with payments := s.payments ++ [(scope, p)] }
    | .error _ => s
  | .completePayment k =>
    match s.payments[k]? with
    | none => s
    | some (scope, p) =>
      issue { s with payments := s.payments.eraseIdx k } scope (ownedKey scope.network p.owner p.peer)
        p.direction (s.db.completePayment scope p)
  | .abandonPayment k => { s with payments := s.payments.eraseIdx k }
  | .allocatePaymentCompact scope owner peer direction maxAttempts cancelled =>
    s.issue scope (ownedKey scope.network owner peer) direction
      (s.db.allocatePaymentCompact scope owner peer direction maxAttempts cancelled)

def after (actions : List (StoreAction B)) : Store B := Run.run next empty actions

theorem after_append (before later : List (StoreAction B)) :
    after (before ++ later) = Run.run next (after before) later := Run.run_append _ _ _

theorem after_concat (before : List (StoreAction B)) (action : StoreAction B) :
    after (before ++ [action]) = (after before).next action := after_append before [action]

end Store

/-- Imported keys are recorded by a transaction that is still open. -/
structure ScopeTables.Imports (t t' : ScopeTables) : Prop where
  records : t.Records (·.origin = .importedPublic) t'
  covered : t.Covered → t'.Covered

theorem ScopeTables.Imports.refl (t : ScopeTables) : t.Imports t := ⟨.refl _ t, id⟩

namespace Database

variable {db db' : Database} {scope : NetworkScope} {owner : B.PrivateCode} {peer : Bytes}

/-- Rows stay but for added addresses of imported keys and invalidated snapshots. -/
abbrev Pays (W : HdCrypto) (db db' : Database) : Prop :=
  db.Merges W (fun _ => []) (fun _ => [.importedPublic]) db'

variable {W : HdCrypto} {direction : PaymentDirection} {generation : ℕ}
  {generations : List (NetworkScope × ℕ)} {key : B.PublicKey}
  {allocation : PaymentAddressAllocation B}

theorem invalidateNetwork_pays {network : Network}
    (h : db.invalidateNetwork network = .ok (generations, db')) : db.Pays W db' :=
  foldlM_invariant (P := fun st : List (NetworkScope × ℕ) × Database => db.Pays W st.2)
    (fun _ _ _ hs hstep => hs.trans (invalidateScope_merges hstep)) (.refl db) h

theorem writeChannel_scopes {network : Network} {channel : PaymentChannel}
    (h : db.writeChannel B network channel generation = .ok db') : db'.scopes = db.scopes := by
  simp only [writeChannel, eq_ok] at h
  obtain ⟨metadata, -, -, -, rfl⟩ := h
  rfl

theorem importPaymentChannel_pays {channel : PaymentChannel} {expected : Option ℕ}
    (h : db.importPaymentChannel scope owner channel expected = .ok (generation, db')) :
    db.Pays W db' := by
  simp only [importPaymentChannel, eq_ok, Prod.mk.injEq] at h
  obtain ⟨encoded, -, incoming, -, old, -, next, -, db₁, hwrite, ⟨generations, db₂⟩, hnetwork, -,
    rfl⟩ := h
  exact (Merges.of_scopes (writeChannel_scopes hwrite)).trans (invalidateNetwork_pays hnetwork)

theorem imports_insertAddress {a : PublicAddress} {t t' : ScopeTables}
    (ha : PublicAddress.imported B.toHdCrypto key = .ok a)
    (h : t.insertAddress B.toHdCrypto scope a = .ok t') : t.Imports t' := by
  have horigin : a.origin = .importedPublic := by
    rw [PublicAddress.imported] at ha
    split at ha <;> cases ha
    rfl
  exact ⟨(insertAddress_records h).imp fun _ he => he ▸ horigin, insertAddress_covered h⟩

theorem pays_of_imports {t : ScopeTables} {next : ℕ}
    (hothers : ∀ scope', scope' ≠ scope → db'.tables scope' = db.tables scope')
    (himports : (db.tables scope).Imports t) (hnext : t.nextGeneration t.generation = .ok next) :
    db.Pays W { db' with scopes := db'.scopes.insert scope (t.clearSnapshot next) } := by
  obtain ⟨-, rfl⟩ := nextGeneration_eq_ok hnext
  intro scope'
  rw [tables_insert]
  split
  · rename_i heq
    subst heq
    rw [himports.records.generation]
    exact ⟨himports.records.moves,
      himports.records.cleared (fun _ => List.mem_singleton.mpr) himports.covered⟩
  · rename_i hne
    rw [hothers scope' hne]
    exact ⟨.refl _, .refl _ _⟩

/-- Imported keys were recorded in one scope, the others are as they were. -/
structure Recording (scope : NetworkScope) (db db' : Database) : Prop where
  others : ∀ scope', scope' ≠ scope → db'.tables scope' = db.tables scope'
  imports : (db.tables scope).Imports (db'.tables scope)

theorem Recording.trans {db'' : Database} (h : db.Recording scope db')
    (h' : db'.Recording scope db'') : db.Recording scope db'' where
  others scope' hne := (h'.others scope' hne).trans (h.others scope' hne)
  imports := ⟨h.imports.records.trans h'.imports.records,
    fun hc => h'.imports.covered (h.imports.covered hc)⟩

theorem Recording.of_scopes (h : db'.scopes = db.scopes) : db.Recording scope db' := by
  have hsame : ∀ scope, db'.tables scope = db.tables scope := fun scope => by
    rw [tables, tables, h]
  refine ⟨fun scope' _ => hsame scope', ?_⟩
  rw [hsame]
  exact .refl _

theorem importReceiveIndex_recording {st st' : ℕ × Database} {child : ℕ × B.PublicKey × QiAddress}
    (h : importReceiveIndex scope owner peer st child = .ok st') : st.2.Recording scope st'.2 := by
  obtain ⟨stop, db⟩ := st
  simp only [importReceiveIndex, eq_ok] at h
  obtain ⟨db₁, hexposure, imported, himported, t, hinsert, rfl⟩ := h
  have hexposed : db.Recording scope db₁ := .of_scopes (insertExposure_scopes hexposure)
  refine hexposed.trans ⟨fun scope' hne => ?_, ?_⟩
  · rw [tables_insert, if_neg hne]
  · rw [tables_insert, if_pos rfl]
    exact imports_insertAddress himported hinsert

theorem importPaymentReceiveIndexes_pays {indexes : List ℕ}
    (h : db.importPaymentReceiveIndexes scope owner peer indexes = .ok db') : db.Pays W db' := by
  simp only [importPaymentReceiveIndexes, eq_ok] at h
  obtain ⟨-, derived, -, stored, -, ⟨stop, db₁⟩, hloop, h⟩ := h
  have hrecording : db.Recording scope db₁ :=
    foldlM_invariant (P := fun st : ℕ × Database => db.Recording scope st.2)
      (fun _ _ _ hs hstep => hs.trans (importReceiveIndex_recording hstep)) (.of_scopes rfl) hloop
  simp only [finishImport, eq_ok] at h
  obtain ⟨-, channel, -, db₂, hwrite, next, hnext, rfl⟩ := h
  have hwritten := hrecording.trans (.of_scopes (writeChannel_scopes hwrite))
  exact pays_of_imports hwritten.others hwritten.imports hnext

theorem recordOwned_pays {snapshot : Option ℕ}
    (h : db.recordOwned scope direction key = .ok (snapshot, db')) :
    db.Pays W db' := by
  cases direction with
  | send =>
    cases h
    exact .refl db
  | receive =>
    simp only [recordOwned, map_eq_ok, Prod.mk.injEq] at h
    obtain ⟨⟨next, db₁⟩, h, -, rfl⟩ := h
    simp only [recordReceive, eq_ok, Prod.mk.injEq] at h
    obtain ⟨address, himported, -, -, t, hinsert, next', hnext, -, rfl⟩ := h
    exact pays_of_imports (fun _ _ => rfl) (imports_insertAddress himported hinsert) hnext

theorem burnPayments_scopes {stored : PaymentChannel × ℕ} {stop : ℕ}
    (h : db.burnPayments scope owner direction stored stop = .ok (generation, db')) :
    db'.scopes = db.scopes := by
  simp only [burnPayments, eq_ok, Prod.mk.injEq] at h
  obtain ⟨channel, -, -, db₁, hwrite, -, rfl⟩ := h
  exact writeChannel_scopes hwrite

theorem finishPayment_pays {found : PaymentSearchResult B} {burned : IndexRange} {stop : Bool}
    (h : db.finishPayment scope owner peer direction found burned generation stop =
      .ok (allocation, db')) :
    db.Pays W db' := by
  simp only [finishPayment, eq_ok, Prod.mk.injEq] at h
  obtain ⟨-, current, -, -, db₁, hexposure, ⟨snapshot, db₂⟩, howned, -, rfl⟩ := h
  exact (Merges.of_scopes (insertExposure_scopes hexposure)).trans (recordOwned_pays howned)

theorem reservePayment_pays {maxAttempts : ℕ} {cancelled : ℕ → Bool} {p : PendingPayment B}
    (h : db.reservePayment scope owner peer direction maxAttempts cancelled = .ok (p, db')) :
    db.Pays W db' := by
  simp only [reservePayment, eq_ok, Prod.mk.injEq] at h
  obtain ⟨⟨stored, range⟩, -, ⟨generation, db₁⟩, hburn, -, rfl⟩ := h
  exact .of_scopes (burnPayments_scopes hburn)

theorem allocatePaymentCompact_pays {maxAttempts : ℕ} {cancelled : ℕ → Bool}
    (h : db.allocatePaymentCompact scope owner peer direction maxAttempts cancelled =
      .ok (allocation, db')) :
    db.Pays W db' := by
  simp only [allocatePaymentCompact, bind_eq_ok] at h
  obtain ⟨⟨stored, range⟩, -, ⟨found, polls⟩, -, ⟨generation, db₁⟩, hburn, h⟩ := h
  exact (Merges.of_scopes (burnPayments_scopes hburn)).trans (finishPayment_pays h)

end Database

namespace Store

open ScopeTables (Commits)

def offers (action : StoreAction B) (scope : NetworkScope) : List PublicAddress :=
  match action with
  | .wallet action => System.offers action scope
  | _ => []

/-- A payment transaction changes the database as `Pays` says, or nothing. -/
theorem next_pays (s : Store B) {action : StoreAction B} (h : ∀ a, action ≠ .wallet a) :
    s.db.Pays B.toHdCrypto (s.next action).db ∧
      (s.next action).wallet = { s.wallet with db := (s.next action).db } := by
  have hcommit : ∀ result, (∀ db, result = .ok db → s.db.Pays B.toHdCrypto db) →
      s.db.Pays B.toHdCrypto (s.commit result).db ∧
        (s.commit result).wallet = { s.wallet with db := (s.commit result).db } := by
    intro result hresult
    cases result with
    | error => exact ⟨.refl _, rfl⟩
    | ok db => exact ⟨hresult db rfl, rfl⟩
  have hissue : ∀ (s' : Store B) scope channel direction result, s'.wallet = s.wallet →
      (∀ a db, result = .ok (a, db) → s.db.Pays B.toHdCrypto db) →
      s.db.Pays B.toHdCrypto (s'.issue scope channel direction result).db ∧
        (s'.issue scope channel direction result).wallet =
          { s.wallet with db := (s'.issue scope channel direction result).db } := by
    intro s' scope channel direction result hsame hresult
    cases result with
    | error =>
      change s.db.Pays _ s'.wallet.db ∧ s'.wallet = { s.wallet with db := s'.wallet.db }
      rw [hsame]
      exact ⟨.refl _, rfl⟩
    | ok r =>
      refine ⟨hresult r.1 r.2 rfl, ?_⟩
      change { s'.wallet with db := r.2 } = _
      rw [hsame]
      rfl
  cases action with
  | wallet a => exact absurd rfl (h a)
  | importPaymentChannel =>
    apply hcommit
    intro db hdb
    obtain ⟨⟨generation, db'⟩, himport, rfl⟩ := map_eq_ok.mp hdb
    exact Database.importPaymentChannel_pays himport
  | importPaymentReceiveIndexes =>
    exact hcommit _ fun db hdb => Database.importPaymentReceiveIndexes_pays hdb
  | reservePayment =>
    rw [next]
    split
    · rename_i p db hreserve
      exact ⟨Database.reservePayment_pays hreserve, rfl⟩
    · exact ⟨.refl _, rfl⟩
  | completePayment =>
    rw [next]
    split
    · exact ⟨.refl _, rfl⟩
    · refine hissue _ _ _ _ _ rfl fun a db hdb => ?_
      obtain ⟨⟨found, polls⟩, -, hfinish⟩ := bind_eq_ok.mp hdb
      exact Database.finishPayment_pays hfinish
  | abandonPayment => exact ⟨.refl _, rfl⟩
  | allocatePaymentCompact =>
    exact hissue _ _ _ _ _ rfl fun a db hdb => Database.allocatePaymentCompact_pays hdb

theorem next_commits (s : Store B) (action : StoreAction B) (scope : NetworkScope) :
    Commits B.toHdCrypto scope (offers action scope) (s.tables scope)
      ((s.next action).tables scope) := by
  by_cases h : ∃ a, action = .wallet a
  · obtain ⟨a, rfl⟩ := h
    exact ((System.next_effect s.wallet a).moves scope).commits
  · rw [not_exists] at h
    have hnone : offers action scope = [] := by
      cases action with
      | wallet a => exact absurd rfl (h a)
      | _ => rfl
    rw [hnone]
    exact ((s.next_pays h).1 scope).1.commits

theorem next_burning (s : Store B) (action : StoreAction B) (hs : s.wallet.Burning) :
    (s.next action).wallet.Burning := by
  by_cases h : ∃ a, action = .wallet a
  · obtain ⟨a, rfl⟩ := h
    exact (System.next_effect s.wallet a).burning hs
  · rw [not_exists] at h
    obtain ⟨hpays, hwallet⟩ := s.next_pays h
    have hmerges : ∀ scope, (s.wallet.db.tables scope).Grows [.importedPublic]
        ((s.next action).wallet.db.tables scope) := fun scope => (hpays scope).2
    refine hs.grow hmerges ?_ ?_
    · rw [hwallet]
    · rw [hwallet]

theorem burning_after (actions : List (StoreAction B)) : (after actions).wallet.Burning :=
  Run.run_invariant (G := fun _ _ => True) (I := fun s : Store B => s.wallet.Burning)
    (fun s a hs _ => s.next_burning a hs) System.burning_empty actions fun _ _ _ _ => trivial

end Store

end QuaiSdk.Storage
