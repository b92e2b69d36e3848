import QuaiSdk.Lib.Run
import QuaiSdk.Storage.AllocationKept
import QuaiSdk.Storage.CommitCalls
import QuaiSdk.Storage.RestoreKept

/-!
# The store under any interleaving

Handles share one database file; every call is an immediate transaction, so what they do together is
one sequence of transactions.  An ordinary address allocation takes part twice: the state keeps what
its first transaction returned until the second one runs or the call ends without it.
-/

namespace QuaiSdk.Storage

open Result Wallet

inductive Call (B : Backend) where
  | importMetadata (expected : ℕ) (addresses : List PublicAddress)
  | commitDiscovery (expected : ℕ) (reports : List DiscoveryReport)
  | replaceSnapshot (snapshot : Snapshot)
  | reconcileCheckpoint (expected : ℕ) (canonical : Option Checkpoint)
  | invalidateReorgFrom (expected first : ℕ)
  | commitHeadReplay (expected : ℕ) (revision : Option ℕ) (payload : Option Bytes) (first : Option ℕ)
  | reserveQi (id : ReservationId) (generation candidateHeight : ℕ) (outpoints : List OutPoint)
  | reserveNonce (id : ReservationId) (address : QuaiAddress) (remotePending : UInt64)
  | commitSignedQuai (id : ReservationId) (signed : SignedQuaiTransaction B.toCrypto)
  | commitSignedQi (id : ReservationId) (signed : SignedQiTransaction B.toCrypto)
  | commitSignedQiOperation (id : ReservationId) (signed : SignedQiOperation B.toCrypto)
  | commitQuaiReplacement (id : ReservationId) (parent : Hash32)
      (signed : SignedQuaiTransaction B.toCrypto)
  | commitQiReplacement (id : ReservationId) (parent : Hash32) (signed : SignedQiOperation B.toCrypto)
  | markSigned (id : ReservationId) (transaction : Hash32)
  | markSubmitted (id : ReservationId)
  | observeInclusion (expected : ℕ) (id : ReservationId) (transaction : Hash32) (block : Checkpoint)
  | invalidateInclusion (id : ReservationId) (expected : Checkpoint)
  | reopenUnsignedNonce (id : ReservationId)
  | releaseUnsigned (id : ReservationId)
  | compareExchangeObservation (id : ReservationId) (candidate : Hash32) (slot : UInt16)
      (expected : ℕ × Option ℕ) (payload : Option Bytes)
  | compareExchangeFamilyObservation (id : ReservationId) (candidates : List Hash32)
      (expected : ℕ × Option ℕ) (payload : Option Bytes)
  | releaseChange (account : AccountPublic B.toHdCrypto) (addresses : List PublicAddress)
  | takeReleasedChange (account : AccountPublic B.toHdCrypto) (max : ℕ)

namespace Call

variable {B : Backend}

def exec (scope : NetworkScope) (call : Call B) (t : ScopeTables) : Except StorageError ScopeTables :=
  match call with
  | importMetadata expected addresses =>
    (t.importMetadata B.toHdCrypto scope expected addresses).map Prod.snd
  | commitDiscovery expected reports =>
    (t.commitDiscovery B.toHdCrypto scope expected reports).map Prod.snd
  | replaceSnapshot snapshot => (t.replaceSnapshot scope snapshot).map Prod.snd
  | reconcileCheckpoint expected canonical => (t.reconcileCheckpoint expected canonical).map Prod.snd
  | invalidateReorgFrom expected first => (t.invalidateReorgFrom expected first).map Prod.snd
  | commitHeadReplay expected revision payload first =>
    (t.commitHeadReplay expected revision payload first).map Prod.snd
  | reserveQi id generation height outpoints => t.reserveQi id generation height outpoints
  | reserveNonce id address remote => (t.reserveNonce scope id address remote).map Prod.snd
  | commitSignedQuai id signed => t.commitSignedQuai scope id signed
  | commitSignedQi id signed => t.commitSignedQi scope id signed
  | commitSignedQiOperation id signed => t.commitSignedQiOperation scope id signed
  | commitQuaiReplacement id parent signed => t.commitQuaiReplacement scope id parent signed
  | commitQiReplacement id parent signed => t.commitQiReplacement scope id parent signed
  | markSigned id transaction => t.markSigned id transaction
  | markSubmitted id => t.markSubmitted id
  | observeInclusion expected id transaction block =>
    t.observeInclusionScoped expected id transaction block
  | invalidateInclusion id expected => t.invalidateInclusion id expected
  | reopenUnsignedNonce id => t.reopenUnsignedNonce id
  | releaseUnsigned id => t.releaseUnsigned id
  | compareExchangeObservation id candidate slot expected payload =>
    (t.compareExchangeObservationScoped B.toCrypto scope id candidate slot expected payload).map
      Prod.snd
  | compareExchangeFamilyObservation id candidates expected payload =>
    (t.compareExchangeFamilyObservationScoped B.toCrypto scope id candidates expected payload).map
      Prod.snd
  | releaseChange account addresses => t.releaseChange account addresses
  | takeReleasedChange account max => (t.takeReleasedChange account max).map Prod.snd

def origins : Call B → List KeyOrigin
  | importMetadata _ addresses => addresses.map PublicAddress.origin
  | commitDiscovery _ reports => reports.flatMap DiscoveryReport.origins
  | _ => []

end Call

structure Issued where
  scope : NetworkScope
  branch : Branch
  allocated : AllocatedAddress
  deriving DecidableEq

inductive Action (B : Backend) where
  | openScope (scope : NetworkScope)
  | call (scope : NetworkScope) (call : Call B)
  | reserveRange (scope : NetworkScope) (account : AccountPublic B.toHdCrypto) (change : Bool)
      (maxAttempts : ℕ) (cancelled : ℕ → Bool)
  -- the second transaction of the `k`-th allocation under way
  | completeAllocation (k : ℕ)
  -- that call ends after its first transaction: its search failed or the process stopped
  | abandonAllocation (k : ℕ)
  | allocateCompact (scope : NetworkScope) (account : AccountPublic B.toHdCrypto) (change : Bool)
      (maxAttempts : ℕ) (cancelled : ℕ → Bool)
  | restore (scope : NetworkScope) (backup : WalletBackup B)

/-- The file, the allocations under way, and all allocations that succeeded so far. -/
structure System (B : Backend) where
  db : Database
  pending : List (NetworkScope × PendingAllocation B.toHdCrypto)
  issued : List Issued

namespace System

variable {B : Backend}

def empty : System B := ⟨.empty, [], []⟩

def write (s : System B) (scope : NetworkScope) (t : ScopeTables) : System B :=
  { s with db := { s.db with scopes := s.db.scopes.insert scope t } }

def commit (s : System B) (scope : NetworkScope) (result : Except StorageError ScopeTables) :
    System B :=
  match result with
  | .ok t => s.write scope t
  | .error _ => s

def issue (s : System B) (scope : NetworkScope) (branch : Branch)
    (result : Except StorageError (AllocatedAddress × ScopeTables)) : System B :=
  match result with
  | .ok (allocated, t) => { s.write scope t with issued := s.issued ++ [⟨scope, branch, allocated⟩] }
  | .error _ => s

def next (s : System B) : Action B → System B
  | .openScope scope => s.write scope (s.db.tables scope)
  | .call scope call => s.commit scope (call.exec scope (s.db.tables scope))
  | .reserveRange scope account change maxAttempts cancelled =>
    match (s.db.tables scope).reserveRange account change maxAttempts cancelled with
    | .ok (p, t) => { s.write scope t with pending := s.pending ++ [(scope, p)] }
    | .error _ => s
  | .completeAllocation k =>
    match s.pending[k]? with
    | none => s
    | some (scope, p) =>
      issue { s with pending := s.pending.eraseIdx k } scope p.branch
        ((s.db.tables scope).completeAllocation scope p)
  | .abandonAllocation k => { s with pending := s.pending.eraseIdx k }
  | .allocateCompact scope account change maxAttempts cancelled =>
    s.issue scope (branchOf account change)
      ((s.db.tables scope).allocateCompact scope account change maxAttempts cancelled)
  | .restore scope backup =>
    match s.db.restore scope backup with
    | .ok (_, db) => { s with db }
    | .error _ => s

def after (actions : List (Action B)) : System B := Run.run next empty actions

end System

variable {B : Backend} {t t' : ScopeTables}

def Call.offers : Call B → List PublicAddress
  | releaseChange _ addresses => addresses
  | _ => []

open ScopeTables in
theorem Call.exec_effect {scope : NetworkScope} {call : Call B} (h : call.exec scope t = .ok t') :
    Moves B.toHdCrypto scope call.offers t t' ∧ t.Grows call.origins t' := by
  -- all calls but the two that record addresses only work on operations and snapshots
  have hworks : Works B.toHdCrypto scope call.offers t t' →
      Moves B.toHdCrypto scope call.offers t t' ∧ t.Grows call.origins t' :=
    fun hw => ⟨⟨hw.commits, hw.kept.custody⟩, hw.kept.keys.grows _⟩
  cases call <;> simp only [exec, map_eq_ok] at h
  case importMetadata expected addresses =>
    obtain ⟨⟨generation, t₁⟩, h, rfl⟩ := h
    exact importMetadata_moves _ h
  case commitDiscovery expected reports =>
    obtain ⟨⟨generation, t₁⟩, h, rfl⟩ := h
    exact commitDiscovery_moves _ h
  case replaceSnapshot snapshot =>
    obtain ⟨⟨generation, t₁⟩, h, rfl⟩ := h
    exact hworks (replaceSnapshot_works h)
  case reconcileCheckpoint expected canonical =>
    obtain ⟨⟨result, t₁⟩, h, rfl⟩ := h
    exact hworks (reconcileCheckpoint_works h)
  case invalidateReorgFrom expected first =>
    obtain ⟨⟨report, t₁⟩, h, rfl⟩ := h
    exact hworks (invalidate_works h)
  case commitHeadReplay expected revision payload first =>
    obtain ⟨⟨result, t₁⟩, h, rfl⟩ := h
    exact hworks (commitHeadReplay_works h)
  case reserveQi => exact hworks (reserveQi_works h)
  case reserveNonce id address remote =>
    obtain ⟨⟨nonce, t₁⟩, h, rfl⟩ := h
    exact hworks (reserveNonce_works h)
  case commitSignedQuai => exact hworks (commitSignedQuai_works h)
  case commitSignedQi => exact hworks (commitSignedQiOperation_works h)
  case commitSignedQiOperation => exact hworks (commitSignedQiOperation_works h)
  case commitQuaiReplacement id parent signed =>
    simp only [ScopeTables.commitQuaiReplacement, bind_eq_ok] at h
    obtain ⟨payload, -, h⟩ := h
    exact hworks (commitReplacementPayload_works h)
  case commitQiReplacement id parent signed =>
    simp only [ScopeTables.commitQiReplacement, bind_eq_ok] at h
    obtain ⟨payload, -, h⟩ := h
    exact hworks (commitReplacementPayload_works h)
  case markSigned => exact hworks (markSigned_works h)
  case markSubmitted => exact hworks (markSubmitted_works h)
  case observeInclusion => exact hworks (observeInclusionScoped_works h)
  case invalidateInclusion => exact hworks (invalidateInclusion_works h)
  case reopenUnsignedNonce => exact hworks (reopenUnsignedNonce_works h)
  case releaseUnsigned => exact hworks (releaseUnsigned_works h)
  case compareExchangeObservation =>
    obtain ⟨⟨revision, t₁⟩, h, rfl⟩ := h
    exact hworks (compareExchangeObservationScoped_works h)
  case compareExchangeFamilyObservation =>
    obtain ⟨⟨revision, t₁⟩, h, rfl⟩ := h
    exact hworks (compareExchangeFamilyObservationScoped_works h)
  case releaseChange => exact hworks (releaseChange_works h)
  case takeReleasedChange account max =>
    obtain ⟨⟨taken, t₁⟩, h, rfl⟩ := h
    exact hworks (takeReleasedChange_works h)

namespace System

def records (s : System B) (action : Action B) (scope : NetworkScope) : List KeyOrigin :=
  match action with
  | .call scope' call =>
    if scope' = scope ∧ (call.exec scope' (s.db.tables scope')).isOk then call.origins else []
  | .restore scope' backup =>
    if (s.db.restore scope' backup).isOk then backup.state.originsOf scope else []
  | _ => []

def offers (action : Action B) (scope : NetworkScope) : List PublicAddress :=
  match action with
  | .call scope' call => if scope' = scope then call.offers else []
  | _ => []

inductive Effect (s : System B) (action : Action B) : System B → Prop where
  | grown (db : Database) (merges : s.db.Merges B.toHdCrypto (offers action) (s.records action) db) :
    Effect s action { s with db }
  | reserved (scope : NetworkScope) (p : PendingAllocation B.toHdCrypto) (t : ScopeTables)
    (burned : ScopeTables.Burned p (s.db.tables scope) t) :
    Effect s action { s.write scope t with pending := s.pending ++ [(scope, p)] }
  | completed (scope : NetworkScope) (p : PendingAllocation B.toHdCrypto) (t : ScopeTables) (k : ℕ)
    (allocated : AllocatedAddress) (index : ℕ) (pending : s.pending[k]? = some (scope, p))
    (completed : ScopeTables.Completed scope p (s.db.tables scope) allocated t index) :
    Effect s action (issue { s with pending := s.pending.eraseIdx k } scope p.branch
      (.ok (allocated, t)))
  | abandoned (k : ℕ) : Effect s action { s with pending := s.pending.eraseIdx k }
  | compacted (scope : NetworkScope) (b : Branch) (t : ScopeTables) (allocated : AllocatedAddress)
    (index : ℕ) (compacted : ScopeTables.Compacted b (s.db.tables scope) allocated t index) :
    Effect s action (s.issue scope b (.ok (allocated, t)))

theorem tables_write (s : System B) (scope scope' : NetworkScope) (t : ScopeTables) :
    (s.write scope t).db.tables scope' = if scope' = scope then t else s.db.tables scope' :=
  Database.tables_insert s.db scope scope' t

theorem Effect.same (s : System B) (action : Action B) : Effect s action s :=
  .grown s.db (.refl _)

theorem next_effect (s : System B) (action : Action B) : Effect s action (s.next action) := by
  cases action with
  | openScope => exact .grown _ (.insert (.refl _) (.refl _ _))
  | call =>
    rw [next, commit.eq_def]
    split
    · rename_i t hcall
      obtain ⟨hmoves, hgrows⟩ := Call.exec_effect hcall
      refine .grown _ (.insert ?_ ?_)
      · rw [offers, if_pos rfl]
        exact hmoves
      · rw [records, if_pos ⟨rfl, by rw [hcall]; rfl⟩]
        exact hgrows
    · exact .same _ _
  | reserveRange scope =>
    rw [next]
    split
    · rename_i p t hreserve
      exact .reserved scope p t (ScopeTables.reserveRange_spec hreserve)
    · exact .same _ _
  | completeAllocation k =>
    rw [next]
    split
    · exact .same _ _
    · rename_i scope p hp
      cases hresult : (s.db.tables scope).completeAllocation scope p with
      | error => exact .abandoned k
      | ok result =>
        obtain ⟨allocated, t⟩ := result
        obtain ⟨index, hcompleted⟩ := ScopeTables.completeAllocation_spec hresult
        exact .completed scope p t k allocated index hp hcompleted
  | abandonAllocation k => exact .abandoned k
  | allocateCompact scope account change maxAttempts cancelled =>
    rw [next]
    cases hresult : (s.db.tables scope).allocateCompact scope account change maxAttempts cancelled with
    | error => exact .same _ _
    | ok result =>
      obtain ⟨allocated, t⟩ := result
      obtain ⟨index, hcompacted⟩ := ScopeTables.allocateCompact_spec hresult
      exact .compacted scope _ t allocated index hcompacted
  | restore =>
    rw [next]
    split
    · rename_i generations db hrestore
      refine .grown db fun scope' => ?_
      rw [records, if_pos (by rw [hrestore]; rfl)]
      exact Database.restore_merges hrestore scope'
    · exact .same _ _

theorem moves_write {s : System B} {scope scope' : NetworkScope} {t : ScopeTables}
    {offered : List PublicAddress}
    (h : ScopeTables.Moves B.toHdCrypto scope offered (s.db.tables scope) t) :
    ScopeTables.Moves B.toHdCrypto scope' offered (s.db.tables scope')
      ((s.write scope t).db.tables scope') := by
  rw [tables_write]
  split
  · rename_i heq
    subst heq
    exact h
  · exact .refl _

theorem Effect.moves {s s' : System B} {action : Action B} (h : Effect s action s')
    (scope : NetworkScope) : ScopeTables.Moves B.toHdCrypto scope (offers action scope)
      (s.db.tables scope) (s'.db.tables scope) := by
  cases h with
  | grown db merges => exact (merges scope).1
  | reserved scope' p t burned => exact moves_write (burned.moves _ _ _)
  | completed scope' p t k allocated index pending completed =>
    exact moves_write (completed.moves _ _ _)
  | abandoned => exact .refl _
  | compacted scope' b t allocated index compacted => exact moves_write (compacted.moves _ _ _)

end System

end QuaiSdk.Storage
