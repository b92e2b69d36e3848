import QuaiSdk.Provider.HeadReplay
import QuaiSdk.Storage.Store

/-!
# Durable head replay

`recovery/replay.rs`: a head cursor in the wallet store.  A call reads the cursor, polls a node and
commits the new cursor with the rollback the update asks for; other handles commit in between, and a
restore or a direct commit can reset the cursor.
-/

namespace QuaiSdk.Recovery

open Result Provider Storage List
open HeadTracker hiding checkpoint

inductive ReplayError where
  | identityMismatch
  | provider (error : ProviderError)
  | storage (error : StorageError)

/-- `PersistedWalletReplayUpdate` with its `WalletReplayUpdate`. -/
structure ReplayUpdate where
  heads : HeadUpdate
  invalidation : Option ReorgInvalidation
  refreshRequired : Bool
  revision : ℕ

/-- What the reads of a call return. -/
structure ReplayReads where
  generation : ℕ
  saved : Option HeadReplayState
  chainId : Except ProviderError U256
  answers : PollAnswers

def savedTracker (scope : NetworkScope) (initial : Option HeadTracker)
    (saved : Option HeadReplayState) : Except ReplayError HeadTracker :=
  match saved.bind HeadReplayState.payload with
  | some bytes => (fromState bytes scope.zone scope.genesis).mapError .provider
  | none => okOr initial (.provider .replayHistoryUnavailable)

def reconcilePersistedHeadReplay (scope : NetworkScope) (initial : Option HeadTracker)
    (reads : ReplayReads) (t : ScopeTables) : Except ReplayError (ReplayUpdate × ScopeTables) := do
  let tracker ← savedTracker scope initial reads.saved
  if tracker.zone ≠ scope.zone ∨ tracker.genesis ≠ scope.genesis then .error .identityMismatch
  else do
    let chainId ← reads.chainId.mapError .provider
    if chainId ≠ scope.chainId then .error .identityMismatch
    else do
      let (heads, tracker) := poll reads.answers tracker
      let heads ← heads.mapError .provider
      let ((revision, invalidation), t) ← (t.commitHeadReplay reads.generation
        (reads.saved.map HeadReplayState.revision) (some (exportState tracker))
        (heads.removed.getLast?.map (·.number.toNat))).mapError .storage
      .ok (⟨heads, invalidation, !heads.added.isEmpty || !heads.removed.isEmpty, revision⟩, t)

variable {B : Backend}

/-- A store, the cursor of a scope so many commits ago, and the blocks of a consumer of what is
replayed. -/
structure World (B : Backend) where
  store : Store B
  past : ℕ → Option HeadReplayState
  stack : List BlockReference

inductive Action (B : Backend) where
  -- any transaction of the store
  | store (action : StoreAction B)
  -- a call that read the cursor so many commits ago
  | replay (ago : ℕ) (reads : ReplayReads)

variable (scope : NetworkScope) (initial : HeadTracker)

namespace World

def head (w : World B) : Option HeadReplayState := (w.store.tables scope).headReplay

def attempt (w : World B) (ago : ℕ) (reads : ReplayReads) :
    Except ReplayError (ReplayUpdate × ScopeTables) :=
  reconcilePersistedHeadReplay scope initial { reads with saved := w.past ago } (w.store.tables scope)

/-- The world with a cursor that the next calls find; older reads are one commit older. -/
def commit (w : World B) (store : Store B) (stack : List BlockReference) : World B :=
  ⟨store, fun | 0 => (store.tables scope).headReplay | ago + 1 => w.past ago, stack⟩

/-- Where a consumer starts that finds this cursor. -/
def restart (saved : Option HeadReplayState) : List BlockReference :=
  match savedTracker scope initial saved with
  | .ok tracker => tracker.anchors
  | .error _ => []

/-- A consumer applies what is replayed.  Where another transaction moved the cursor, as a restore or
a reset does, it starts again at the cursor that is there. -/
def next (w : World B) : Action B → World B
  | .store action =>
    let store := w.store.next action
    let saved := (store.tables scope).headReplay
    if saved = w.head scope then { w with store }
    else w.commit scope store (restart scope initial saved)
  | .replay ago reads =>
    match w.attempt scope initial ago reads with
    | .error _ => w
    | .ok (update, t) => w.commit scope { w.store with wallet := w.store.wallet.write scope t }
        (applyUpdate w.stack update.heads)

/-- The world after a run from an empty store. -/
def reached (actions : List (Action B)) : World B :=
  Run.run (next scope initial) ⟨.empty, fun _ => none, initial.anchors⟩ actions

end World

/-- What was read is the current cursor or an older revision, and where the current cursor can be read
it is at the top of the consumer's blocks. -/
structure Kept (w : World B) : Prop where
  past : ∀ ago, w.past ago = w.head scope ∨
    headRevision (w.past ago) < headRevision (w.head scope)
  follows : ∀ tracker, savedTracker scope initial (w.head scope) = .ok tracker →
    Follower ⟨tracker, w.stack⟩

variable {scope initial} {w : World B} {ago : ℕ} {reads : ReplayReads} {update : ReplayUpdate}
  {t : ScopeTables}

theorem restart_follows (hinitial : Valid initial) {saved : Option HeadReplayState}
    {tracker : HeadTracker} (h : savedTracker scope initial saved = .ok tracker) :
    Follower ⟨tracker, World.restart scope initial saved⟩ := by
  have hvalid : Valid tracker := by
    unfold savedTracker at h
    split at h
    · exact fromState_valid (mapError_eq_ok.mp h)
    · cases h
      exact hinitial
  rw [World.restart, h]
  exact ⟨hvalid, [], rfl⟩

theorem Kept.commit (hw : Kept scope initial w) {store : Store B} {stack : List BlockReference}
    (hless : headRevision (w.head scope) < headRevision (store.tables scope).headReplay)
    (hfollows : ∀ tracker, savedTracker scope initial (store.tables scope).headReplay = .ok tracker →
      Follower ⟨tracker, stack⟩) : Kept scope initial (w.commit scope store stack) := by
  refine ⟨?_, hfollows⟩
  intro ago
  cases ago with
  | zero => exact .inl rfl
  | succ ago =>
    right
    rcases hw.past ago with hsame | hless'
    · exact lt_of_le_of_lt (congrArg headRevision hsame).le hless
    · exact hless'.trans hless

/-- A call that commits had read the current cursor, and leaves the cursor that its update leads to. -/
theorem Kept.attempt (hw : Kept scope initial w)
    (h : w.attempt scope initial ago reads = .ok (update, t)) :
    w.past ago = w.head scope ∧ Applies w.stack update.heads ∧
      headRevision (w.head scope) < headRevision t.headReplay ∧
      ∃ tracker, savedTracker scope initial t.headReplay = .ok tracker ∧
        Follower ⟨tracker, applyUpdate w.stack update.heads⟩ := by
  simp only [World.attempt, reconcilePersistedHeadReplay, ScopeTables.commitHeadReplay, eq_ok,
    not_or, not_not, Prod.mk.injEq] at h
  obtain ⟨tracker, htracker, ⟨hzone, hgenesis⟩, _, -, -, heads, hheads, _,
    ⟨-, -, hrevision, -, ⟨_, t₁⟩, -, rfl⟩, rfl, rfl⟩ := h
  -- an older cursor has a smaller revision, which the commit would have refused
  have hread : w.past ago = w.head scope := by
    apply (hw.past ago).resolve_right
    rw [headRevision, ← hrevision]
    exact lt_irrefl _
  rw [hread] at htracker
  have hfollows := hw.follows tracker htracker
  generalize hpoll : poll reads.answers tracker = polled at hheads ⊢
  obtain ⟨_, after⟩ := polled
  cases hheads
  obtain ⟨happlies, older, hstack⟩ := hfollows.applies hpoll
  have hvalid := hfollows.valid.poll hpoll
  refine ⟨hread, happlies, Nat.lt_succ_self _, after, ?_, hvalid, older, hstack⟩
  obtain ⟨_, -, -, hafter⟩ := poll_eq_ok hpoll
  have hrestore := fromState_exportState hvalid
  rw [show after.zone = scope.zone by rw [hafter, ← hzone],
    show after.genesis = scope.genesis by rw [hafter, ← hgenesis]] at hrestore
  exact mapError_eq_ok.mpr hrestore

theorem Kept.next (hinitial : Valid initial) (hw : Kept scope initial w) (action : Action B) :
    Kept scope initial (w.next scope initial action) := by
  cases action with
  | store action =>
    rw [World.next]
    split
    · rename_i hsame
      refine ⟨?_, ?_⟩
      · rw [World.head, hsame]
        exact hw.past
      · rw [World.head, hsame]
        exact hw.follows
    · rename_i hmoved
      -- whatever moved the cursor wrote a larger revision
      have hless := ((w.store.next_commits action scope).headReplay).resolve_left hmoved
      exact hw.commit hless fun tracker htracker => restart_follows hinitial htracker
  | replay ago reads =>
    cases h : w.attempt scope initial ago reads with
    | error =>
      rw [World.next, h]
      exact hw
    | ok result =>
      obtain ⟨-, -, hless, tracker, htracker, hfollows⟩ := hw.attempt h
      have hwritten : Store.tables { w.store with wallet := w.store.wallet.write scope result.2 }
          scope = result.2 := by
        rw [Store.tables, System.tables_write, if_pos rfl]
      rw [World.next, h]
      refine hw.commit ?_ ?_
      · rw [hwritten]
        exact hless
      · rw [hwritten]
        intro tracker' htracker'
        cases htracker.symm.trans htracker'
        exact hfollows

/-- However many handles replay the heads of a scope, whatever their nodes answer, whenever each read
the cursor and whatever other transactions of the store committed in between, restores and resets
included: a call that commits had read the current cursor, its update applies where a consumer is,
and the cursor it stores is where that leads, so no update is lost and none is repeated. -/
theorem persisted_replays_compose (B : Backend) (scope : NetworkScope) (initial : Subtype Valid)
    (actions : List (Action B)) :
    let w := World.reached scope initial actions
    (∀ tracker, savedTracker scope (some initial) (w.head scope) = .ok tracker →
      Follower ⟨tracker, w.stack⟩) ∧
    ∀ ago reads, match w.attempt scope initial ago reads with
      | .error _ => True
      | .ok (update, t) => w.past ago = w.head scope ∧ Applies w.stack update.heads ∧
        ∃ tracker, savedTracker scope (some initial) t.headReplay = .ok tracker ∧
          Follower ⟨tracker, applyUpdate w.stack update.heads⟩ := by
  intro w
  have hempty : ((Store.empty (B := B)).tables scope).headReplay = none := rfl
  have hstart : Kept scope initial ⟨Store.empty (B := B), fun _ => none, initial.1.anchors⟩ := by
    refine ⟨fun _ => .inl hempty.symm, ?_⟩
    intro tracker htracker
    cases htracker
    exact ⟨initial.2, [], rfl⟩
  have hkept : Kept scope initial w := by
    apply Run.run_invariant (G := fun _ _ => True) _ hstart _ (fun _ _ _ _ => trivial)
    exact fun w action hw _ => hw.next initial.2 action
  refine ⟨hkept.follows, fun ago reads => ?_⟩
  split
  · trivial
  · rename_i h
    obtain ⟨hread, happlies, -, hfollows⟩ := hkept.attempt h
    exact ⟨hread, happlies, hfollows⟩

def trackerScope : NetworkScope := ⟨U256.ofNat 9, sampleTracker.genesis, .cyprus1⟩

def sampleInitial : Subtype Valid where
  val := sampleTracker
  property := by
    have hnew : new .cyprus1 sampleTracker.genesis sampleTracker.checkpoint 2 1 =
        .ok sampleTracker := by
      decide +kernel
    exact (new_eq_ok hnew).2

/-- Two polls from this generation; every call is made again with the cursor it had read. -/
def sampleReplays (generation : ℕ) : List (Action sampleWallet) :=
  samplePolls.flatMap fun answers =>
    [0, 1].map (.replay · ⟨generation, none, .ok (U256.ofNat 9), answers⟩)

/-- After both polls the cursor is reset by a commit without one. -/
def sampleReset : List (Action sampleWallet) :=
  sampleReplays 0 ++
    [.store (.wallet (.call trackerScope (.commitHeadReplay 1 (some 2) none none)))]

/-- The reset takes the consumer back to where it began, a call that had read the cursor before it
comes too late, and all is replayed again. -/
theorem persisted_replays_compose_reorg :
    let early := World.reached trackerScope sampleInitial sampleReset
    let late := World.reached trackerScope sampleInitial (sampleReset ++ sampleReplays 1)
    early.stack = sampleTracker.anchors ∧
      (samplePolls.all fun answers => !(early.attempt trackerScope sampleInitial 1
        ⟨1, none, .ok (U256.ofNat 9), answers⟩).isOk) ∧
      late.stack = sampleTracker.anchors ++ [⟨6, HeadTracker.sampleHash 0x77⟩] ∧
      (late.head trackerScope).map HeadReplayState.revision = some 5 ∧
      ∀ tracker, savedTracker trackerScope (some sampleInitial) (late.head trackerScope) =
        .ok tracker → Follower ⟨tracker, late.stack⟩ := by
  refine ⟨by decide +kernel, by decide +kernel, by decide +kernel, by decide +kernel, ?_⟩
  exact (persisted_replays_compose sampleWallet trackerScope sampleInitial
    (sampleReset ++ sampleReplays 1)).1

end QuaiSdk.Recovery
