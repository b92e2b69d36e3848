import QuaiSdk.Sdk.Authorized
import QuaiSdk.Storage.Freshness

/-!
# What a preparation establishes

Each prepare of a session, taken apart: the pool checks it passed, the round of the fee loop that
converged, the last check of the chain, and the claim it wrote.  Up to its claim an attempt leaves the
rows to other handles, apart from a stale snapshot that it clears.
-/

namespace QuaiSdk.Sdk

open Result Wallet Storage Denomination PublicAddress System BigEndian QiSession List Hash32
open Method (Within FailsWithin lift fail)

variable {W : HdCrypto} {s : QiSession W} {a : Attempt W} {first second : Attempt W}
  {attempts : List (Attempt W)} {policy : QiPolicy} {id : ReservationId} {pool : QiChangePool W}
  {t t' : ScopeTables} {w w' : Workspace W}

/-- What another handle commits before an access of these attempts, or the invalidation of a
snapshot. -/
inductive FrameStep (attempts : List (Attempt W)) (t : ScopeTables) : ScopeTables → Prop where
  | others (a : Attempt W) (ha : a ∈ attempts) (access : Access) :
    FrameStep attempts t (a.others access t)
  | cleared (next : ℕ) : FrameStep attempts t (t.clearSnapshot next)

/-- The rows after any number of such steps. -/
abbrev Frame (attempts : List (Attempt W)) : ScopeTables → ScopeTables → Prop :=
  Relation.ReflTransGen (FrameStep attempts)

/-- The frame of a prepare: its pool is as it was, and its rows moved within their frame. -/
def Framed (attempts : List (Attempt W)) (w w' : Workspace W) : Prop :=
  w'.pool = w.pool ∧ Frame attempts w.tables w'.tables

instance : Std.Refl (Framed attempts) := ⟨fun _ => ⟨rfl, .refl⟩⟩

instance : IsTrans (Workspace W) (Framed attempts) :=
  ⟨fun _ _ _ h h' => ⟨h'.1.trans h.1, h.2.trans h'.2⟩⟩

theorem Frame.of_mem (ha : a ∈ attempts) (h : Frame [a] t t') : Frame attempts t t' := by
  refine Relation.ReflTransGen.mono (fun t t' hstep => ?_) _ _ h
  cases hstep with
  | others a' ha' access => exact .others a' (mem_singleton.mp ha' ▸ ha) access
  | cleared next => exact .cleared next

/-- Where other handles leave operations and claims alone, so does a frame. -/
theorem Frame.custody (h : Frame attempts t t')
    (hothers : ∀ a ∈ attempts, ∀ access t, (a.others access t).custody = t.custody) :
    t'.custody = t.custody := by
  induction h with
  | refl => rfl
  | tail _ hlast ih =>
    cases hlast with
    | others a ha access => exact (hothers a ha access _).trans ih
    | cleared => exact ih

theorem reconcileCheckpoint_eq_ok {expected : ℕ} {canonical : Option Checkpoint}
    {result : CheckpointReconciliation}
    (h : t.reconcileCheckpoint expected canonical = .ok (result, t')) :
    t' = t ∨ ∃ next, t' = t.clearSnapshot next := by
  simp only [ScopeTables.reconcileCheckpoint, ite_error_eq_ok] at h
  obtain ⟨-, h⟩ := h
  split at h
  · cases h
    exact .inl rfl
  · rw [ite_error_eq_ok] at h
    obtain ⟨-, h⟩ := h
    split at h
    · cases h
      exact .inl rfl
    · simp only [eq_ok, Prod.mk.injEq] at h
      obtain ⟨next, -, -, rfl⟩ := h
      exact .inr ⟨next, rfl⟩

namespace Attempt

variable {α : Type} {access : Access} {r : α}

theorem read_eq_ok {f : ScopeTables → Except StorageError α} :
    a.read access f t = (.ok r, t') ↔ f (a.others access t) = .ok r ∧ a.others access t = t' := by
  rw [read, Prod.mk.injEq, mapError_eq_ok]

theorem write_eq_ok {f : ScopeTables → Except StorageError (α × ScopeTables)} :
    a.write access f t = (.ok r, t') ↔ f (a.others access t) = .ok (r, t') := by
  rw [write]
  rcases f (a.others access t) with e | ⟨r', t₁⟩ <;> simp

theorem read_frame (f : ScopeTables → Except StorageError α) :
    Within (Frame [a]) (a.read access f) :=
  fun _ => .single (.others a (mem_singleton_self a) access)

theorem write_frame {f : ScopeTables → Except StorageError (α × ScopeTables)}
    (hf : ∀ t r t', f t = .ok (r, t') → Frame [a] t t') : Within (Frame [a]) (a.write access f) := by
  intro t
  have hothers : Frame [a] t (a.others access t) := .single (.others a (mem_singleton_self a) access)
  rw [write]
  split
  · rename_i r t' h
    exact hothers.trans (hf _ _ _ h)
  · exact hothers

theorem write_fails (f : ScopeTables → Except StorageError (α × ScopeTables)) :
    FailsWithin (Frame [a]) (a.write access f) := by
  intro t e t' h
  rw [write] at h
  split at h
  · cases h
  · cases h
    exact .single (.others a (mem_singleton_self a) access)

theorem candidateHeight_frame (n generation : ℕ) (checkpoint : Checkpoint) (maxAge : ℕ) :
    Within (Frame [a]) (a.candidateHeight n generation checkpoint maxAge) := by
  refine .ite (.fail _) (.bind (.lift _) fun answer => ?_)
  split
  · refine .ite (.bind (write_frame fun t r t' h => ?_) fun _ => .fail _) (.lift _)
    -- a checkpoint is reconciled with the rows as they are, or by clearing the snapshot
    obtain rfl | ⟨next, rfl⟩ := reconcileCheckpoint_eq_ok h
    · exact .refl
    · exact .single (.cleared next)
  · exact .fail _

end Attempt

section Retry

variable {σ α : Type} {R : σ → σ → Prop} {attempt : Attempt W → Method QiError σ α} {x y : σ} {r : α}

theorem retryOnce_eq_ok [Std.Refl R] (hfails : ∀ a ∈ [first, second], FailsWithin R (attempt a))
    (h : retryOnce attempt first second x = (.ok r, y)) :
    ∃ a ∈ [first, second], ∃ z, R x z ∧ attempt a z = (.ok r, y) := by
  rw [retryOnce] at h
  rcases hfirst : attempt first x with ⟨e | r', z⟩
  · rw [hfirst] at h
    dsimp only at h
    split at h
    · exact ⟨second, by simp, z, hfails first (by simp) _ _ _ hfirst, h⟩
    · cases h
  · rw [hfirst] at h
    exact ⟨first, by simp, x, refl_of R x, hfirst.trans h⟩

theorem retryOnce_fails [IsTrans σ R] (h : ∀ a ∈ [first, second], FailsWithin R (attempt a)) :
    FailsWithin R (retryOnce attempt first second) := by
  intro x e y hrun
  rw [retryOnce] at hrun
  rcases hcall : attempt first x with ⟨e' | r, z⟩
  · have hz := h first (by simp) _ _ _ hcall
    rw [hcall] at hrun
    dsimp only at hrun
    split at hrun
    · exact trans_of R hz (h second (by simp) _ _ _ hrun)
    · cases hrun
      exact hz
  · rw [hcall] at hrun
    cases hrun

end Retry

def QiSpecialIntent.destination : QiSpecialIntent → QuaiAddress
  | conversion intent => intent.destination
  | wrapping intent => intent.destination

namespace QiSession

theorem observe_frame (maxAge : ℕ) : Within (Frame [a]) (s.observe a maxAge) :=
  .bind (Attempt.read_frame _) fun _ => .bind (.lift _) fun _ => .bind (.lift _) fun _ =>
    .bind (Attempt.candidateHeight_frame _ _ _ _) fun _ => .pure _

theorem recheck_frame {τ : Type} (view : View) (maxAge : ℕ) (draft : Draft τ) :
    Within (Frame [a]) (s.recheck a view maxAge draft) :=
  .bind (.lift _) fun _ => .bind (Attempt.candidateHeight_frame _ _ _ _) fun _ =>
    .ite (.fail _) (.pure _)

theorem selectedInputs_frame (n : ℕ) (coins : List CandidateCoin) :
    Within (Frame [a]) (s.selectedInputs a n coins) :=
  .bind (Attempt.read_frame _) fun _ => .bind (.lift _) fun _ => .pure _

theorem checkBurned_frame (pool : QiChangePool W) : Within (Frame [a]) (checkBurned a pool) := by
  unfold checkBurned
  split
  · exact .pure _
  · exact .bind (Attempt.read_frame _) fun _ => .ite (.fail _) (.pure _)

theorem checkPool_frame (pool : QiChangePool W) : Within (Frame [a]) (s.checkPool a pool) :=
  .bind (Attempt.read_frame _) fun _ => .lift _

/-- Neither the check nor a round of the builder leaves the frame of its attempt. -/
structure Builder.Reads {τ ρ : Type} (b : Builder W τ ρ) (a : Attempt W) : Prop where
  check : ∀ pool, Within (Frame [a]) (b.check pool)
  round : ∀ pool view n fee, Within (Frame [a]) (b.round pool view n fee)

theorem transfer_reads (s : QiSession W) (id : ReservationId) (intent : QiIntent) (policy : QiPolicy)
    (crossZone : Bool) (a : Attempt W) : (s.transfer a id intent policy crossZone).Reads a where
  check pool := .ite (.fail _) (.bind (checkBurned_frame pool) fun _ =>
    .bind (Attempt.read_frame _) fun _ => .ite (.fail _) (.lift _))
  round _ _ n _ := .bind (.lift _) fun _ => .ite (.fail _) (.ite (.fail _)
    (.bind (selectedInputs_frame n _) fun _ => .bind (.lift _) fun _ => .bind (.lift _) fun _ =>
      .lift _))

theorem special_reads (s : QiSession W) (id : ReservationId) (amount : ℕ) (intent : QiSpecialIntent)
    (mode : FeeMode) (policy : QiPolicy) (a : Attempt W) :
    (s.special a id amount intent mode policy).Reads a where
  check pool := .ite (.fail _) (.bind (.mapError (checkBurned_frame pool) _) fun _ =>
    checkPool_frame pool)
  round _ _ n _ := .bind (.lift _) fun _ => .ite (.fail _) (.bind (selectedInputs_frame n _) fun _ =>
    .bind (.lift _) fun _ => .bind (.lift _) fun _ => .lift _)

theorem sweep_reads (s : QiSession W) (id : ReservationId) (mode : SweepMode) (policy : QiPolicy)
    (a : Attempt W) : (s.sweep a id mode policy).Reads a where
  check pool := .ite (.fail _) (.bind (checkBurned_frame pool) fun _ => checkPool_frame pool)
  round _ _ n _ := .bind (.lift _) fun _ => .ite (.fail _) (.bind (selectedInputs_frame n _) fun _ =>
    .bind (.lift _) fun _ => .bind (.lift _) fun _ => .lift _)

theorem selectedInputs_keyed {n : ℕ} {coins : List CandidateCoin}
    {inputs : List (QiInput W.toCrypto)} {entries : List PublicAddress}
    (h : s.selectedInputs a n coins t = (.ok (inputs, entries), t')) :
    List.Forall₂ (KeyedBy (storedOwner t')) coins inputs := by
  simp only [selectedInputs, Method.eq_ok, Attempt.read_eq_ok, Prod.mk.injEq] at h
  obtain ⟨metadata, _, ⟨hmetadata, rfl⟩, pairs, _, ⟨hpairs, rfl⟩, ⟨rfl, -⟩, rfl⟩ := h
  rw [forall₂_map_right_iff]
  apply (forall₂_of_mapM hpairs).imp
  intro coin pair hpair
  simp only [selectedInput, eq_ok] at hpair
  obtain ⟨entry, hentry, key, hkey, hok⟩ := hpair
  cases hok
  obtain ⟨row, hrow, hdecoded⟩ := ScopeTables.publicAddresses_lookup hmetadata hentry
  obtain ⟨rfl, -⟩ := ScopeTables.addressRow_eq_ok hdecoded
  refine ⟨rfl, _, ?_, hkey⟩
  rw [storedOwner, hrow]
  rfl

theorem recheck_eq_ok {τ : Type} {view : View} {maxAge finalHeight : ℕ} {draft : Draft τ}
    (h : s.recheck a view maxAge draft t = (.ok finalHeight, t')) :
    a.candidateHeight 1 view.snapshot.generation view.checkpoint maxAge t = (.ok finalHeight, t') ∧
      ¬∃ coin ∈ draft.selection.inputs, unspendableAt finalHeight coin := by
  simp only [recheck, Method.eq_ok] at h
  obtain ⟨⟨⟩, _, ⟨-, rfl⟩, _, _, hfinal, hspendable, rfl, rfl⟩ := h
  exact ⟨hfinal, hspendable⟩

section Rounds

variable {view : View} {n fee : ℕ}

theorem transferRound_done {intent : QiIntent} {draft : Draft (QiTransaction W.toCrypto)}
    (h : s.transferRound a intent policy pool view n fee t = (.ok (.done draft), t'))
    (hapart : ∀ x ∈ pool.addresses.map address, x ∉ intent.destinations.map LedgerAddress.address) :
    selectFewest view.snapshot.coins (policy.request s.store.scope.zone view.height intent.amount
        draft.fee) = .ok draft.selection ∧
      Planned (storedOwner t') draft.selection draft.payload ∧
      paidTo (intent.destinations.map LedgerAddress.address) draft.payload =
        total draft.selection.spendOutputs ∧
      draft.selection.spendOutputs.length ≤ intent.destinations.length ∧
      draft.payload.outputs.map QiOutput.address =
        (intent.destinations.map LedgerAddress.address).take draft.selection.spendOutputs.length ++
          (pool.addresses.map address).take draft.selection.changeOutputs.length := by
  simp only [transferRound, Method.eq_ok, mapError_eq_ok, not_lt] at h
  obtain ⟨sel, _, ⟨hsel, rfl⟩, hspend, hchange, ⟨inputs, entries⟩, t', hinputs, bytes, _,
    ⟨hbytes, rfl⟩, quote, _, ⟨-, rfl⟩, hfee, rfl⟩ := h
  obtain ⟨-, -, rfl⟩ := round_map_eq_done.mp hfee
  have hspend' : sel.spendOutputs.length ≤
      (intent.destinations.map LedgerAddress.address).length := by rwa [length_map]
  have hchange' : sel.changeOutputs.length ≤
      (pool.addresses.map address).length := by rwa [length_map]
  obtain ⟨zone, hvalid⟩ := (QiTransaction.unsignedBytesFor_spec hbytes).2.2.1
  obtain ⟨hplan, hpaid⟩ := planned_of_payTo hvalid rfl hspend' hchange' hapart
    (selectedInputs_keyed hinputs)
  refine ⟨hsel, hplan, hpaid, hspend, ?_⟩
  change map QiOutput.address (payTo _ _ ++ payTo _ _) = _
  rw [map_append, payTo_addresses hspend', payTo_addresses hchange']

theorem specialPayload_built {intent : QiSpecialIntent} {inputs : List (QiInput W.toCrypto)}
    {spend : List Denomination} {change : List QiOutput} {t : QiSpecialTransaction W.toCrypto}
    (h : s.specialPayload intent inputs spend change = .ok t) :
    SpecialBuilt inputs spend change intent.destination t.transaction ∧
      ∃ mode zone, t.transaction.validateFor mode = .ok zone := by
  cases intent with
  | conversion =>
    obtain ⟨typed, htyped, rfl⟩ := map_eq_ok.mp h
    exact ⟨(QiConversionTransaction.new_spec htyped).1, .conversion, typed.exists_validateFor⟩
  | wrapping =>
    obtain ⟨typed, htyped, rfl⟩ := map_eq_ok.mp h
    exact ⟨QiWrappingTransaction.new_spec htyped, .wrapping, typed.exists_validateFor⟩

theorem specialRound_done {amount : ℕ} {intent : QiSpecialIntent} {mode : FeeMode}
    {draft : Draft (QiSpecialTransaction W.toCrypto × Option QiFeeQuote)}
    (h : s.specialRound a amount intent mode policy pool view n fee t = (.ok (.done draft), t')) :
    selectFewestConverting view.snapshot.coins
        (policy.request s.store.scope.zone view.height amount draft.fee) = .ok draft.selection ∧
      Planned (storedOwner t') draft.selection draft.payload.1.transaction ∧
      paidTo [intent.destination.address] draft.payload.1.transaction =
        total draft.selection.spendOutputs ∧
      ∃ inputs, s.specialPayload intent inputs draft.selection.spendOutputs
        (payTo draft.selection.changeOutputs (pool.addresses.map address)) = .ok draft.payload.1 ∧
        draft.selection.changeOutputs.length ≤ pool.addresses.length := by
  simp only [specialRound, Method.eq_ok, mapError_eq_ok, not_lt] at h
  obtain ⟨sel, _, ⟨hsel, rfl⟩, hchange, ⟨inputs, entries⟩, t', hinputs, t, _, ⟨ht, rfl⟩, digest, _,
    ⟨-, rfl⟩, hfee, rfl⟩ := h
  obtain ⟨quote, -, rfl⟩ := round_map_eq_done.mp hfee
  obtain ⟨hbuilt, mode, zone, hvalid⟩ := specialPayload_built ht
  obtain ⟨hplan, hpaid⟩ := planned_of_special hvalid hbuilt (by rwa [length_map])
    (selectedInputs_keyed hinputs)
  exact ⟨hsel, hplan, hpaid, inputs, ht, hchange⟩

theorem sweepRound_done {mode : SweepMode} {draft : Draft (QiTransaction W.toCrypto × Hash32)}
    (h : s.sweepRound a mode policy pool view n fee t = (.ok (.done draft), t')) :
    selectSweep view.snapshot.coins (policy.request s.store.scope.zone view.height 0 draft.fee)
        mode = .ok draft.selection ∧
      Planned (storedOwner t') draft.selection draft.payload.1 ∧
      paidTo (pool.addresses.map address) draft.payload.1 = total draft.selection.spendOutputs ∧
      draft.payload.1.outputs.map QiOutput.address =
        (pool.addresses.map address).take draft.selection.spendOutputs.length := by
  simp only [sweepRound, Method.eq_ok, mapError_eq_ok, not_lt] at h
  obtain ⟨sel, _, ⟨hsel, rfl⟩, hspend, ⟨inputs, entries⟩, t', hinputs, digest, _, ⟨hdigest, rfl⟩,
    quote, _, ⟨-, rfl⟩, hfee, rfl⟩ := h
  obtain ⟨-, -, rfl⟩ := round_map_eq_done.mp hfee
  obtain ⟨zone, hvalid⟩ := exists_validateFor_of_digest hdigest
  have hspend' : sel.spendOutputs.length ≤
      (pool.addresses.map address).length := by rwa [length_map]
  -- a sweep selects no change, so the second list of outputs is empty
  obtain ⟨-, hchange, -⟩ := selectSweep_funded hsel
  have hnone : sel.changeOutputs.length ≤ ([] : List Address).length := by
    rw [hchange]
    exact le_refl _
  obtain ⟨hplan, hpaid⟩ := planned_of_payTo hvalid
    (by rw [hchange]; exact (append_nil _).symm) hspend' hnone (by simp)
    (selectedInputs_keyed hinputs)
  exact ⟨hsel, hplan, hpaid, payTo_addresses hspend'⟩

end Rounds

theorem checkTransfer_apart {intent : QiIntent} {crossZone : Bool}
    (h : s.checkTransfer a intent crossZone pool t = (.ok (), t')) :
    ∀ x ∈ pool.addresses.map address, x ∉ intent.destinations.map LedgerAddress.address := by
  simp only [checkTransfer, Method.eq_ok] at h
  obtain ⟨-, ⟨⟩, _, -, owned, _, -, hbad, -⟩ := h
  intro x hx hmem
  have hnodup := not_not.mp (not_or.mp (not_or.mp hbad).2).1
  exact (nodup_append.mp hnodup).2.2 x hmem x hx rfl

section Once

variable {τ ρ : Type} {b : Builder W τ ρ} {start : Except QiError (ℕ × ℕ)} {prepared : ρ}
  {view : View} {draft : Draft τ}

theorem rows_framed {α : Type} {x : Rows α} (hx : Within (Frame [a]) x) :
    Within (Framed [a]) (Workspace.rows x : Method QiError (Workspace W) α) :=
  .zoom hx fun _ _ h => ⟨rfl, h⟩

theorem prepareOnce_fails (hb : b.Reads a) :
    FailsWithin (Framed [a]) (s.prepareOnce a id policy start b) := by
  refine .bind (.lift _) fun (fee, rounds) => .bind .self fun w =>
    .bind (rows_framed (hb.check _)) fun _ => .bind (rows_framed (observe_frame _)) fun view =>
    .bind (rows_framed (Method.converge_within (hb.round w.pool view) rounds 0 fee)) fun draft =>
    .bind (rows_framed (recheck_frame view _ draft)) fun finalHeight => .bind (.lift _) fun _ => ?_
  -- only the claim can still fail, and then the pool is not drained
  refine .bind_ok (.zoom (Attempt.write_fails _) fun _ _ h => ⟨rfl, h⟩) fun _ w e w' h => ?_
  cases h

/-- From the rows `t` an attempt observed a snapshot, one of its rounds settled a draft, and the draft
was rechecked and claimed. -/
def Drafted (s : QiSession W) (a : Attempt W) (id : ReservationId) (policy : QiPolicy)
    (b : Builder W τ ρ) (pool : QiChangePool W) (view : View) (draft : Draft τ)
    (t t' : ScopeTables) : Prop :=
  ∃ t₁ t₂ n fee t₃ finalHeight t₄, s.observe a policy.maxSnapshotAge t = (.ok view, t₁) ∧
    Frame [a] t₁ t₂ ∧ b.round pool view n fee t₂ = (.ok (.done draft), t₃) ∧
    s.recheck a view policy.maxSnapshotAge draft t₃ = (.ok finalHeight, t₄) ∧
    a.claim view id finalHeight draft t₄ = (.ok (), t')

/-- The claim is made over rows within the frame of its attempt. -/
theorem Drafted.claimed (hb : b.Reads a) (h : s.Drafted a id policy b pool view draft t t') :
    ∃ before finalHeight, Frame [a] t before ∧ before.reserveQi id view.snapshot.generation
      finalHeight (draft.selection.inputs.map CandidateCoin.outpoint) = .ok t' := by
  obtain ⟨t₁, t₂, n, fee, t₃, finalHeight, t₄, hview, hrounds, hdone, hfinal, hclaim⟩ := h
  obtain ⟨_, hreserve, hok⟩ := bind_eq_ok.mp (Attempt.write_eq_ok.mp hclaim)
  cases hok
  have hseen := (observe_frame _).of_eq hview
  have hlast := ((hb.round _ _ n fee).of_eq hdone).trans ((recheck_frame _ _ _).of_eq hfinal)
  exact ⟨_, finalHeight, ((hseen.trans hrounds).trans hlast).tail
    (.others a (mem_singleton_self a) .claim), hreserve⟩

theorem rows_eq_ok {α : Type} {x : Rows α} {r : α} :
    Workspace.rows x w = (.ok r, w') ↔ x w.tables = (.ok r, w'.tables) ∧ w'.pool = w.pool := by
  rw [Workspace.rows, Method.zoom_eq_ok]
  constructor
  · rintro ⟨t, hx, rfl⟩
    exact ⟨hx, rfl⟩
  · rintro ⟨hx, hpool⟩
    exact ⟨_, hx, by rw [← hpool]⟩

theorem prepareOnce_eq_ok (hb : b.Reads a)
    (h : s.prepareOnce a id policy start b w = (.ok prepared, w')) :
    ∃ t view draft, b.check w.pool w.tables = (.ok (), t) ∧
      s.Drafted a id policy b w.pool view draft t w'.tables ∧ b.finish draft = .ok prepared ∧
      w'.pool = w.pool.drain (b.taken draft) := by
  obtain ⟨⟨fee, rounds⟩, -, h⟩ := Method.lift_bind_eq_ok.mp h
  replace h := Method.self_bind_eq_ok.mp h
  simp only [Method.eq_ok, rows_eq_ok] at h
  obtain ⟨⟨⟩, w₀, ⟨hcheck, hpool⟩, view, w₁, ⟨hview, hpool₁⟩, draft, w₃, ⟨hdraft, hpool₃⟩,
    finalHeight, w₄, ⟨hfinal, hpool₄⟩, prepared, _, ⟨hfinish, rfl⟩, ⟨⟩, w₅, ⟨hclaim, hpool₅⟩, ⟨⟩, _,
    hdrain, rfl, rfl⟩ := h
  cases hdrain
  obtain ⟨n, fee, t₂, hrounds, hround⟩ :=
    Method.exists_round_of_converge (hb.round w.pool view) hdraft
  refine ⟨w₀.tables, view, draft, hcheck,
    ⟨_, t₂, n, fee, _, finalHeight, _, hview, hrounds, hround, hfinal, hclaim⟩, hfinish, ?_⟩
  rw [hpool₅, hpool₄, hpool₃, hpool₁, hpool]

variable {b : Attempt W → Builder W τ ρ} (hb : ∀ a, (b a).Reads a)
include hb

theorem attempt_fails (ha : a ∈ attempts) :
    FailsWithin (Framed attempts) (s.prepareOnce a id policy start (b a)) := by
  intro w e w' h
  obtain ⟨hpool, hframe⟩ := prepareOnce_fails (hb a) w e w' h
  exact ⟨hpool, hframe.of_mem ha⟩

/-- Neither attempt of a prepare that fails has touched the pool or claimed anything. -/
theorem retried_fails (first second : Attempt W) : FailsWithin (Framed [first, second])
    (retryOnce (fun a => s.prepareOnce a id policy start (b a)) first second) :=
  retryOnce_fails fun _ => attempt_fails hb

/-- Both attempts of a prepare work on the caller's pool, the second from the rows that the first
left. -/
theorem retried_eq_ok (h : retryOnce (fun a => s.prepareOnce a id policy start (b a)) first second w =
      (.ok prepared, w')) :
    ∃ a ∈ [first, second], ∃ t₀ t view draft, (b a).check w.pool t₀ = (.ok (), t) ∧
      Frame [first, second] w.tables t ∧ s.Drafted a id policy (b a) w.pool view draft t w'.tables ∧
      (∃ n fee t₁ t₂, (b a).round w.pool view n fee t₁ = (.ok (.done draft), t₂)) ∧
      (b a).finish draft = .ok prepared ∧ w'.pool = w.pool.drain ((b a).taken draft) := by
  obtain ⟨a, ha, w₀, ⟨hpool, hstart⟩, hattempt⟩ := retryOnce_eq_ok (fun _ => attempt_fails hb) h
  obtain ⟨t, view, draft, hpassed, hdraft, hfinish, hdrain⟩ := prepareOnce_eq_ok (hb a) hattempt
  have hframe := ((hb a).check w₀.pool).of_eq hpassed
  -- a first attempt that lost its race left the pool as it was
  rw [hpool] at hpassed hdraft hdrain
  have ⟨_, t₁, n, fee, t₂, _, _, _, _, hround, _⟩ := hdraft
  exact ⟨a, ha, w₀.tables, t, view, draft, hpassed, hstart.trans (hframe.of_mem ha), hdraft,
    ⟨n, fee, t₁, t₂, hround⟩, hfinish, hdrain⟩

end Once

theorem prepareCrossZone_eq_ok {intent : QiIntent} {prepared : PreparedQiTransaction W}
    (h : s.prepareCrossZone first second id intent policy w = (.ok prepared, w')) :
    s.prepareTransfer first second id intent policy true w = (.ok prepared, w') := by
  rw [prepareCrossZone] at h
  cases hd : intent.destinations with
  | nil =>
    rw [hd] at h
    cases h
  | cons destination rest =>
    rw [hd] at h
    exact (Method.ite_fail_eq_ok.mp h).2

theorem prepareCrossZone_fails (first second : Attempt W) (intent : QiIntent) :
    FailsWithin (Framed [first, second]) (s.prepareCrossZone first second id intent policy) := by
  unfold prepareCrossZone
  split
  · exact .fail _
  · exact .ite (.fail _) (retried_fails (s.transfer_reads id intent policy true) _ _)

end QiSession

/-- A transaction that one of the attempts froze over the coins it selected from its view: whose keys
its inputs hold, and that no output was claimed when it wrote. -/
structure FrozenBy (s : QiSession W) (attempts : List (Attempt W)) (before : ScopeTables)
    (policy : QiPolicy) (amount : ℕ)
    (select : List CandidateCoin → SelectionRequest → Except Fault CoinSelection) (view : View)
    (t : QiTransaction W.toCrypto) (fee : ℕ) (sel : CoinSelection) : Prop where
  selected : select view.snapshot.coins
    (policy.request s.store.scope.zone view.height amount fee) = .ok sel
  authorized : ∃ a ∈ attempts, ∃ start seen owners finalHeight last, Frame attempts before start ∧
    s.observe a policy.maxSnapshotAge start = (.ok view, seen) ∧ Frame [a] seen owners ∧
    a.candidateHeight 1 view.snapshot.generation view.checkpoint policy.maxSnapshotAge owners =
      (.ok finalHeight, last) ∧
    Authorized (storedOwner owners) view.snapshot.coins policy.maxFee finalHeight sel t fee ∧
    ∀ coin ∈ sel.inputs, (a.others .claim last).custody.qiClaims.lookup coin.outpoint = none

/-- A planned round, its recheck and its claim make a frozen transaction. -/
theorem QiSession.Drafted.frozen {τ ρ : Type} {b : Builder W τ ρ} {amount : ℕ}
    {select : List CandidateCoin → SelectionRequest → Except Fault CoinSelection} {view : View}
    {draft : Draft τ} {payload : QiTransaction W.toCrypto} {before : ScopeTables}
    (h : s.Drafted a id policy b pool view draft t t') (ha : a ∈ attempts) (hb : b.Reads a)
    (hstart : Frame attempts before t)
    (hselect : select view.snapshot.coins
      (policy.request s.store.scope.zone view.height amount draft.fee) = .ok draft.selection)
    (hfunded : draft.selection.Funded view.snapshot.coins
      (policy.request s.store.scope.zone view.height amount draft.fee))
    (hplan : ∀ n fee t t', b.round pool view n fee t = (.ok (.done draft), t') →
      Planned (storedOwner t') draft.selection payload) :
    FrozenBy s attempts before policy amount select view payload draft.fee draft.selection := by
  obtain ⟨seen, t₂, n, fee, owners, finalHeight, last, hview, hrounds, hdone, hfinal, hclaim⟩ := h
  obtain ⟨hheight, hspendable⟩ := recheck_eq_ok hfinal
  obtain ⟨_, hreserve, -⟩ := bind_eq_ok.mp (Attempt.write_eq_ok.mp hclaim)
  obtain ⟨-, hclaims, -⟩ := ScopeTables.reserveQi_eq_ok hreserve
  have hsettled := (hb.round _ _ n fee).of_eq hdone
  refine ⟨hselect, a, ha, t, seen, owners, finalHeight, last, hstart, hview,
    hrounds.trans hsettled, hheight, ?_, ?_⟩
  · exact (hplan n fee t₂ owners hdone).authorized hfunded hspendable
  · exact fun coin hcoin => (hclaims.free _ (mem_map_of_mem hcoin)).2

def fewest (aggregatedSpend : Bool) (coins : List CandidateCoin) (request : SelectionRequest) :
    Except Fault CoinSelection :=
  (selectFewestInner coins request aggregatedSpend).mapError Fault.returned

theorem prepareTransfer_frozen {intent : QiIntent} {crossZone : Bool}
    {prepared : PreparedQiTransaction W}
    (h : s.prepareTransfer first second id intent policy crossZone w = (.ok prepared, w')) :
    ∃ view sel, FrozenBy s [first, second] w.tables policy intent.amount (fewest false) view
        prepared.transaction prepared.fee sel ∧
      prepared.recipientOutputs = sel.spendOutputs.length ∧
      paidTo (intent.destinations.map LedgerAddress.address) prepared.transaction =
        intent.amount := by
  have hreads := s.transfer_reads id intent policy crossZone
  obtain ⟨a, ha, t₀, t, view, draft, hcheck, hframe, hdraft,
    ⟨n, fee, _, _, hround⟩, hfinish, -⟩ := retried_eq_ok hreads h
  have hapart := checkTransfer_apart hcheck
  obtain ⟨hsel, -, hpaid, -⟩ := transferRound_done hround hapart
  obtain ⟨hfunded, hspend⟩ := selectFewestInner_funded hsel
  obtain ⟨digest, -, hprepared⟩ := bind_eq_ok.mp hfinish
  cases hprepared
  refine ⟨view, draft.selection, ?_, rfl, hpaid.trans hspend⟩
  exact hdraft.frozen ha (hreads a) hframe (mapError_eq_ok.mpr hsel) hfunded
    fun _ _ _ _ h => (transferRound_done h hapart).2.1

/-- Whatever the wallet, the intent, the policy and the node's answers: every quote and every
preparation that succeeds is authorized, and pays its recipients exactly. -/
theorem frozen_authorized :
    (∀ (C : Crypto) (p : Provider C) (r : QiQuoteRequest) (q : QiQuote C), quoteQi p r = .ok q →
      ∃ height sel, r.intent.select r.source.coins
          (r.policy.request r.source.scope.zone height r.intent.amount q.fee) = .ok sel ∧
        q.selected = sel.inputs ∧ q.recipientOutputs = sel.spendOutputs.length ∧
        Authorized r.source.owner r.source.coins r.policy.maxFee q.candidateHeight sel
          q.transaction q.fee ∧
        r.intent.Settles r.source.coins
          (r.policy.request r.source.scope.zone height r.intent.amount q.fee) sel q.transaction) ∧
    (∀ (W : HdCrypto) (s : QiSession W) (first second : Attempt W) (id : ReservationId)
      (intent : QiIntent) (policy : QiPolicy) (w w' : Workspace W)
      (prepared : PreparedQiTransaction W),
      s.prepare first second id intent policy w = (.ok prepared, w') ∨
        s.prepareCrossZone first second id intent policy w = (.ok prepared, w') →
      ∃ view sel, FrozenBy s [first, second] w.tables policy intent.amount (fewest false) view
          prepared.transaction prepared.fee sel ∧
        prepared.recipientOutputs = sel.spendOutputs.length ∧
        paidTo (intent.destinations.map LedgerAddress.address) prepared.transaction =
          intent.amount) ∧
    (∀ (W : HdCrypto) (s : QiSession W) (first second : Attempt W) (id : ReservationId) (amount : ℕ)
      (intent : QiSpecialIntent) (mode : QiSession.FeeMode) (policy : QiPolicy)
      (w w' : Workspace W) (prepared : PreparedQiOperation W),
      s.prepareSpecial first second id amount intent mode policy w = (.ok prepared, w') →
      ∃ view sel, FrozenBy s [first, second] w.tables policy amount (fewest true) view
          prepared.transaction.transaction prepared.fee sel ∧
        paidTo [intent.destination.address] prepared.transaction.transaction = amount) ∧
    (∀ (W : HdCrypto) (s : QiSession W) (first second : Attempt W) (id : ReservationId)
      (mode : SweepMode) (policy : QiPolicy) (w w' : Workspace W)
      (prepared : PreparedQiTransaction W),
      s.prepareSweep first second id mode policy w = (.ok prepared, w') →
      ∃ view sel, FrozenBy s [first, second] w.tables policy 0
          (fun coins request => selectSweep coins request mode) view prepared.transaction
          prepared.fee sel ∧
        prepared.recipientOutputs = sel.spendOutputs.length ∧
        paidTo (w.pool.addresses.map address) prepared.transaction =
          coinTotal sel.inputs - prepared.fee ∧
        (mode.SpendsAll → sel.inputs = eligible
          (policy.request s.store.scope.zone view.height 0 prepared.fee) view.snapshot.coins)) := by
  refine ⟨fun C p r q h => quoteQi_authorized h, ?_, ?_, ?_⟩
  · rintro W s first second id intent policy w w' prepared (h | h)
    · exact prepareTransfer_frozen h
    · exact prepareTransfer_frozen (prepareCrossZone_eq_ok h)
  · intro W s first second id amount intent mode policy w w' prepared h
    have hreads := s.special_reads id amount intent mode policy
    obtain ⟨a, ha, -, t, view, draft, -, hframe, hdraft,
      ⟨n, fee, _, _, hround⟩, hfinish, -⟩ := retried_eq_ok hreads h
    obtain ⟨hsel, -, hpaid, -⟩ := specialRound_done hround
    obtain ⟨hfunded, hspend⟩ := selectFewestInner_funded hsel
    cases hfinish
    refine ⟨view, draft.selection, ?_, hpaid.trans hspend⟩
    exact hdraft.frozen ha (hreads a) hframe (mapError_eq_ok.mpr hsel) hfunded
      fun _ _ _ _ h => (specialRound_done h).2.1
  · intro W s first second id mode policy w w' prepared h
    have hreads := s.sweep_reads id mode policy
    obtain ⟨a, ha, -, t, view, draft, -, hframe, hdraft,
      ⟨n, fee, _, _, hround⟩, hfinish, -⟩ := retried_eq_ok hreads h
    obtain ⟨hsel, hplan, hpaid, -⟩ := sweepRound_done hround
    obtain ⟨hfunded, hchange, hall⟩ := selectSweep_funded hsel
    cases hfinish
    refine ⟨view, draft.selection, ?_, ?_, ?_, hall⟩
    · exact hdraft.frozen ha (hreads a) hframe hsel hfunded
        fun _ _ _ _ h => (sweepRound_done h).2.1
    · have hcount := congrArg length hplan.denominations
      rw [length_map, hchange, append_nil] at hcount
      exact hcount
    · have hconserved := hfunded.conserved
      rw [hchange, total_nil] at hconserved
      rw [hpaid]
      change _ = coinTotal draft.selection.inputs - draft.fee
      change coinTotal draft.selection.inputs = _ + 0 + draft.fee at hconserved
      omega

def paymentBytes : Bytes :=
  coinSpent ++ toBytes 59
    0x8201380a1a0804121400803333333333333333333333333333333333331a000a1a0802121400d78773085ba26be7352d9e5f6385508fa96d7a1a00

def paymentSignature : Bytes := toBytes 64
  0x6af61c8835a6455a4ca4924b8e34a7aed64df8a49b9852161c422149f94ec75cf7ca889a044e2397190b773a133720b518c5e832c80c09934460dad190768cd3

def paymentSignedBytes : Bytes := signedWith paymentBytes paymentSignature

theorem paymentSignature_length : paymentSignature.length = 64 := length_toBytes ..

def paymentDigest : Hash32 :=
  ofNat 0x8b3d4fffcf8d8fde0db487dc84c43eefd00cd5a6b4b5ee20a8e4111628b99a6f

def paymentHash : Hash32 :=
  ofNat 0x14b97c4e70293bc1ebcd4be4985ca7e1a2ff140478eaca03f81a2690af8d81c0

def ownPaymentBytes : Bytes :=
  coinSpent ++ toBytes 31
    0x82011c0a1a0804121400d78773085ba26be7352d9e5f6385508fa96d7a1a00

def ownPaymentSignature : Bytes := toBytes 64
  0x464fb9089192c16067c6752b2d99aed75c61fdeab59d0d20e12f4f2aee28a1a1c76d1a57e19a49c7d61b9b217a44c436f84209a2ac5d3b991f158084e3d603b1

def ownPaymentSignedBytes : Bytes := signedWith ownPaymentBytes ownPaymentSignature

def ownPaymentDigest : Hash32 :=
  ofNat 0xbe5ec45ce67d72d5e8da85a16be5ca541252d98894ca627420c27321fc094d18

def ownPaymentHash : Hash32 :=
  ofNat 0xced49eca691c751b55212d35e908214a563409e7d9ab0e537335b5afa2b7a532

def conversionBytes : Bytes :=
  toBytes 26 0x0802321601000080555555555555555555555555555555555555 ++ coinInputs ++ toBytes 31
    0x82011c0a1a0804121400112222222222222222222222222222222222221a00

def conversionSignature : Bytes := toBytes 64
  0xe48e744627c9c3ec96d5f10d48ad494846cd823d2cad3a2408397fd3bd5afc9983164b3554a86a3fc2830e10458f4f875f1c21af219870d1685bdda5daf90a00

def conversionSignedBytes : Bytes := signedWith conversionBytes conversionSignature

def conversionDigest : Hash32 :=
  ofNat 0x67dd9c4f23ec58ce6a10b6507a505c3fe69139742c305dfa19c45cfa81ba898d

def conversionHash : Hash32 :=
  ofNat 0xfe8886d456150118daad0e4452a67a1471f33f535c72a1361ae241d6e67866de

def ownerAddress : Address := Address.ofNat 0x00edf2d16afbc028fb1e879559b07997af79539f

/-- An imported key with its signatures over three payloads, and the account of `System.changeXpub`. -/
def coinWallet : HdCrypto :=
  KnownKeys.hd
    { accounts := [(changeXpub, 0)]
      children := [((changeXpub, true, 0), changeKey)] }
    { addresses := [(coinOwnerKey, ownerAddress), (changeKey, changeAddress)]
      digests := [(paymentBytes, paymentDigest), (paymentSignedBytes, paymentHash),
        (ownPaymentBytes, ownPaymentDigest), (ownPaymentSignedBytes, ownPaymentHash),
        (conversionBytes, conversionDigest), (conversionSignedBytes, conversionHash)]
      schnorr := [([coinOwnerKey], paymentDigest, paymentSignature),
        ([coinOwnerKey], ownPaymentDigest, ownPaymentSignature),
        ([coinOwnerKey], conversionDigest, conversionSignature)]
      recoveries := [] }

def walletStore : StoreHandle := ⟨⟨0⟩, sampleScope⟩

def walletSession : QiSession coinWallet where
  store := walletStore
  resolve entry := okOr (coinWallet.fromSec1 entry.publicKey) StorageError.invalid

def walletCheckpoint : Checkpoint := ⟨ofNat 7, 10⟩

def walletOutpoint : OutPoint :=
  ⟨ofNat 0x0080008051515151515151515151515151515151515151515151515151515151, 5⟩

def walletCoin : CandidateCoin :=
  ⟨walletOutpoint, ⟨ownerAddress, .cyprus1, by decide +kernel, by decide +kernel⟩, .fiveHundred, 0,
    none, false⟩

def walletTables : ScopeTables where
  generation := 3
  checkpoint := some walletCheckpoint
  coins := AList.insert walletOutpoint ⟨3, ⟨ownerAddress, .fiveHundred, 0, none⟩⟩ ∅
  addresses := AList.insert changeAddress ⟨changeKey, .bip44 .qi 0 true 0⟩
    (AList.insert ownerAddress ⟨coinOwnerKey, .importedPublic⟩ ∅)
  derivationCursors := AList.insert ⟨.qi, 0, true⟩ ⟨changeXpub, 1⟩ ∅
  releasedChange := ∅
  observationCache := ∅
  headReplay := none
  custody := .empty

def walletPool : QiChangePool coinWallet where
  storeInstance := ⟨0⟩
  scope := sampleScope
  account := System.changeAccount
  burnedThrough := some 1
  addresses := [changeChild]

def walletHeader (hash : ℕ) (number : UInt64) : QuaiSdk.Provider.ZoneHeader :=
  ⟨ofNat hash, ofNat (hash - 1), number, .cyprus1, 0, 0, 0, [], []⟩

def node (fee : ℕ) : Provider coinWallet.toCrypto where
  expectedChainId := sampleScope.chainId
  genesisHash _ := .ok sampleScope.genesis
  headers _ := .ok [some (walletHeader 7 10), some (walletHeader 8 11)]
  estimateFeeForQi _ _ := .ok fee
  sampleSpecialFee _ _ := .ok ⟨fee, fee⟩

/-- The rows and the pool of the wallet. -/
def walletSpace : Workspace coinWallet := ⟨walletTables, walletPool⟩

/-- An attempt that no other handle disturbs. -/
def walletAttempt (fee : ℕ) : Attempt coinWallet := ⟨node fee, fun _ t => t⟩

def walletPolicy (fee : ℕ) : QiPolicy := ⟨fee, 400, 4, 4, 2, 5⟩

def walletId : ReservationId := .filled 1

def recipient : QiAddress where
  address := Address.ofNat 0x0080333333333333333333333333333333333333
  zone := .cyprus1
  zone_eq := by decide +kernel
  ledger_eq := by decide +kernel

def conversionIntent : QiConversionIntent where
  destination :=
    ⟨Address.ofNat 0x0011222222222222222222222222222222222222, .cyprus1, by decide +kernel,
      by decide +kernel⟩
  refund :=
    ⟨Address.ofNat 0x0080555555555555555555555555555555555555, .cyprus1, by decide +kernel,
      by decide +kernel⟩
  slippage := ⟨256, by decide⟩

def paymentRequest : QiQuoteRequest where
  source :=
    { scope := sampleScope
      checkpoint := walletCheckpoint
      coins := [walletCoin]
      owners := [⟨ownerAddress, coinOwnerKey, .importedPublic⟩] }
  intent := .transfer ⟨100, [recipient]⟩
  policy := walletPolicy 390
  fees := .node
  change := [changeChild]

/-- A quote and a payment of 100 at fee 390, a conversion of 100 and a sweep at fee 400. -/
theorem frozen_authorized_coin :
    (∃ q, quoteQi (node 390) paymentRequest = .ok q ∧ q.fee ≤ 400 ∧
      paidTo [recipient.address] q.transaction = 100) ∧
    (∃ prepared w view sel, walletSession.prepare (walletAttempt 390) (walletAttempt 390) walletId
        ⟨100, [recipient]⟩ (walletPolicy 390) walletSpace = (.ok prepared, w) ∧
      FrozenBy walletSession [walletAttempt 390, walletAttempt 390] walletTables (walletPolicy 390)
        100 (fewest false) view prepared.transaction prepared.fee sel ∧
      paidTo [recipient.address] prepared.transaction = 100) ∧
    (∃ prepared w view sel, walletSession.prepareSpecial (walletAttempt 400) (walletAttempt 400)
        walletId 100 (.conversion conversionIntent) (.explicit 400) (walletPolicy 400) walletSpace =
          (.ok prepared, w) ∧
      FrozenBy walletSession [walletAttempt 400, walletAttempt 400] walletTables (walletPolicy 400)
        100 (fewest true) view prepared.transaction.transaction prepared.fee sel ∧
      paidTo [conversionIntent.destination.address] prepared.transaction.transaction = 100) ∧
    (∃ prepared w view sel, walletSession.prepareSweep (walletAttempt 400) (walletAttempt 400)
        walletId .preserveDenominations (walletPolicy 400) walletSpace = (.ok prepared, w) ∧
      FrozenBy walletSession [walletAttempt 400, walletAttempt 400] walletTables (walletPolicy 400) 0
        (fun coins request => selectSweep coins request .preserveDenominations) view
        prepared.transaction prepared.fee sel ∧
      prepared.fee = 400 ∧ coinTotal sel.inputs = 500 ∧
      paidTo [changeAddress] prepared.transaction = 100) := by
  obtain ⟨hquotes, hprepares, hspecials, hsweeps⟩ := frozen_authorized
  refine ⟨?_, ?_, ?_, ?_⟩
  · obtain ⟨q, hq⟩ := exists_of_isOk (show (quoteQi (node 390) paymentRequest).isOk = true by
      decide +kernel)
    obtain ⟨height, sel, -, -, -, hauthorized, hpaid⟩ := hquotes _ _ _ q hq
    exact ⟨q, hq, hauthorized.feeBound, hpaid⟩
  · obtain ⟨prepared, h⟩ := exists_of_isOk (show (walletSession.prepare (walletAttempt 390)
      (walletAttempt 390) walletId ⟨100, [recipient]⟩ (walletPolicy 390) walletSpace).1.isOk = true by
        decide +kernel)
    have hrun := Method.eq_ok_of_fst h
    obtain ⟨view, sel, hfrozen, -, hpaid⟩ := hprepares _ _ _ _ _ _ _ _ _ _ (.inl hrun)
    exact ⟨prepared, _, view, sel, hrun, hfrozen, hpaid⟩
  · obtain ⟨prepared, h⟩ := exists_of_isOk (show (walletSession.prepareSpecial (walletAttempt 400)
      (walletAttempt 400) walletId 100 (.conversion conversionIntent) (.explicit 400)
      (walletPolicy 400) walletSpace).1.isOk = true by decide +kernel)
    have hrun := Method.eq_ok_of_fst h
    obtain ⟨view, sel, hfrozen, hpaid⟩ := hspecials _ _ _ _ _ _ _ _ _ _ _ _ hrun
    exact ⟨prepared, _, view, sel, hrun, hfrozen, hpaid⟩
  · have hsummary : (walletSession.prepareSweep (walletAttempt 400) (walletAttempt 400) walletId
        .preserveDenominations (walletPolicy 400) walletSpace).1.map (fun prepared =>
          (prepared.fee, paidTo [changeAddress] prepared.transaction)) = .ok (400, 100) := by
      decide +kernel
    obtain ⟨prepared, h, hsummary⟩ := map_eq_ok.mp hsummary
    obtain ⟨hfee, htotal⟩ := Prod.mk.inj hsummary
    have hrun := Method.eq_ok_of_fst h
    obtain ⟨view, sel, hfrozen, -, hpaid, -⟩ := hsweeps _ _ _ _ _ _ _ _ _ _ hrun
    have hpaid' : 100 = coinTotal sel.inputs - 400 := by rw [← htotal, ← hfee]; exact hpaid
    exact ⟨prepared, _, view, sel, hrun, hfrozen, hfee, by omega, htotal⟩

end QuaiSdk.Sdk
