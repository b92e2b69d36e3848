import QuaiSdk.Consensus.QiClassification
import QuaiSdk.Sdk.ChangePools
import QuaiSdk.Sdk.Prepared

/-!
# What preparing and signing change

A prepare that succeeds has made one write: a new operation with claims on exactly its inputs.  Its
pool has lost exactly the addresses of its change outputs.  One that fails leaves its pool as it was,
and its rows to other handles, but for a snapshot that it cleared because it is no longer canonical.
A signature stores the reviewed transaction for an operation that was unsigned and held exactly its
inputs.
-/

namespace QuaiSdk.Sdk

open Result Wallet Storage QiSession PublicAddress ScopeTables QiInput List
open Method (Within FailsWithin)

variable {W : HdCrypto} {s : QiSession W} {a : Attempt W} {id : ReservationId}
  {pool pool' : QiChangePool W} {t t' : ScopeTables} {w w' : Workspace W}

/-- A new unsigned operation whose new claims are exactly the inputs, and no other write. -/
structure Acquired {C : Crypto} (t : ScopeTables) (id : ReservationId) (inputs : List (QiInput C))
    (t' : ScopeTables) : Prop where
  fresh : t.custody.reservations.lookup id = none
  write : ∃ qiClaims, t' = t.withCustody fun c =>
    { c with qiClaims, reservations := c.reservations.insert id ⟨.qi, .reserved⟩ }
  claims : ∀ o, (∃ claim, t'.custody.qiClaims.lookup o = some claim ∧ claim.operation = id ∧
    t.custody.qiClaims.lookup o ≠ some claim) ↔ o ∈ inputs.map previousOutput
  others : ∀ o, o ∉ inputs.map previousOutput →
    t'.custody.qiClaims.lookup o = t.custody.qiClaims.lookup o

/-- The write of a successful prepare over the rows `before`, which are within the frame of its
attempts, and the entries that its pool lost. -/
structure Committed (attempts : List (Attempt W)) (id : ReservationId)
    (inputs : List (QiInput W.toCrypto)) (lost : List PublicAddress) (before : ScopeTables)
    (w w' : Workspace W) : Prop where
  found : Frame attempts w.tables before
  acquired : Acquired before id inputs w'.tables
  pool : w'.pool = { w.pool with addresses := w'.pool.addresses } ∧
    w.pool.addresses = lost ++ w'.pool.addresses

variable {inputs : List (QiInput W.toCrypto)} {C : Crypto} {first second : Attempt W}
  {prepared : PreparedQiTransaction W} {read : QiSession.SignPoint → ScopeTables}
  {signature : W.SchnorrSignature} {policy : QiPolicy} {attempts : List (Attempt W)} {α : Type}
  {signed : SignedQiOperation W.toCrypto} {lost : List PublicAddress}
  {payload : QiSpecialTransaction W.toCrypto} {owner : Address → Option PublicAddress}

theorem reserveQi_acquired {generation height : ℕ}
    (h : t.reserveQi id generation height (inputs.map previousOutput) = .ok t') :
    Acquired t id inputs t' := by
  obtain ⟨hfresh, ⟨hfree, hclaims⟩, hwrite⟩ := reserveQi_eq_ok h
  refine ⟨hfresh, hwrite, fun o => ⟨?_, fun ho => ?_⟩, fun o ho => ?_⟩
  · rintro ⟨claim, hclaim, -, hnew⟩
    exact ((hclaims o claim).mp hclaim |>.resolve_left hnew).1
  · -- the outpoint was free, so the claim on it is new
    obtain ⟨hcoin, hnone⟩ := hfree o ho
    obtain ⟨coin, hlookup⟩ := Option.isSome_iff_exists.mp (AList.lookup_isSome.mpr hcoin)
    refine ⟨⟨id, coin.row.address⟩, (hclaims _ _).mpr (.inr ⟨ho, coin, hlookup, rfl⟩), rfl, ?_⟩
    rw [hnone]
    exact Option.some_ne_none _ |>.symm
  · ext claim
    rw [hclaims o claim]
    simp only [ho, false_and, or_false]

theorem QiSession.Drafted.committed {τ ρ : Type} {b : Builder W τ ρ} {view : View} {count : ℕ}
    {draft : Draft τ} (h : s.Drafted a id policy b w.pool view draft t w'.tables)
    (ha : a ∈ attempts) (hb : b.Reads a) (hstart : Frame attempts w.tables t)
    (hkeys : List.Forall₂ (KeyedBy owner) draft.selection.inputs inputs)
    (hpool : w'.pool = w.pool.drain count) :
    ∃ before, Committed attempts id inputs (w.pool.addresses.take count) before w w' := by
  obtain ⟨before, finalHeight, hframe, hreserve⟩ := h.claimed hb
  have hsame : draft.selection.inputs.map CandidateCoin.outpoint = inputs.map previousOutput := by
    rw [← forall₂_eq_eq_eq, forall₂_map_left_iff, forall₂_map_right_iff]
    exact hkeys.imp fun _ _ hkey => hkey.1.symm
  rw [hsame] at hreserve
  refine ⟨before, hstart.trans (hframe.of_mem ha), reserveQi_acquired hreserve, ?_⟩
  rw [hpool]
  exact ⟨rfl, (take_append_drop _ _).symm⟩

theorem prepareTransfer_committed {intent : QiIntent} {crossZone : Bool}
    (h : s.prepareTransfer first second id intent policy crossZone w = (.ok prepared, w')) :
    ∃ lost before, Committed [first, second] id prepared.transaction.inputs lost before w w' ∧
      prepared.id = id ∧ prepared.recipientOutputs ≤ intent.destinations.length ∧
      prepared.transaction.outputs.map QiOutput.address =
        (intent.destinations.map LedgerAddress.address).take prepared.recipientOutputs ++
          lost.map address := by
  have hreads := s.transfer_reads id intent policy crossZone
  obtain ⟨a, ha, t₀, t, view, draft, hcheck, hframe, hdraft,
    ⟨n, fee, _, _, hround⟩, hfinish, hpool⟩ := retried_eq_ok hreads h
  obtain ⟨-, hplan, -, hspend, houtputs⟩ := transferRound_done hround (checkTransfer_apart hcheck)
  obtain ⟨before, hcommitted⟩ := hdraft.committed ha (hreads a) hframe hplan.keys hpool
  obtain ⟨digest, -, hprepared⟩ := bind_eq_ok.mp hfinish
  cases hprepared
  refine ⟨_, before, hcommitted, rfl, hspend, ?_⟩
  rw [map_take]
  exact houtputs

theorem prepareSpecial_committed {amount : ℕ} {intent : QiSpecialIntent} {mode : QiSession.FeeMode}
    {prepared : PreparedQiOperation W}
    (h : s.prepareSpecial first second id amount intent mode policy w = (.ok prepared, w')) :
    ∃ lost before,
      Committed [first, second] id prepared.transaction.transaction.inputs lost before w w' ∧
      prepared.id = id ∧
      ∃ inputs spend change, s.specialPayload intent inputs spend change = .ok prepared.transaction ∧
        change.map QiOutput.address = lost.map address := by
  have hreads := s.special_reads id amount intent mode policy
  obtain ⟨a, ha, -, t, view, draft, -, hframe, hdraft,
    ⟨n, fee, _, _, hround⟩, hfinish, hpool⟩ := retried_eq_ok hreads h
  obtain ⟨-, hplan, -, inputs, hpayload, hchange⟩ := specialRound_done hround
  obtain ⟨before, hcommitted⟩ := hdraft.committed ha (hreads a) hframe hplan.keys hpool
  cases hfinish
  refine ⟨_, before, hcommitted, rfl, inputs, _, _, hpayload, ?_⟩
  rw [map_take]
  exact payTo_addresses (by rwa [length_map])

theorem prepareSweep_committed {mode : SweepMode}
    (h : s.prepareSweep first second id mode policy w = (.ok prepared, w')) :
    ∃ lost before, Committed [first, second] id prepared.transaction.inputs lost before w w' ∧
      prepared.id = id ∧
      prepared.transaction.outputs.map QiOutput.address = lost.map address := by
  have hreads := s.sweep_reads id mode policy
  obtain ⟨a, ha, -, t, view, draft, -, hframe, hdraft,
    ⟨n, fee, _, _, hround⟩, hfinish, hpool⟩ := retried_eq_ok hreads h
  obtain ⟨-, hplan, -, houtputs⟩ := sweepRound_done hround
  obtain ⟨before, hcommitted⟩ := hdraft.committed ha (hreads a) hframe hplan.keys hpool
  cases hfinish
  refine ⟨_, before, hcommitted, rfl, ?_⟩
  rw [map_take]
  exact houtputs

def claimed (t : ScopeTables) (id : ReservationId) : List OutPoint :=
  (t.custody.qiClaims.rows.filter fun r => r.2.operation = id).map (·.1)

theorem mem_claimed {o : OutPoint} : o ∈ claimed t id ↔
    ∃ claim, t.custody.qiClaims.lookup o = some claim ∧ claim.operation = id := by
  simp only [claimed, mem_map, mem_filter, decide_eq_true_iff, Prod.exists, Table.mem_rows]
  constructor
  · rintro ⟨o', claim, ⟨hclaim, hid⟩, rfl⟩
    exact ⟨claim, hclaim, hid⟩
  · rintro ⟨claim, hclaim, hid⟩
    exact ⟨o, claim, ⟨hclaim, hid⟩, rfl⟩

def ClaimsExactly {C : Crypto} (t : ScopeTables) (id : ReservationId) (inputs : List (QiInput C)) :
    Prop :=
  ∀ o, (∃ claim, t.custody.qiClaims.lookup o = some claim ∧ claim.operation = id) ↔
    o ∈ inputs.map previousOutput

def Unsigned (t : ScopeTables) (id : ReservationId) : Prop :=
  ∃ row, t.custody.reservations.lookup id = some row ∧ row.status = .reserved

theorem unsigned_of_read {r : Reservation} (h : t.reservationRead id = some r)
    (hstate : r.state = .reserved) : Unsigned t id := by
  obtain ⟨row, hrow, rfl⟩ := Option.map_eq_some_iff.mp h
  refine ⟨row, hrow, ?_⟩
  cases hstatus : row.status with
  | reserved => rfl
  | _ => rw [hstatus] at hstate; cases hstate

theorem claimsExactly_of_sorted {inputs : List (QiInput C)} {actual : List OutPoint}
    (h : t.reservedOutpoints id = .ok actual)
    (hsame : sortOutPoints (inputs.map previousOutput) = sortOutPoints actual) :
    ClaimsExactly t id inputs := by
  simp only [reservedOutpoints, eq_ok] at h
  obtain ⟨-, rfl⟩ := h
  have hperm : (inputs.map previousOutput).Perm (claimed t id) := by
    refine (sortOutPoints_perm _).symm.trans ?_
    rw [hsame]
    exact (sortOutPoints_perm _).trans (sortOutPoints_perm _)
  exact fun o => mem_claimed.symm.trans hperm.mem_iff.symm

theorem checkReserved_eq_ok (h : checkReserved id inputs read = .ok ()) :
    Unsigned (read .reservation) id ∧ ClaimsExactly (read .claims) id inputs := by
  simp only [checkReserved, eq_ok, not_or, not_not] at h
  obtain ⟨reservation, hread, actual, hactual, ⟨hstate, hsame⟩, -⟩ := h
  exact ⟨unsigned_of_read hread hstate, claimsExactly_of_sorted hactual hsame⟩

theorem checkReservedSpecial_eq_ok (h : checkReservedSpecial id inputs read = .ok ()) :
    Unsigned (read .reservation) id ∧ ClaimsExactly (read .claims) id inputs := by
  simp only [checkReservedSpecial, eq_ok, not_not] at h
  obtain ⟨hstate, actual, hactual, hsame, -⟩ := h
  obtain ⟨reservation, hread, hreserved⟩ := Option.map_eq_some_iff.mp hstate
  exact ⟨unsigned_of_read hread hreserved, claimsExactly_of_sorted hactual hsame⟩

theorem attachSpecial_eq_ok {keys : List W.PublicKey}
    (h : attachSpecial payload keys signature = .ok signed) :
    signed.transaction = payload.transaction ∧ signed.addresses = payload.addresses := by
  cases payload with
  | conversion | wrapping =>
    obtain ⟨signature', -, h⟩ := bind_eq_ok.mp h
    obtain ⟨v, hv, rfl⟩ := map_eq_ok.mp h
    obtain ⟨-, -, rfl⟩ := withProof_eq_ok.mp hv
    exact ⟨rfl, rfl⟩

theorem signFrom_eq_ok {signed : SignedQiTransaction W.toCrypto}
    (h : s.signFrom read prepared signature t = .ok (signed, t')) :
    checkReserved prepared.id prepared.transaction.inputs read = .ok () ∧
      signed.transaction = prepared.transaction ∧
      t.commitSignedQiOperation s.store.scope prepared.id (.transfer signed) = .ok t' := by
  simp only [signFrom, eq_ok, Prod.mk.injEq] at h
  obtain ⟨-, ⟨⟩, hcheck, keys, -, signature', -, signed', hattach, t₁, hcommit, rfl, rfl⟩ := h
  obtain ⟨_, _, rfl⟩ := withProof_eq_ok.mp hattach
  exact ⟨hcheck, rfl, hcommit⟩

theorem signSpecialFrom_eq_ok {prepared : PreparedQiOperation W}
    (h : s.signSpecialFrom read prepared signature t = .ok (signed, t')) :
    checkReservedSpecial prepared.id prepared.transaction.transaction.inputs read = .ok () ∧
      (∃ keys, attachSpecial prepared.transaction keys signature = .ok signed) ∧
      t.commitSignedQiOperation s.store.scope prepared.id signed = .ok t' := by
  simp only [signSpecialFrom, eq_ok, Prod.mk.injEq] at h
  obtain ⟨-, ⟨⟩, hcheck, keys, -, signed', hattach, t₁, hcommit, rfl, rfl⟩ := h
  exact ⟨hcheck, ⟨keys, hattach⟩, hcommit⟩

/-- The payload is stored for an operation that claims exactly the inputs and either is still
unsigned or was signed to this very transaction. -/
structure Stored {C : Crypto} (t : ScopeTables) (id : ReservationId) (signed : SignedQiOperation C)
    (t' : ScopeTables) : Prop where
  claims : ClaimsExactly t id signed.transaction.inputs
  owners : ∀ input ∈ signed.transaction.inputs,
    t.custody.qiClaims.lookup input.previousOutput = some ⟨id, C.address input.publicKey⟩
  status : ∃ row hash, t.custody.reservations.lookup id = some row ∧ signed.hash = .ok hash ∧
    row.status ≠ .released ∧ ∀ h, row.status.transaction = some h → h = hash
  payload : ∃ stored, t'.custody.signedPayloads.lookup id = some stored ∧
    signed.signedBytes = .ok stored.payload

theorem commitPayload_lookup {hash : Hash32} {kind : OperationKind} {payload : Bytes}
    (h : t.commitPayload id hash kind payload = .ok t') :
    (∃ row, t.custody.reservations.lookup id = some row ∧ row.status ≠ .released ∧
      ∀ h, row.status.transaction = some h → h = hash) ∧
      ∃ stored, t'.custody.signedPayloads.lookup id = some stored ∧ stored.payload = payload := by
  simp only [commitPayload, eq_ok, not_or, not_exists, not_and, not_not] at h
  obtain ⟨-, row, hrow, ⟨-, hhash, hstate⟩, h⟩ := h
  refine ⟨⟨row, hrow, fun hreleased => hstate (by rw [hreleased]; rfl), hhash⟩, ?_⟩
  split at h
  · rename_i previous hprevious
    rw [ite_error_eq_ok, not_not, Except.ok.injEq] at h
    obtain ⟨hsame, rfl⟩ := h
    exact ⟨previous, hprevious, hsame⟩
  · simp only [storePayload, bind_eq_ok, Table.insertNew_eq_ok] at h
    obtain ⟨payloads, ⟨-, rfl⟩, h⟩ := h
    refine ⟨⟨kind, payload⟩, ?_, rfl⟩
    split at h
    all_goals
      cases h
      exact AList.lookup_insert _

theorem claimsExactly_of_count {inputs : List (QiInput C)}
    (hnodup : (inputs.map previousOutput).Nodup)
    (hcount : (t.custody.qiClaims.rows.countP fun r => r.2.operation = id) = inputs.length)
    (hclaims : ∀ input ∈ inputs, ∃ claim,
      t.custody.qiClaims.lookup input.previousOutput = some claim ∧ claim.operation = id) :
    ClaimsExactly t id inputs := by
  have hsub : inputs.map previousOutput ⊆ claimed t id := by
    intro o ho
    obtain ⟨input, hinput, rfl⟩ := mem_map.mp ho
    exact mem_claimed.mpr (hclaims input hinput)
  have hlength : (claimed t id).length = (inputs.map previousOutput).length := by
    rw [claimed, length_map, length_map, ← hcount, countP_eq_length_filter]
  have hperm := (subperm_of_subset hnodup hsub).perm_of_length_le hlength.le
  exact fun o => mem_claimed.symm.trans hperm.mem_iff.symm

theorem commitSignedQiOperation_stored {scope : NetworkScope} {signed : SignedQiOperation C}
    (h : t.commitSignedQiOperation scope id signed = .ok t') :
    Stored t id signed t' := by
  simp only [commitSignedQiOperation, eq_ok, orInvalid] at h
  obtain ⟨payload, hpayload, hash, hhash, -, ⟨⟩, hclaim, hcommit⟩ := h
  obtain ⟨⟨row, hrow, hstate, htransaction⟩, stored, hstored, rfl⟩ := commitPayload_lookup hcommit
  simp only [validateQiClaim, ite_error_eq_ok, not_or, not_not] at hclaim
  obtain ⟨⟨hcount, -⟩, hclaim⟩ := hclaim
  split at hclaim
  · rename_i hall
    obtain ⟨zone, hvalid⟩ := signed.exists_validateFor
    have hclaims := claimsExactly_of_count (validateFor_spec hvalid).outpoints hcount
      fun input hinput => ⟨_, hall input hinput, rfl⟩
    exact ⟨hclaims, hall, ⟨row, hash, hrow, hhash, hstate, htransaction⟩, stored, hstored, hpayload⟩
  · cases hclaim

/-- The pool lost entries with these addresses, from its front, and nothing else of it changed. -/
def Loses (pool pool' : QiChangePool W) (addresses : List Address) : Prop :=
  pool' = { pool with addresses := pool'.addresses } ∧
    ∃ lost, pool.addresses = lost ++ pool'.addresses ∧ lost.map address = addresses

/-- A prepare, over the frame of its attempts: what it claims, with the change it takes out of the
pool, or neither a claim nor an operation and an untouched pool. -/
structure Disciplined {α : Type} (attempts : List (Attempt W)) (id : ReservationId)
    (inputs : α → List (QiInput W.toCrypto)) (change : α → List Address) (w : Workspace W)
    (outcome : Except QiError α × Workspace W) : Prop where
  ok : ∀ prepared w', outcome = (.ok prepared, w') →
    (∃ before, Frame attempts w.tables before ∧ Acquired before id (inputs prepared) w'.tables) ∧
      Loses w.pool w'.pool (change prepared)
  error : ∀ e w', outcome = (.error e, w') →
    w'.pool = w.pool ∧ Frame attempts w.tables w'.tables ∧
      ((∀ a ∈ attempts, ∀ access t, (a.others access t).custody = t.custody) →
        w'.tables.custody = w.tables.custody)

theorem disciplined_of {inputs : α → List (QiInput W.toCrypto)} {change : α → List Address}
    {prepare : Method QiError (Workspace W) α}
    (hok : ∀ prepared w', prepare w = (.ok prepared, w') → ∃ lost before,
      Committed attempts id (inputs prepared) lost before w w' ∧
      lost.map address = change prepared)
    (hfails : FailsWithin (Framed attempts) prepare) :
    Disciplined attempts id inputs change w (prepare w) where
  ok prepared w' hrun := by
    obtain ⟨lost, before, hcommitted, hlost⟩ := hok prepared w' hrun
    exact ⟨⟨before, hcommitted.found, hcommitted.acquired⟩, hcommitted.pool.1, lost,
      hcommitted.pool.2, hlost⟩
  error e w' hrun := by
    obtain ⟨hpool, hframe⟩ := hfails w e w' hrun
    exact ⟨hpool, hframe, hframe.custody⟩

def transferChange (prepared : PreparedQiTransaction W) : List Address :=
  (prepared.transaction.outputs.drop prepared.recipientOutputs).map QiOutput.address

def specialChange (prepared : PreparedQiOperation W) : List Address :=
  (prepared.transaction.transaction.outputs.filter fun o => o.address.ledger = .qi).map
    QiOutput.address

theorem transferChange_of_outputs {intent : QiIntent}
    (hle : prepared.recipientOutputs ≤ intent.destinations.length)
    (houtputs : prepared.transaction.outputs.map QiOutput.address =
      (intent.destinations.map LedgerAddress.address).take prepared.recipientOutputs ++
        lost.map address) :
    lost.map address = transferChange prepared := by
  -- the recipients take the first outputs, one each
  rw [transferChange, map_drop, houtputs, drop_left' ?_]
  rw [length_take, length_map, min_eq_left hle]

theorem specialChange_of_payload {prepared : PreparedQiOperation W} {intent : QiSpecialIntent}
    {spend : List Denomination} {change : List QiOutput}
    (h : s.specialPayload intent inputs spend change = .ok prepared.transaction) :
    specialChange prepared = change.map QiOutput.address := by
  obtain ⟨hbuilt, -⟩ := specialPayload_built h
  have hspend : (spend.map fun d => (⟨intent.destination.address, d⟩ : QiOutput)).filter
      (fun o => decide (o.address.ledger = .qi)) = [] := by
    rw [filter_eq_nil_iff]
    intro o ho
    obtain ⟨d, -, rfl⟩ := mem_map.mp ho
    simp only [intent.destination.ledger_eq, decide_eq_true_eq, reduceCtorEq, not_false_eq_true]
  have hchange : change.filter (fun o => decide (o.address.ledger = .qi)) = change :=
    filter_eq_self.mpr fun o ho => decide_eq_true (hbuilt.change o ho)
  rw [specialChange, hbuilt.outputs, filter_append, hspend, hchange, nil_append]

/-- Preparations under any answers and any interleaving, and the signatures that follow. -/
theorem qi_effects_disciplined (W : HdCrypto) (s : QiSession W) :
    (∀ (first second : Attempt W) (id : ReservationId) (intent : QiIntent) (policy : QiPolicy)
      (w : Workspace W),
      Disciplined [first, second] id (·.transaction.inputs) transferChange w
          (s.prepare first second id intent policy w) ∧
        Disciplined [first, second] id (·.transaction.inputs) transferChange w
          (s.prepareCrossZone first second id intent policy w)) ∧
    (∀ (first second : Attempt W) (id : ReservationId) (amount : ℕ) (intent : QiSpecialIntent)
      (mode : QiSession.FeeMode) (policy : QiPolicy) (w : Workspace W),
      Disciplined [first, second] id (·.transaction.transaction.inputs) specialChange w
        (s.prepareSpecial first second id amount intent mode policy w)) ∧
    (∀ (first second : Attempt W) (id : ReservationId) (mode : SweepMode) (policy : QiPolicy)
      (w : Workspace W),
      Disciplined [first, second] id (·.transaction.inputs)
        (·.transaction.outputs.map QiOutput.address) w
        (s.prepareSweep first second id mode policy w)) ∧
    (∀ (read : QiSession.SignPoint → ScopeTables) (prepared : PreparedQiTransaction W)
      (signature : W.SchnorrSignature) (t t' : ScopeTables) (signed : SignedQiTransaction W.toCrypto),
      s.signFrom read prepared signature t = .ok (signed, t') →
      Unsigned (read .reservation) prepared.id ∧
        ClaimsExactly (read .claims) prepared.id prepared.transaction.inputs ∧
        signed.transaction = prepared.transaction ∧ Stored t prepared.id (.transfer signed) t') ∧
    (∀ (read : QiSession.SignPoint → ScopeTables) (prepared : PreparedQiOperation W)
      (signature : W.SchnorrSignature) (t t' : ScopeTables) (signed : SignedQiOperation W.toCrypto),
      s.signSpecialFrom read prepared signature t = .ok (signed, t') →
      Unsigned (read .reservation) prepared.id ∧
        ClaimsExactly (read .claims) prepared.id prepared.transaction.transaction.inputs ∧
        signed.transaction = prepared.transaction.transaction ∧
        Stored t prepared.id signed t') := by
  refine ⟨fun first second id intent policy w => ⟨?_, ?_⟩, ?_, ?_, ?_, ?_⟩
  · refine disciplined_of (fun prepared w' h => ?_)
      (retried_fails (s.transfer_reads id intent policy false) _ _)
    obtain ⟨lost, before, hcommitted, -, hle, houtputs⟩ := prepareTransfer_committed h
    exact ⟨lost, before, hcommitted, transferChange_of_outputs hle houtputs⟩
  · refine disciplined_of (fun prepared w' h => ?_) (prepareCrossZone_fails _ _ _)
    obtain ⟨lost, before, hcommitted, -, hle, houtputs⟩ :=
      prepareTransfer_committed (prepareCrossZone_eq_ok h)
    exact ⟨lost, before, hcommitted, transferChange_of_outputs hle houtputs⟩
  · intro first second id amount intent mode policy w
    refine disciplined_of (fun prepared w' h => ?_)
      (retried_fails (s.special_reads id amount intent mode policy) _ _)
    obtain ⟨lost, before, hcommitted, -, inputs, spend, change, hpayload, hchange⟩ :=
      prepareSpecial_committed h
    exact ⟨lost, before, hcommitted, by rw [specialChange_of_payload hpayload, hchange]⟩
  · intro first second id mode policy w
    refine disciplined_of (fun prepared w' h => ?_)
      (retried_fails (s.sweep_reads id mode policy) _ _)
    obtain ⟨lost, before, hcommitted, -, houtputs⟩ := prepareSweep_committed h
    exact ⟨lost, before, hcommitted, houtputs.symm⟩
  · intro read prepared signature t t' signed h
    obtain ⟨hcheck, htransaction, hcommit⟩ := signFrom_eq_ok h
    obtain ⟨hunsigned, hclaims⟩ := checkReserved_eq_ok hcheck
    exact ⟨hunsigned, hclaims, htransaction, commitSignedQiOperation_stored hcommit⟩
  · intro read prepared signature t t' signed h
    obtain ⟨hcheck, ⟨keys, hattach⟩, hcommit⟩ := signSpecialFrom_eq_ok h
    obtain ⟨hunsigned, hclaims⟩ := checkReservedSpecial_eq_ok hcheck
    exact ⟨hunsigned, hclaims, (attachSpecial_eq_ok hattach).1, commitSignedQiOperation_stored hcommit⟩

/-- Another handle scans the wallet's coins again. -/
def rescanned (t : ScopeTables) : ScopeTables :=
  { t with
    generation := t.generation + 1
    coins := t.coins.update fun _ coin => ⟨t.generation + 1, coin.row⟩ }

/-- An attempt that loses a race at its claim. -/
def racedAttempt (fee : ℕ) : Attempt coinWallet where
  provider := node fee
  others access t :=
    match access with
    | .claim => rescanned t
    | _ => t

/-- A payment of 100 whose second attempt succeeds, with change to the pool's only address, and its
signature; when the second attempt loses its race too, the pool keeps that address. -/
theorem qi_effects_disciplined_coin :
    (∃ prepared w before signed t', walletSession.prepare (racedAttempt 390) (walletAttempt 390)
        walletId ⟨100, [recipient]⟩ (walletPolicy 390) walletSpace = (.ok prepared, w) ∧
      Frame [racedAttempt 390, walletAttempt 390] walletTables before ∧
      Acquired before walletId prepared.transaction.inputs w.tables ∧
      Loses walletPool w.pool (transferChange prepared) ∧ w.pool.addresses = [] ∧
      walletSession.sign prepared ⟨paymentSignature, paymentSignature_length⟩ w.tables =
        .ok (signed, t') ∧
      signed.transaction = prepared.transaction ∧
      Stored w.tables prepared.id (.transfer signed) t') ∧
    ∃ w, walletSession.prepare (racedAttempt 390) (racedAttempt 390) walletId ⟨100, [recipient]⟩
        (walletPolicy 390) walletSpace = (.error (.storage .staleSnapshot), w) ∧
      w.pool = walletPool ∧ w.tables.generation = 5 ∧ w.tables.custody = walletTables.custody := by
  obtain ⟨hprepares, -, -, hsigns, -⟩ := qi_effects_disciplined coinWallet walletSession
  constructor
  · have hruns : (match walletSession.prepare (racedAttempt 390) (walletAttempt 390) walletId
        ⟨100, [recipient]⟩ (walletPolicy 390) walletSpace with
      | (.ok prepared, w) => (walletSession.sign prepared ⟨paymentSignature, paymentSignature_length⟩
          w.tables).isOk && w.pool.addresses.isEmpty
      | (.error _, _) => false) = true := by decide +kernel
    rcases hrun : walletSession.prepare (racedAttempt 390) (walletAttempt 390) walletId
      ⟨100, [recipient]⟩ (walletPolicy 390) walletSpace with ⟨e | prepared, w⟩
    · rw [hrun] at hruns
      cases hruns
    · rw [hrun, Bool.and_eq_true, List.isEmpty_iff] at hruns
      obtain ⟨⟨before, hframe, hacquired⟩, hloses⟩ := (hprepares _ _ _ _ _ _).1.ok _ _ hrun
      obtain ⟨⟨signed, t'⟩, hsign⟩ := exists_of_isOk hruns.1
      obtain ⟨-, -, htransaction, hstored⟩ := hsigns _ prepared _ _ t' signed hsign
      exact ⟨prepared, w, before, signed, t', rfl, hframe, hacquired, hloses, hruns.2, hsign,
        htransaction, hstored⟩
  · have hfails : (match walletSession.prepare (racedAttempt 390) (racedAttempt 390) walletId
        ⟨100, [recipient]⟩ (walletPolicy 390) walletSpace with
      | (.ok _, _) => false
      | (.error e, w) => decide (e = .storage .staleSnapshot ∧ w.tables.generation = 5)) = true := by
      decide +kernel
    rcases hrun : walletSession.prepare (racedAttempt 390) (racedAttempt 390) walletId
      ⟨100, [recipient]⟩ (walletPolicy 390) walletSpace with ⟨e | prepared, w⟩
    · rw [hrun, decide_eq_true_iff] at hfails
      obtain ⟨rfl, hgeneration⟩ := hfails
      obtain ⟨hpool, -, hcustody⟩ := (hprepares _ _ _ _ _ _).1.error _ _ hrun
      refine ⟨w, rfl, hpool, hgeneration, hcustody fun a ha => ?_⟩
      obtain rfl : a = racedAttempt 390 := by simpa using ha
      exact fun access t => by cases access <;> rfl
    · rw [hrun] at hfails
      cases hfails

end QuaiSdk.Sdk
