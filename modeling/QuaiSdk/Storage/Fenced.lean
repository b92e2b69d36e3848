import QuaiSdk.Lib.Fence
import QuaiSdk.Storage.Rollback

/-!
# Fenced observations

An observer reads the generation of a scope and the revision of a cache slot, asks a node, and then
writes the slot if both are still the same.  Whatever other handles did meanwhile, a write that
succeeds proves that none of it concerned the slot: a revision only rises within a generation, and the
reorganisations and restores that clear rows raise the generation.
-/

namespace QuaiSdk.Storage

open Result Wallet ScopeTables List

variable {W : HdCrypto} {B : Backend}

namespace ScopeTables

variable {t t' : ScopeTables} {scope : NetworkScope} {offered : List PublicAddress}
  {id : ReservationId} {slot : ReservationId × Hash32 × UInt16}

/-- What an observer reads before it asks a node. -/
def slotVersion (slot : ReservationId × Hash32 × UInt16) (t : ScopeTables) : ℕ × Option ℕ :=
  (t.generation, (t.observationCache.lookup slot).map (·.revision))

/-- A slot that was never written lies below every revision. -/
def slotFence (slot : ReservationId × Hash32 × UInt16) :
    Fence ScopeTables (Option ObservationCache) where
  epoch t := t.generation
  slot t := t.observationCache.lookup slot
  revision row := (row.map fun o => o.revision + 1).getD 0

theorem advances_insert {cache : ObservationCache} {slot' : ReservationId × Hash32 × UInt16}
    (hrevision : cache.revision = ((t.observationCache.lookup slot').map (·.revision)).getD 0 + 1) :
    (slotFence slot).Advances t
      { t with observationCache := t.observationCache.insert slot' cache } := by
  refine .inr ⟨rfl, ?_⟩
  show t.observationCache.lookup slot = (t.observationCache.insert slot' cache).lookup slot ∨
    ((t.observationCache.lookup slot).map fun o : ObservationCache => o.revision + 1).getD 0 <
      (((t.observationCache.insert slot' cache).lookup slot).map
        fun o : ObservationCache => o.revision + 1).getD 0
  rw [Table.lookup_insert_eq]
  by_cases hslot : slot = slot'
  · right
    rw [if_pos hslot, hslot, Option.map_some, Option.getD_some, hrevision]
    cases t.observationCache.lookup slot' with
    | none => exact Nat.succ_pos _
    | some => exact Nat.lt_succ_self _
  · rw [if_neg hslot]
    exact .inl rfl

theorem Commit.advances (h : Commit W scope offered t t')
    (slot : ReservationId × Hash32 × UInt16) : (slotFence slot).Advances t t' := by
  cases h with
  | rewritten | recorded | invalidated | restored => exact .inl (Nat.lt_succ_self _)
  | observed slot' cache hrevision => exact advances_insert hrevision
  | keyed t₁ only =>
    obtain ⟨addresses, cursors, rfl, -⟩ := only
    exact .inr ⟨rfl, .inl rfl⟩
  | operations | signed | replaced | released | advanced | head => exact .inr ⟨rfl, .inl rfl⟩

theorem Commits.advances (h : Commits W scope offered t t')
    (slot : ReservationId × Hash32 × UInt16) : (slotFence slot).Advances t t' :=
  h.invariant (P := (slotFence slot).Advances t)
    (fun _ _ hstep hle => hle.trans (hstep.advances slot)) (.refl t)

variable {payload : Option Bytes} {revision : ℕ} {candidate : Hash32} {n : UInt16} {C : Crypto}
  {expected : ℕ × Option ℕ}

theorem writeObservation_moves {expected : Option ℕ}
    (h : t.writeObservation id candidate n expected payload = .ok (revision, t')) :
    t'.observationCache.lookup (id, candidate, n) ≠ t.observationCache.lookup (id, candidate, n) := by
  simp only [writeObservation, eq_ok, Prod.mk.injEq] at h
  obtain ⟨-, -, -, -, -, rfl⟩ := h
  rw [Table.lookup_insert_eq, if_pos rfl]
  intro hsame
  cases hold : t.observationCache.lookup (id, candidate, n) with
  | none =>
    rw [hold] at hsame
    cases hsame
  | some =>
    rw [hold, Option.some.injEq] at hsame
    have hrevision := congrArg ObservationCache.revision hsame
    simp only [Option.map_some, Option.getD_some] at hrevision
    omega

theorem restoreScope_generation {state : ScopeState} {next : ℕ}
    (h : t.restoreScope W state = .ok (next, t')) : t'.generation = t.generation + 1 := by
  simp only [restoreScope, eq_ok, Prod.mk.injEq] at h
  obtain ⟨next, hnext, t₁, -, -, t₂, -, t₃, -, t₄, -, t₅, -, -, rfl⟩ := h
  obtain ⟨-, rfl⟩ := nextGeneration_eq_ok hnext
  rfl

def familyCandidates (C : Crypto) (scope : NetworkScope) (id : ReservationId) (t : ScopeTables) :
    Except StorageError (List Hash32) := do
  let (root, variants) ← t.family C scope id
  (root :: variants.map (·.payload)).mapM (candidateHash C)

theorem collectVariants_sequence {rows : List (ℕ × QuaiReplacement)}
    {variants out : List QuaiReplacement} (h : collectVariants rows variants = .ok out) :
    out.length = variants.length + rows.length ∧
      ∀ k, k ∈ rows.map Prod.fst ↔ variants.length ≤ k ∧ k < out.length := by
  induction rows generalizing variants with
  | nil =>
    cases h
    exact ⟨rfl, fun k => by simp⟩
  | cons row rows ih =>
    obtain ⟨sequence, variant⟩ := row
    simp only [collectVariants, ite_error_eq_ok, not_or, not_not] at h
    obtain ⟨⟨-, rfl⟩, h⟩ := h
    obtain ⟨hlength, hkeys⟩ := ih h
    rw [length_append, length_singleton] at hlength hkeys
    refine ⟨?_, fun k => ?_⟩
    · rw [hlength, length_cons]
      omega
    · rw [map_cons, mem_cons, hkeys]
      omega

theorem readVariants_keys {variants : List QuaiReplacement}
    (h : t.readVariants id = .ok variants) (k : ℕ) :
    (∃ e, t.custody.quaiReplacements.lookup (id, k) = some e) ↔ k < variants.length := by
  have hkeys := (collectVariants_sequence h).2 k
  rw [length_nil, and_iff_right (Nat.zero_le k)] at hkeys
  rw [← hkeys]
  have hsorted := (perm_insertionSort byKey
    ((t.custody.quaiReplacements.rows.filter fun r => r.1.1 = id).map fun r => (r.1.2, r.2))).map
      Prod.fst
  rw [hsorted.mem_iff, map_map]
  simp only [mem_map, mem_filter, decide_eq_true_eq, Function.comp_apply]
  constructor
  · intro ⟨e, he⟩
    exact ⟨((id, k), e), ⟨Table.mem_rows.mpr he, rfl⟩, rfl⟩
  · rintro ⟨⟨⟨id', k'⟩, e⟩, ⟨hrow, rfl⟩, rfl⟩
    exact ⟨e, Table.mem_rows.mp hrow⟩

theorem familyCandidates_keys {candidates : List Hash32}
    (h : t.familyCandidates C scope id = .ok candidates) (k : ℕ) :
    (∃ e, t.custody.quaiReplacements.lookup (id, k) = some e) ↔ k + 1 < candidates.length := by
  simp only [familyCandidates, family, eq_ok] at h
  obtain ⟨⟨root, variants⟩, ⟨stored, -, root', -, variants', hvariants, ⟨⟩, -, hpair⟩, hcandidates⟩ := h
  cases hpair
  have hlength := (forall₂_of_mapM hcandidates).length_eq
  simp only [length_cons, length_map] at hlength
  rw [readVariants_keys hvariants]
  omega

theorem compareExchangeFamily_eq_ok {candidates : List Hash32}
    (h : t.compareExchangeFamilyObservationScoped C scope id candidates expected payload =
      .ok (revision, t')) :
    ∃ first rest, candidates = first :: rest ∧ t.familyCandidates C scope id = .ok candidates ∧
      t.generation = expected.1 ∧
      t.writeObservation id first familySlot expected.2 payload = .ok (revision, t') := by
  cases candidates with
  | nil => cases h
  | cons first rest =>
    simp only [compareExchangeFamilyObservationScoped, eq_ok, not_not] at h
    obtain ⟨-, hgeneration, family, hfamily, actual, hactual, rfl, h⟩ := h
    refine ⟨first, rest, rfl, ?_, hgeneration, h⟩
    simp only [familyCandidates, bind_eq_ok]
    exact ⟨family, hfamily, hactual⟩

theorem compareExchange_eq_ok
    (h : t.compareExchangeObservationScoped C scope id candidate n expected payload =
      .ok (revision, t')) :
    t.generation = expected.1 ∧
      t.writeObservation id candidate n expected.2 payload = .ok (revision, t') := by
  simp only [compareExchangeObservationScoped, eq_ok, not_not] at h
  obtain ⟨-, hgeneration, ⟨⟩, -, h⟩ := h
  exact ⟨hgeneration, h⟩

theorem slotVersion_of_write (hgeneration : t.generation = expected.1)
    (h : t.writeObservation id candidate n expected.2 payload = .ok (revision, t')) :
    t.slotVersion (id, candidate, n) = expected := by
  simp only [writeObservation, ite_error_eq_ok, not_not] at h
  rw [slotVersion, hgeneration, h.1]

end ScopeTables

namespace Call

variable {t t' : ScopeTables} {scope : NetworkScope} {slot : ReservationId × Hash32 × UInt16}

def cacheSlot : Call B → Option (ReservationId × Hash32 × UInt16)
  | compareExchangeObservation id candidate n _ _ => some (id, candidate, n)
  | compareExchangeFamilyObservation id candidates _ _ =>
    candidates.head?.map fun first => (id, first, familySlot)
  | _ => none

def reverts : Call B → Bool
  | invalidateReorgFrom _ _ => true
  | commitHeadReplay _ _ _ first => first.isSome
  | _ => false

theorem exec_moves {call : Call B} (h : call.exec scope t = .ok t')
    (hslot : call.cacheSlot = some slot) :
    t'.observationCache.lookup slot ≠ t.observationCache.lookup slot := by
  cases call with
  | compareExchangeObservation =>
    cases hslot
    obtain ⟨⟨revision, t₁⟩, hexchange, rfl⟩ := map_eq_ok.mp h
    exact writeObservation_moves (compareExchange_eq_ok hexchange).2
  | compareExchangeFamilyObservation =>
    obtain ⟨⟨revision, t₁⟩, hexchange, rfl⟩ := map_eq_ok.mp h
    obtain ⟨first, rest, rfl, -, -, hwrite⟩ := compareExchangeFamily_eq_ok hexchange
    cases hslot
    exact writeObservation_moves hwrite
  | _ => cases hslot

theorem exec_reverts {call : Call B} (h : call.exec scope t = .ok t') (hreverts : call.reverts) :
    t.generation < t'.generation := by
  have hfirst : ∃ first, call.removes = some first := by
    cases call with
    | invalidateReorgFrom expected first => exact ⟨first, rfl⟩
    | commitHeadReplay =>
      exact Option.isSome_iff_exists.mp hreverts
    | _ => cases hreverts
  obtain ⟨first, hfirst⟩ := hfirst
  rw [(exec_rolledBack h hfirst).rest]
  exact Nat.lt_succ_self _

end Call

namespace Database

variable {db db' : Database} {scope scope' : NetworkScope}

theorem restoreScopes_generation {W : HdCrypto} {states : List ScopeState}
    {st st' : List (NetworkScope × ℕ) × Database} (h : states.foldlM (restoreScope W) st = .ok st') :
    (st.2.tables scope).generation ≤ (st'.2.tables scope).generation ∧
      (scope ∈ states.map ScopeState.scope →
        (st.2.tables scope).generation < (st'.2.tables scope).generation) := by
  induction states generalizing st with
  | nil =>
    cases h
    exact ⟨le_rfl, nofun⟩
  | cons state rest ih =>
    rw [foldlM_cons, bind_eq_ok] at h
    obtain ⟨st₁, hfirst, hrest⟩ := h
    obtain ⟨hle, hlt⟩ := ih hrest
    simp only [restoreScope, eq_ok] at hfirst
    obtain ⟨⟨next, t⟩, hscope, rfl⟩ := hfirst
    have hown := restoreScope_generation hscope
    rw [tables_insert] at hle hlt
    by_cases hs : scope = state.scope
    · subst hs
      rw [if_pos rfl] at hle
      dsimp only at hown hle ⊢
      omega
    · rw [if_neg hs] at hle hlt
      exact ⟨hle, fun hmem => hlt ((mem_cons.mp hmem).resolve_left hs)⟩

theorem restore_generation {backup : WalletBackup B} {generations : List (NetworkScope × ℕ)}
    (h : db.restore scope backup = .ok (generations, db'))
    (hmem : scope' ∈ backup.state.scopes.map ScopeState.scope) :
    (db.tables scope').generation < (db'.tables scope').generation := by
  simp only [restore, eq_ok] at h
  obtain ⟨owners, -, h⟩ := h
  simp only [restorePublicState, eq_ok] at h
  obtain ⟨-, ⟨generations₁, db₁⟩, hscopes, hchannels⟩ := h
  have hchannels : db₁.Pays B.toHdCrypto db' := restoreChannels_merges hchannels
  exact lt_of_lt_of_le ((restoreScopes_generation hscopes).2 hmem) (hchannels scope').2.generation

end Database

namespace Store

variable {scope : NetworkScope} {slot : ReservationId × Hash32 × UInt16}

def Writes (s : Store B) (scope : NetworkScope) (slot : ReservationId × Hash32 × UInt16) :
    StoreAction B → Prop
  | .wallet (.call scope' call) =>
    scope' = scope ∧ call.cacheSlot = some slot ∧ ∃ t, call.exec scope (s.tables scope) = .ok t
  | _ => False

def Reverts (s : Store B) (scope : NetworkScope) : StoreAction B → Prop
  | .wallet (.call scope' call) =>
    scope' = scope ∧ call.reverts ∧ ∃ t, call.exec scope (s.tables scope) = .ok t
  | _ => False

def Restores (s : Store B) (scope : NetworkScope) : StoreAction B → Prop
  | .wallet (.restore scope' backup) =>
    scope ∈ backup.state.scopes.map ScopeState.scope ∧ ∃ r, s.db.restore scope' backup = .ok r
  | _ => False

/-- An action has no part in a cache slot and does not reset its scope. -/
structure Undisturbed (s : Store B) (scope : NetworkScope) (slot : ReservationId × Hash32 × UInt16)
    (action : StoreAction B) : Prop where
  -- also excludes tombstones by a reorganisation or a new replacement
  row : ((s.next action).tables scope).observationCache.lookup slot =
    (s.tables scope).observationCache.lookup slot
  unwritten : ¬s.Writes scope slot action
  canonical : ¬s.Reverts scope action
  unrestored : ¬s.Restores scope action

theorem tables_call (s : Store B) {call : Call B} {t : ScopeTables}
    (h : call.exec scope (s.tables scope) = .ok t) :
    (s.next (.wallet (.call scope call))).tables scope = t := by
  show (s.wallet.commit scope (call.exec scope (s.tables scope))).db.tables scope = t
  rw [h]
  show (s.wallet.write scope t).db.tables scope = t
  rw [System.tables_write, if_pos rfl]

variable {action : StoreAction B} {before early late : List (StoreAction B)}

theorem undisturbed_of_unmoved {s : Store B}
    (h : (slotFence slot).Unmoved (s.tables scope) ((s.next action).tables scope)) :
    s.Undisturbed scope slot action where
  row := h.slot.symm
  unwritten hwrites := by
    unfold Writes at hwrites
    split at hwrites
    · obtain ⟨rfl, hslot, t, ht⟩ := hwrites
      apply Call.exec_moves ht hslot
      rw [← s.tables_call ht]
      exact h.slot.symm
    · exact hwrites
  canonical hreverts := by
    unfold Reverts at hreverts
    split at hreverts
    · obtain ⟨rfl, hreverts, t, ht⟩ := hreverts
      have hlt := Call.exec_reverts ht hreverts
      rw [← s.tables_call ht] at hlt
      exact hlt.ne h.epoch
    · exact hreverts
  unrestored hrestores := by
    unfold Restores at hrestores
    split at hrestores
    · rename_i scope' backup
      obtain ⟨hmem, ⟨generations, db⟩, hrestore⟩ := hrestores
      have hlt := Database.restore_generation hrestore hmem
      have hnext : (s.next (.wallet (.restore scope' backup))).db = db := by
        show (s.wallet.next (.restore scope' backup)).db = db
        rw [System.next, hrestore]
      have hepoch := h.epoch
      rw [tables, tables, hnext] at hepoch
      exact hlt.ne hepoch
    · exact hrestores

theorem next_keeps (s : Store B) (action : StoreAction B) (scope : NetworkScope) :
    (s.tables scope).custody.Keeps ((s.next action).tables scope).custody := by
  by_cases h : ∃ a, action = .wallet a
  · obtain ⟨a, rfl⟩ := h
    exact ((System.next_effect s.wallet a).moves scope).custody
  · rw [not_exists] at h
    exact ((s.next_pays h).1 scope).1.custody

theorem run_keeps (s : Store B) (actions : List (StoreAction B)) (scope : NetworkScope) :
    (s.tables scope).custody.Keeps ((Run.run next s actions).tables scope).custody :=
  (Run.run_related (I := fun _ => True)
    (R := fun s s' : Store B => (s.tables scope).custody.Keeps (s'.tables scope).custody)
    (fun _ _ => .refl _) (fun _ _ _ h h' => h.trans h') (fun s a _ => ⟨trivial, s.next_keeps a scope⟩)
    trivial actions).2

/-- A slot with the same version before and after a run was left alone by each of its actions. -/
theorem undisturbed_between
    (h : ((after (before ++ (early ++ action :: late))).tables scope).slotVersion slot =
      ((after before).tables scope).slotVersion slot) :
    (after (before ++ early)).Undisturbed scope slot action := by
  rw [after_append, slotVersion, slotVersion, Prod.mk.injEq] at h
  rw [after_append]
  apply undisturbed_of_unmoved
  apply Fence.unmoved_step (v := fun s : Store B => s.tables scope)
    (fun s a => (s.next_commits a scope).advances slot) early action late h.1
  have hrevision := congrArg (fun n : Option ℕ => (n.map fun n => n + 1).getD 0) h.2
  simp only [Option.map_map] at hrevision
  exact hrevision

/-- Edges are only added, so a family with the same number of candidates gained none on the way. -/
theorem no_candidate_added {id : ReservationId}
    {candidates : List Hash32}
    (hbefore : ((after before).tables scope).familyCandidates B.toCrypto scope id = .ok candidates)
    (hafter : ((after (before ++ (early ++ action :: late))).tables scope).familyCandidates
      B.toCrypto scope id = .ok candidates)
    (k : ℕ) :
    ((after (before ++ early ++ [action])).tables scope).custody.quaiReplacements.lookup (id, k) =
      ((after (before ++ early)).tables scope).custody.quaiReplacements.lookup (id, k) := by
  have hkeys := familyCandidates_keys hbefore k
  have hkeys' := familyCandidates_keys hafter k
  have hfirst := (run_keeps (after before) early scope).extends_.replacements
  have hmiddle := ((after (before ++ early)).next_keeps action scope).extends_.replacements
  have hlast := (run_keeps ((after (before ++ early)).next action) late scope).extends_.replacements
  have hend : after (before ++ (early ++ action :: late)) =
      Run.run next ((after (before ++ early)).next action) late := by
    rw [← append_assoc, after_append, Run.run_cons]
  rw [hend] at hkeys'
  rw [← after_append] at hfirst
  rw [after_concat]
  cases hnew : (((after (before ++ early)).next action).tables scope).custody.quaiReplacements.lookup
      (id, k) with
  | none =>
    cases hold : ((after (before ++ early)).tables scope).custody.quaiReplacements.lookup (id, k) with
    | none => rfl
    | some e =>
      rw [hmiddle _ e hold] at hnew
      cases hnew
  | some e =>
    -- an edge of the middle state is there at the end, so its number was taken at the start
    obtain ⟨e', he'⟩ := hkeys.mpr (hkeys'.mp ⟨e, hlast _ e hnew⟩)
    have hold := hfirst _ e' he'
    rw [hmiddle _ e' hold, Option.some.injEq] at hnew
    rw [hold, hnew]

/-- An exchange that succeeds with a version, and for a family the candidates, that an earlier state
stored: no action since then touched the slot, reverted the scope's blocks or restored it, and for a
family none added a replacement. -/
theorem observations_fenced (before between : List (StoreAction B)) (scope : NetworkScope)
    (id : ReservationId) (expected : ℕ × Option ℕ) (payload : Option Bytes) :
    (∀ candidate slot result,
      ((after before).tables scope).slotVersion (id, candidate, slot) = expected →
      ((after (before ++ between)).tables scope).compareExchangeObservationScoped B.toCrypto scope id
        candidate slot expected payload = .ok result →
      ∀ early action late, between = early ++ action :: late →
        (after (before ++ early)).Undisturbed scope (id, candidate, slot) action) ∧
    ∀ first rest result,
      ((after before).tables scope).slotVersion (id, first, familySlot) = expected →
      ((after before).tables scope).familyCandidates B.toCrypto scope id = .ok (first :: rest) →
      ((after (before ++ between)).tables scope).compareExchangeFamilyObservationScoped B.toCrypto
        scope id (first :: rest) expected payload = .ok result →
      ∀ early action late, between = early ++ action :: late →
        (after (before ++ early)).Undisturbed scope (id, first, familySlot) action ∧
        ∀ k, ((after (before ++ early ++ [action])).tables scope).custody.quaiReplacements.lookup
            (id, k) =
          ((after (before ++ early)).tables scope).custody.quaiReplacements.lookup (id, k) := by
  constructor
  · intro candidate slot result hversion hexchange early action late hsplit
    obtain ⟨hgeneration, hwrite⟩ := compareExchange_eq_ok hexchange
    have hversion' := slotVersion_of_write hgeneration hwrite
    rw [hsplit] at hversion'
    exact undisturbed_between (hversion'.trans hversion.symm)
  · intro first rest result hversion hcandidates hexchange early action late hsplit
    obtain ⟨first', rest', heq, hcandidates', hgeneration, hwrite⟩ :=
      compareExchangeFamily_eq_ok hexchange
    cases heq
    have hversion' := slotVersion_of_write hgeneration hwrite
    rw [hsplit] at hversion' hcandidates'
    exact ⟨undisturbed_between (hversion'.trans hversion.symm),
      no_candidate_added hcandidates hcandidates'⟩

/-! A transfer is signed, and two observers write different slots of it. -/

def sentHash : Hash32 :=
  Hash32.ofNat 0x004c004826e07da8065f8cda2abea5567a1a6416892214bb0e4484180f3ec148

def sentCall (call : Call sampleWallet) : StoreAction sampleWallet := .wallet (.call sampleScope call)

def sentActions : List (StoreAction sampleWallet) :=
  [sentCall (.importMetadata 0 [⟨sampleSender.address, sampleKeyBytes, .importedPublic⟩]),
    sentCall (.reserveNonce sampleId sampleSender 3),
    sentCall (.commitSignedQuai sampleId sampleSigned)]

def otherObserver : StoreAction sampleWallet :=
  sentCall (.compareExchangeObservation sampleId sentHash 1 (1, none) (some [1]))

theorem observations_fenced_transfer :
    (after sentActions).Undisturbed sampleScope (sampleId, sentHash, 0) otherObserver ∧
      (after sentActions).Undisturbed sampleScope (sampleId, sentHash, familySlot)
        otherObserver := by
  obtain ⟨hslot, hfamily⟩ :=
    observations_fenced sentActions [otherObserver] sampleScope sampleId (1, none) (some [2])
  obtain ⟨written, hwritten⟩ := exists_of_isOk
    (show (((after (sentActions ++ [otherObserver])).tables sampleScope
      ).compareExchangeObservationScoped sampleWallet.toCrypto sampleScope sampleId sentHash 0 (1, none)
        (some [2])).isOk = true by decide +kernel)
  obtain ⟨summary, hsummary⟩ := exists_of_isOk
    (show (((after (sentActions ++ [otherObserver])).tables sampleScope
      ).compareExchangeFamilyObservationScoped sampleWallet.toCrypto sampleScope sampleId [sentHash]
        (1, none) (some [2])).isOk = true by decide +kernel)
  refine ⟨hslot sentHash 0 written (by decide +kernel) hwritten [] otherObserver [] rfl, ?_⟩
  exact (hfamily sentHash [] summary (by decide +kernel) (by decide +kernel) hsummary [] otherObserver
    [] rfl).1

end Store

end QuaiSdk.Storage
