import QuaiSdk.Lib.RangeAllocator
import QuaiSdk.Storage.CustodySafe

/-!
# Burned index ranges

Allocations under any interleaving.  Every range that is under way or was returned is held in the
sense of `RangeAllocator`, with the derivation cursors of all scopes as its cursors.  A give-back
needs more than that: it lowers a cursor, so no child recorded meanwhile may lie above it.  The
generation test rules that out, because every transaction that records an address changes it.
-/

namespace QuaiSdk.Storage

open Result Wallet RangeAllocator List

abbrev BranchKey := NetworkScope × Branch

variable {W : HdCrypto} {B : Backend}

namespace PendingAllocation

def held (scope : NetworkScope) (p : PendingAllocation W) : Held BranchKey :=
  ⟨(scope, p.branch), p.start, p.limit⟩

/-- While the generation of the reservation lasts, no child at or above its start is recorded. -/
def Waiting (p : PendingAllocation W) (t : ScopeTables) : Prop :=
  p.reservedGeneration ≤ t.generation ∧
    (t.generation = p.reservedGeneration → ∀ index, t.Recorded p.branch index → index < p.start)

theorem Waiting.grows {p : PendingAllocation W} {t t' : ScopeTables} {origins : List KeyOrigin}
    (h : p.Waiting t) (hg : t.Grows origins t') : p.Waiting t' := by
  have hle := hg.generation
  refine ⟨h.1.trans hle, fun hsame index hr => ?_⟩
  -- no generation passed, so no address was recorded
  have hgen : t'.generation = t.generation := by
    have := h.1
    omega
  rw [ScopeTables.Recorded, hg.unchanged hgen] at hr
  exact h.2 (hgen.symm.trans hsame) index hr

end PendingAllocation

def Issued.held (i : Issued) : Held BranchKey :=
  ⟨(i.scope, i.branch), i.allocated.burned.start, i.allocated.burned.stop⟩

namespace System

variable {s s' : System B} {origins : NetworkScope → List KeyOrigin}

def cursor (s : System B) (key : BranchKey) : Option ℕ := (s.db.tables key.1).cursor key.2

def held (s : System B) : List (Held BranchKey) :=
  s.pending.map (fun q => q.2.held q.1) ++ s.issued.map Issued.held

structure Burning (s : System B) : Prop where
  covered : ∀ scope, (s.db.tables scope).Covered
  allocated : Allocated s.cursor s.held
  waiting : ∀ q ∈ s.pending, q.2.Waiting (s.db.tables q.1)

theorem burning_empty : (empty : System B).Burning where
  covered scope b next index hnext := by cases hnext
  allocated := .nil _
  waiting := by simp [empty]

theorem cursor_rise (h : ∀ scope, (s.db.tables scope).Grows (origins scope) (s'.db.tables scope)) :
    ∀ key n, s.cursor key = some n → ∃ n', s'.cursor key = some n' ∧ n ≤ n' :=
  fun key n hn => (h key.1).cursors key.2 n hn

theorem Burning.grow (hs : s.Burning)
    (h : ∀ scope, (s.db.tables scope).Grows (origins scope) (s'.db.tables scope))
    (hpending : s'.pending = s.pending) (hissued : s'.issued = s.issued) : s'.Burning where
  covered scope := (h scope).covered (hs.covered scope)
  allocated := by
    rw [held, hpending, hissued]
    exact hs.allocated.rise (cursor_rise h)
  waiting q hq := by
    rw [hpending] at hq
    exact (hs.waiting q hq).grows (h q.1)

variable {scope : NetworkScope} {t : ScopeTables} {p : PendingAllocation B.toHdCrypto}
  {allocated : AllocatedAddress} {index k : ℕ}

theorem grows_write {origins : List KeyOrigin} (h : (s.db.tables scope).Grows origins t)
    (scope' : NetworkScope) :
    (s.db.tables scope').Grows (if scope' = scope then origins else [])
      ((s.write scope t).db.tables scope') := by
  rw [tables_write]
  split
  · rename_i heq
    exact heq ▸ h
  · exact .refl _ _

theorem held_perm {q : NetworkScope × PendingAllocation B.toHdCrypto} (hq : s.pending[k]? = some q) :
    s.held.Perm (q.2.held q.1 ::
      ((s.pending.eraseIdx k).map (fun q => q.2.held q.1) ++ s.issued.map Issued.held)) := by
  obtain ⟨hk, rfl⟩ := List.getElem?_eq_some_iff.mp hq
  have hperm := (List.getElem_cons_eraseIdx_perm hk).symm.map
    fun q : NetworkScope × PendingAllocation B.toHdCrypto => q.2.held q.1
  exact hperm.append_right _

theorem Burning.abandon (hs : s.Burning) (k : ℕ) :
    Burning { s with pending := s.pending.eraseIdx k } := by
  cases hq : s.pending[k]? with
  | none =>
    rw [eraseIdx_of_length_le (getElem?_eq_none_iff.mp hq)]
    exact hs
  | some q =>
    exact ⟨hs.covered, (hs.allocated.perm (held_perm hq)).tail,
      fun q hq => hs.waiting q (mem_of_mem_eraseIdx hq)⟩

theorem Burning.reserve (hs : s.Burning) (h : ScopeTables.Burned p (s.db.tables scope) t) :
    Burning { s.write scope t with pending := s.pending ++ [(scope, p)] } := by
  have hgrows := grows_write (s := s) h.grows
  have hgrown : (s.write scope t).Burning := hs.grow hgrows rfl rfl
  refine ⟨hgrown.covered, ?_, ?_⟩
  · have hcursor : (s.write scope t).cursor (scope, p.branch) = some p.limit := by
      rw [cursor, tables_write, if_pos rfl, h.cursor]
    have htaken : Allocated (s.write scope t).cursor (p.held scope :: s.held) :=
      hs.allocated.take h.nonempty h.fresh.cursor (cursor_rise hgrows) ⟨p.limit, hcursor, le_refl _⟩
    apply htaken.perm
    simp only [held, map_append, map_singleton, append_assoc]
    exact perm_middle.symm
  · intro q hq
    rcases mem_append.mp hq with hq | hq
    · exact hgrown.waiting q hq
    · rw [mem_singleton] at hq
      subst hq
      rw [tables_write, if_pos rfl]
      refine ⟨(h.reserved.trans h.generation.symm).le, fun _ index hr => ?_⟩
      rw [ScopeTables.Recorded, h.addresses] at hr
      exact h.fresh.recorded (hs.covered scope) index hr

theorem held_issue (s : System B) (scope : NetworkScope) (b : Branch) (allocated : AllocatedAddress)
    (t : ScopeTables) :
    (s.issue scope b (.ok (allocated, t))).held.Perm
      ((⟨scope, b, allocated⟩ : Issued).held :: s.held) := by
  simp only [issue, held, map_append, map_singleton, ← append_assoc]
  exact perm_append_singleton _ _

theorem Burning.compact (hs : s.Burning) {b : Branch}
    (h : ScopeTables.Compacted b (s.db.tables scope) allocated t index) :
    Burning (s.issue scope b (.ok (allocated, t))) := by
  have hgrows := grows_write (s := s) h.grows
  have hgrown : (s.write scope t).Burning := hs.grow hgrows rfl rfl
  refine ⟨hgrown.covered, ?_, hgrown.waiting⟩
  have hlt : allocated.burned.start < allocated.burned.stop := by
    rw [h.stop]
    exact Nat.lt_succ_of_le h.low
  have hcursor : ∃ n, (s.write scope t).cursor (scope, b) = some n ∧ allocated.burned.stop ≤ n := by
    rw [cursor, tables_write, if_pos rfl, h.stop]
    exact h.cursor
  have htaken : Allocated (s.write scope t).cursor ((⟨scope, b, allocated⟩ : Issued).held :: s.held) :=
    hs.allocated.take hlt h.fresh.cursor (cursor_rise hgrows) hcursor
  exact htaken.perm (held_issue s scope b allocated t).symm

theorem Burning.complete_allocated (hs : s.Burning) (hp : s.pending[k]? = some (scope, p))
    (hlow : p.start ≤ index) (hhigh : index < p.limit)
    (h : ScopeTables.Completed scope p (s.db.tables scope) allocated t index) :
    Allocated (s.write scope t).cursor ((⟨scope, p.branch, allocated⟩ : Issued).held ::
      ((s.pending.eraseIdx k).map (fun q => q.2.held q.1) ++ s.issued.map Issued.held)) := by
  have hheld := hs.allocated.perm (held_perm hp)
  obtain ⟨hstop, hgrows⟩ | ⟨hstop, hcursor, -, xpub, hgrows⟩ := h.tail
  · apply Allocated.rise _ (cursor_rise (grows_write hgrows))
    refine hheld.shrink rfl h.start ?_ hstop.le
    change allocated.burned.start < allocated.burned.stop
    rw [h.start, hstop]
    omega
  · -- first the lowered cursor alone, then the recorded child
    have hback : Allocated (s.write scope ((s.db.tables scope).setCursor p.branch xpub
        (index + 1))).cursor ((⟨scope, p.branch, allocated⟩ : Issued).held ::
          ((s.pending.eraseIdx k).map (fun q => q.2.held q.1) ++ s.issued.map Issued.held)) := by
      refine hheld.giveBack hcursor rfl h.start ?_ ?_ ?_ ?_
      · change allocated.burned.start < allocated.burned.stop
        rw [h.start, hstop]
        omega
      · change allocated.burned.stop ≤ p.limit
        omega
      · change (s.write scope _).cursor (scope, p.branch) = some allocated.burned.stop
        rw [cursor, tables_write, if_pos rfl, ScopeTables.cursor_setCursor, if_pos rfl, hstop]
      · rintro ⟨scope', b⟩ hne
        rw [cursor, cursor, tables_write]
        by_cases hscope : scope' = scope
        · subst hscope
          have hb : b ≠ p.branch := fun hb => hne (by rw [hb]; rfl)
          rw [if_pos rfl, ScopeTables.cursor_setCursor, if_neg hb]
        · rw [if_neg hscope]
    apply hback.rise
    rintro ⟨scope', b⟩ n hn
    rw [cursor, tables_write] at hn ⊢
    by_cases hscope : scope' = scope
    · rw [if_pos hscope] at hn ⊢
      exact hgrows.cursors b n hn
    · rw [if_neg hscope] at hn ⊢
      exact ⟨n, hn, le_refl n⟩

theorem Burning.complete_covered (hs : s.Burning) (hp : (scope, p) ∈ s.pending)
    (hlow : p.start ≤ index)
    (h : ScopeTables.Completed scope p (s.db.tables scope) allocated t index) : t.Covered := by
  obtain ⟨-, hgrows⟩ | ⟨-, -, hgeneration, xpub, hgrows⟩ := h.tail
  · exact hgrows.covered (hs.covered scope)
  · -- the generation is the reservation's: nothing was recorded since
    apply hgrows.covered
    apply (hs.covered scope).setCursor
    intro i hr
    have hlt := (hs.waiting (scope, p) hp).2 hgeneration i hr
    change i < p.start at hlt
    omega

theorem Burning.complete (hs : s.Burning) (hp : s.pending[k]? = some (scope, p))
    (h : ScopeTables.Completed scope p (s.db.tables scope) allocated t index) :
    Burning (issue { s with pending := s.pending.eraseIdx k } scope p.branch
      (.ok (allocated, t))) := by
  have hmem : (scope, p) ∈ s.pending := mem_of_getElem? hp
  have hnonempty : p.start < p.limit := (hs.allocated.perm (held_perm hp)).nonempty _ mem_cons_self
  obtain ⟨found, polls, hsearch, rfl⟩ := h.found
  obtain ⟨hlow, hhigh⟩ := ScopeTables.searchRange_spec hsearch
  have hallocated := hs.complete_allocated hp hlow (hhigh hnonempty.le) h
  have hperm := held_issue { s with pending := s.pending.eraseIdx k } scope p.branch allocated t
  refine ⟨fun scope' => ?_, hallocated.perm hperm.symm, ?_⟩
  · change ((s.write scope t).db.tables scope').Covered
    rw [tables_write]
    split
    · exact hs.complete_covered hmem hlow h
    · exact hs.covered scope'
  · intro q hq
    have hold := hs.waiting q (mem_of_mem_eraseIdx hq)
    change q.2.Waiting ((s.write scope t).db.tables q.1)
    rw [tables_write]
    split
    · rename_i heq
      -- a generation has passed
      rw [heq] at hold
      have hle := hold.1
      have hnext := h.generation
      exact ⟨by omega, fun hsame => by omega⟩
    · exact hold

theorem Effect.burning {action : Action B} (h : Effect s action s') (hs : s.Burning) :
    s'.Burning := by
  cases h with
  | grown db merges => exact hs.grow (fun scope => (merges scope).2) rfl rfl
  | reserved scope p t burned => exact hs.reserve burned
  | completed scope p t k allocated index pending completed => exact hs.complete pending completed
  | abandoned k => exact hs.abandon k
  | compacted scope b t allocated index compacted => exact hs.compact compacted

theorem burning_after (actions : List (Action B)) : (after actions).Burning :=
  Run.run_invariant (G := fun _ _ => True) (fun s a hs _ => (next_effect s a).burning hs) burning_empty
    actions fun _ _ _ _ => trivial

end System

def IndexRange.Has (r : IndexRange) (n : ℕ) : Prop := r.start ≤ n ∧ n < r.stop

/-- Ranges returned on one branch never share an index, and no recorded child of a branch with a
cursor is at or above it. -/
theorem System.index_burning (actions : List (Action B)) :
    ((after actions).issued.Pairwise fun i j => i.scope = j.scope → i.branch = j.branch →
      ∀ n, ¬(i.allocated.burned.Has n ∧ j.allocated.burned.Has n)) ∧
    ∀ scope b cursor a row index,
      ((after actions).db.tables scope).derivationCursors.lookup b = some cursor →
      ((after actions).db.tables scope).addresses.lookup a = some row →
      row.origin = .bip44 b.coin b.account b.change index → index < cursor.nextIndex := by
  have hs := burning_after actions
  constructor
  · have hissued := (pairwise_append.mp hs.allocated.apart).2.1
    rw [pairwise_map] at hissued
    refine hissued.imp fun {i j} hapart hscope hbranch n hn => ?_
    obtain ⟨⟨hlow, hhigh⟩, hlow', hhigh'⟩ := hn
    rcases hapart (Prod.ext hscope hbranch) with hbefore | hafter
    · change i.allocated.burned.stop ≤ j.allocated.burned.start at hbefore
      omega
    · change j.allocated.burned.stop ≤ i.allocated.burned.start at hafter
      omega
  · intro scope b cursor a row index hcursor hrow horigin
    have hnext : ((after actions).db.tables scope).cursor b = some cursor.nextIndex := by
      rw [ScopeTables.cursor, hcursor]
      rfl
    exact hs.covered scope b cursor.nextIndex index hnext ⟨a, row, hrow, horigin⟩

end QuaiSdk.Storage
