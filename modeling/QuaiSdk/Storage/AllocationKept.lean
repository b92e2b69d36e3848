import QuaiSdk.Storage.Commits

/-!
# What an allocation does

The range that an allocation takes starts at or above the cursor and above every recorded child of
its branch.  Both forms end by recording one child of that range.
-/

namespace QuaiSdk.Storage

open Result Wallet

namespace ScopeTables

variable {W : HdCrypto} {t t' : ScopeTables} {account : AccountPublic W} {change : Bool}
  {cancelled : ℕ → Bool}

variable {scope : NetworkScope} {polls polls' maxAttempts : ℕ} {allocated : AllocatedAddress}

theorem scanExposed_spec {bound : Option String} {rows : List (Address × AddressRow)}
    {start start' : ℕ}
    (h : scanExposed account change bound cancelled rows start polls = .ok (start', polls')) :
    start ≤ start' ∧ ∀ row ∈ rows, ∀ index,
      row.2.origin = (branchOf account change).origin index → index < start' := by
  induction rows generalizing start polls with
  | nil =>
    cases h
    exact ⟨le_refl _, by simp⟩
  | cons first rest ih =>
    rw [scanExposed] at h
    split at h
    · rename_i himported
      obtain ⟨hle, hrest⟩ := ih h
      refine ⟨hle, List.forall_mem_cons.mpr ⟨fun index horigin => ?_, hrest⟩⟩
      rw [himported] at horigin
      cases horigin
    · rename_i coin owner originChange i hbip44
      split at h
      · simp only [eq_ok] at h
        obtain ⟨-, ⟨⟩, -, h⟩ := h
        obtain ⟨hle, hrest⟩ := ih h
        have hstart : start ≤ if originChange = change then max start (i + 1) else start := by
          split
          · exact le_max_left _ _
          · exact le_refl _
        refine ⟨hstart.trans hle, List.forall_mem_cons.mpr ⟨fun index horigin => ?_, hrest⟩⟩
        rw [hbip44] at horigin
        obtain ⟨-, -, hchange, rfl⟩ := KeyOrigin.bip44.inj horigin
        have hbranch : originChange = change := hchange
        rw [if_pos hbranch] at hle
        omega
      · rename_i hother
        obtain ⟨hle, hrest⟩ := ih h
        refine ⟨hle, List.forall_mem_cons.mpr ⟨fun index horigin => ?_, hrest⟩⟩
        rw [hbip44] at horigin
        obtain ⟨hcoin, howner, -, -⟩ := KeyOrigin.bip44.inj horigin
        exact absurd ⟨hcoin, howner⟩ hother

/-- A range that no cursor and no recorded child of the branch reaches into. -/
structure FreshRange (t : ScopeTables) (b : Branch) (start : ℕ) : Prop where
  cursor : ∀ n, t.cursor b = some n → n ≤ start
  recorded : t.Covered → ∀ index, t.Recorded b index → index < start

theorem allocationStart_fresh {start : ℕ}
    (h : t.allocationStart account change cancelled polls = .ok (start, polls')) :
    t.FreshRange (branchOf account change) start := by
  simp only [allocationStart, ite_error_eq_ok] at h
  obtain ⟨-, h⟩ := h
  split at h
  · rename_i c hc
    simp only [eq_ok, Prod.mk.injEq] at h
    obtain ⟨-, rfl, -⟩ := h
    have hcursor : t.cursor (branchOf account change) = some c.nextIndex := by
      rw [ScopeTables.cursor, hc]
      rfl
    refine ⟨fun n hn => ?_, fun hcovered index hr => hcovered _ _ index hcursor hr⟩
    rw [hcursor] at hn
    exact (Option.some.inj hn).ge
  · rename_i hnone
    obtain ⟨-, hscan⟩ := scanExposed_spec h
    refine ⟨fun n hn => ?_, fun _ index hr => ?_⟩
    · rw [ScopeTables.cursor, hnone] at hn
      cases hn
    · obtain ⟨a, row, hrow, horigin⟩ := hr
      exact hscan (a, row) (Table.mem_rows.mpr hrow) index horigin

theorem allocationRange_spec {range : IndexRange}
    (h : t.allocationRange account change maxAttempts cancelled = .ok (range, polls)) :
    range.start < range.stop ∧ t.FreshRange (branchOf account change) range.start := by
  simp only [allocationRange, eq_ok, Prod.mk.injEq] at h
  obtain ⟨hattempts, -, ⟨start, polls₁⟩, hstart, -, rfl, -⟩ := h
  refine ⟨?_, allocationStart_fresh hstart⟩
  change start < start + maxAttempts
  omega

theorem searchRange_spec {range : IndexRange} {found : SearchResult}
    (h : searchRange scope account change range cancelled polls = .ok (found, polls')) :
    range.start ≤ found.address.index ∧
      (range.start ≤ range.stop → found.address.index < range.stop) := by
  rw [searchRange, mapError_eq_ok] at h
  obtain ⟨hlow, hhigh, -⟩ := AccountPublic.search_spec h
  dsimp only at hlow hhigh
  exact ⟨hlow, fun hle => by omega⟩

structure Finished (account : AccountPublic W) (change : Bool) (index : ℕ) (burned : IndexRange)
    (t : ScopeTables) (allocated : AllocatedAddress) (t' : ScopeTables) : Prop where
  burned : allocated.burned = burned
  origin : allocated.address.origin = (branchOf account change).origin index
  grows : t.Grows [(branchOf account change).origin index] t'
  moves : ∀ W scope offered, Moves W scope offered t t'
  -- the address was new, or its row was there already and identical
  row : t.addresses.lookup allocated.address.address = none ∨
    t.Recorded (branchOf account change) index
  generation : t'.generation = t.generation + 1

theorem insertAddress_row {a : PublicAddress} {b : Branch} {index : ℕ}
    (horigin : a.origin = b.origin index) (h : t.insertAddress W scope a = .ok t') :
    t.addresses.lookup a.address = none ∨ t.Recorded b index := by
  simp only [insertAddress, bind_eq_ok] at h
  obtain ⟨⟨⟩, -, t₁, hrecord, -⟩ := h
  obtain ⟨hrow, -⟩ | ⟨hnew, -⟩ := recordAddress_eq_ok hrecord
  · exact .inr ⟨a.address, _, hrow, horigin⟩
  · exact .inl hnew

theorem finishAllocation_spec {index : ℕ} {burned : IndexRange} {stop : Bool}
    (h : t.finishAllocation scope account change index burned stop = .ok (allocated, t')) :
    Finished account change index burned t allocated t' := by
  simp only [finishAllocation, eq_ok, Prod.mk.injEq] at h
  obtain ⟨-, address, hderive, next, hnext, -, t₁, hinsert, rfl, rfl⟩ := h
  obtain ⟨-, rfl⟩ := nextGeneration_eq_ok hnext
  have horigin := PublicAddress.derive_origin hderive
  have hrecords := insertAddress_records hinsert
  have hchild : ∀ e, e = address → e.origin ∈ [(branchOf account change).origin index] :=
    fun e he => List.mem_singleton.mpr (he ▸ horigin)
  exact ⟨rfl, horigin, hrecords.cleared hchild (insertAddress_covered hinsert),
    fun _ _ _ => hrecords.moves, insertAddress_row horigin hinsert, rfl⟩

/-- The first transaction of the ordinary form: every address stays, the cursor is past the range. -/
structure Burned (p : PendingAllocation W) (t t' : ScopeTables) : Prop where
  nonempty : p.start < p.limit
  fresh : t.FreshRange p.branch p.start
  reserved : p.reservedGeneration = t.generation
  cursor : t'.cursor p.branch = some p.limit
  grows : t.Grows [] t'
  moves : ∀ W scope offered, Moves W scope offered t t'
  addresses : t'.addresses = t.addresses
  generation : t'.generation = t.generation

theorem reserveRange_spec {p : PendingAllocation W}
    (h : t.reserveRange account change maxAttempts cancelled = .ok (p, t')) : Burned p t t' := by
  simp only [reserveRange, eq_ok, Prod.mk.injEq] at h
  obtain ⟨⟨range, polls⟩, hrange, rfl, rfl⟩ := h
  obtain ⟨hlt, hfresh⟩ := allocationRange_spec hrange
  have hrise : t.CursorsRise (t.setCursor (branchOf account change) account.exportXpub range.stop) :=
    cursorsRise_setCursor fun n hn => (hfresh.cursor n hn).trans hlt.le
  refine ⟨hlt, hfresh, rfl, ?_, ⟨.of_eq rfl, hrise, fun hc => ?_, le_refl _, fun _ => rfl⟩,
    fun _ _ _ => moves_setCursor _ _ _ _, rfl, rfl⟩
  · rw [PendingAllocation.branch, cursor_setCursor, if_pos rfl]
  · exact hc.setCursor fun index hr => (hfresh.recorded hc index hr).trans hlt

/-- The second transaction: it finds a child of the range and keeps or gives back the tail. -/
structure Completed (scope : NetworkScope) (p : PendingAllocation W) (t : ScopeTables)
    (allocated : AllocatedAddress) (t' : ScopeTables) (index : ℕ) : Prop where
  found : ∃ found polls, searchRange scope p.account p.change ⟨p.start, p.limit⟩ p.cancelled p.polls =
    .ok (found, polls) ∧ found.address.index = index
  start : allocated.burned.start = p.start
  origin : allocated.address.origin = p.branch.origin index
  moves : ∀ W scope offered, Moves W scope offered t t'
  row : t.addresses.lookup allocated.address.address = none ∨ t.Recorded p.branch index
  generation : t'.generation = t.generation + 1
  tail : (allocated.burned.stop = p.limit ∧ t.Grows [p.branch.origin index] t') ∨
    (allocated.burned.stop = index + 1 ∧ t.cursor p.branch = some p.limit ∧
      t.generation = p.reservedGeneration ∧
      ∃ xpub, (t.setCursor p.branch xpub (index + 1)).Grows [p.branch.origin index] t')

theorem giveBack_cases (p : PendingAllocation W) (index : ℕ) (t : ScopeTables) :
    t.giveBack p index = (t, p.limit) ∨
      (t.cursor p.branch = some p.limit ∧ t.generation = p.reservedGeneration ∧
        ∃ xpub, t.giveBack p index = (t.setCursor p.branch xpub (index + 1), index + 1)) := by
  rw [giveBack]
  split
  · rename_i c hc
    split
    · rename_i hsame
      refine .inr ⟨?_, hsame.2, c.xpub, rfl⟩
      rw [ScopeTables.cursor, hc, ← hsame.1]
      rfl
    · exact .inl rfl
  · exact .inl rfl

theorem completeAllocation_spec {p : PendingAllocation W}
    (h : t.completeAllocation scope p = .ok (allocated, t')) :
    ∃ index, Completed scope p t allocated t' index := by
  simp only [completeAllocation, bind_eq_ok] at h
  obtain ⟨⟨found, polls⟩, hfound, h⟩ := h
  refine ⟨found.address.index, ?_⟩
  obtain hsame | ⟨hcursor, hgeneration, xpub, hback⟩ := giveBack_cases p found.address.index t
  · rw [hsame] at h
    have hfinished := finishAllocation_spec h
    exact ⟨⟨found, polls, hfound, rfl⟩, by rw [hfinished.burned], hfinished.origin,
      hfinished.moves, hfinished.row, hfinished.generation,
      .inl ⟨by rw [hfinished.burned], hfinished.grows⟩⟩
  · rw [hback] at h
    have hfinished := finishAllocation_spec h
    exact ⟨⟨found, polls, hfound, rfl⟩, by rw [hfinished.burned], hfinished.origin,
      fun W scope offered => (moves_setCursor _ _ _ _).trans (hfinished.moves W scope offered),
      hfinished.row, hfinished.generation,
      .inr ⟨by rw [hfinished.burned], hcursor, hgeneration, xpub, hfinished.grows⟩⟩

/-- The compact form takes the examined range and leaves the cursor past it. -/
structure Compacted (b : Branch) (t : ScopeTables) (allocated : AllocatedAddress)
    (t' : ScopeTables) (index : ℕ) : Prop where
  low : allocated.burned.start ≤ index
  stop : allocated.burned.stop = index + 1
  fresh : t.FreshRange b allocated.burned.start
  origin : allocated.address.origin = b.origin index
  grows : t.Grows [b.origin index] t'
  moves : ∀ W scope offered, Moves W scope offered t t'
  row : t.addresses.lookup allocated.address.address = none ∨ t.Recorded b index
  cursor : ∃ next, t'.cursor b = some next ∧ index + 1 ≤ next

theorem allocateCompact_spec
    (h : t.allocateCompact scope account change maxAttempts cancelled = .ok (allocated, t')) :
    ∃ index, Compacted (branchOf account change) t allocated t' index := by
  simp only [allocateCompact, bind_eq_ok] at h
  obtain ⟨⟨range, polls⟩, hrange, ⟨found, polls'⟩, hfound, h⟩ := h
  obtain ⟨hlt, hfresh⟩ := allocationRange_spec hrange
  obtain ⟨hlow, -⟩ := searchRange_spec hfound
  have hfinished := finishAllocation_spec h
  dsimp only at hlow hfinished
  generalize hindex : found.address.index = index at hlow hfinished
  have hrise : t.CursorsRise
      (t.setCursor (branchOf account change) account.exportXpub (index + 1)) :=
    cursorsRise_setCursor fun n hn => by
      have := hfresh.cursor n hn
      omega
  have hset : (t.setCursor (branchOf account change) account.exportXpub (index + 1)).cursor
      (branchOf account change) = some (index + 1) := by
    rw [cursor_setCursor, if_pos rfl]
  have hgrows : t.Grows [(branchOf account change).origin index] t' := by
    refine { hfinished.grows with
      cursors := hrise.trans hfinished.grows.cursors
      covered := fun hc => hfinished.grows.covered (hc.setCursor fun i hr => ?_) }
    have := hfresh.recorded hc i hr
    omega
  have hburned := hfinished.burned
  refine ⟨index, ?_, ?_, ?_, hfinished.origin, hgrows,
    fun W scope offered => (moves_setCursor _ _ _ _).trans (hfinished.moves W scope offered),
    hfinished.row, hfinished.grows.cursors _ _ hset⟩
  · rw [hburned]
    exact hlow
  · rw [hburned]
  · rw [hburned]
    exact hfresh

end ScopeTables

end QuaiSdk.Storage
