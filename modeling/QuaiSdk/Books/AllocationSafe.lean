import QuaiSdk.Books.Allocation

/-!
# Allocation journals over runs

What one request can do to a journal, and what follows for all of them: ranges stay apart below the
cursors, settled requests never change, and no address is exposed twice.
-/

namespace QuaiSdk.Books

open Result Wallet Storage Coverage Registry Function Method List

variable {ι A : Type}

/-- A range within the bounds of one request. -/
structure Shaped (range : IndexRange) : Prop where
  nonempty : range.start < range.stop
  bound : range.stop ≤ hardened
  attempts : range.stop - range.start ≤ maxAttempts

/-- A completion is the derivation at an index of its own range. -/
def Exposure.Exposed (E : Exposure ι A) (branch : ι) (range : IndexRange)
    (status : AllocationStatus A) : Prop :=
  ∀ x, status = .completed x →
    ∃ i, range.start ≤ i ∧ i < range.stop ∧ E.expose branch range i = .ok x

namespace AllocationBook

variable {E : Exposure ι A} {F : Format ι} {s s' : AllocationBook ι A}

/-- A request and a later state of it: only a pending one can change. -/
structure Kept (a b : Allocation ι A) : Prop where
  id : b.id = a.id
  branch : b.branch = a.branch
  range : b.range = a.range
  status : a.status.isPending = false → b.status = a.status

theorem Kept.refl (a : Allocation ι A) : Kept a a := ⟨rfl, rfl, rfl, fun _ => rfl⟩

variable {a : Allocation ι A} {id : AllocationId}

theorem Kept.trans {b c : Allocation ι A} (hab : Kept a b) (hbc : Kept b c) : Kept a c where
  id := hbc.id.trans hab.id
  branch := hbc.branch.trans hab.branch
  range := hbc.range.trans hab.range
  status := by
    intro ha
    have hb := hab.status ha
    rw [← hb] at ha ⊢
    exact hbc.status ha

theorem Kept.settle (a : Allocation ι A) : Kept a (settle a) := by
  unfold AllocationBook.settle
  split
  · rename_i hpending
    refine ⟨rfl, rfl, rfl, ?_⟩
    rw [hpending]
    exact nofun
  · exact Kept.refl a

theorem nodup_insert {new : Allocation ι A} (hs : (s.exposedAddresses E).Nodup)
    (hfresh : ∀ x ∈ new.status.exposed?, E.address x ∉ s.exposedAddresses E) :
    ((s.allocations.insert new).records.filterMap fun a =>
      a.status.exposed?.map E.address).Nodup := by
  have hsub : ∀ p, ((s.allocations.records.filter p).filterMap fun a =>
      a.status.exposed?.map E.address).Sublist (s.exposedAddresses E) := fun p =>
    filter_sublist.filterMap _
  rw [((insert_perm new s.allocations).filterMap _).nodup_iff]
  cases hexposed : new.status.exposed? with
  | none =>
    rw [filterMap_cons_none (by rw [hexposed]; rfl)]
    exact hs.sublist (hsub _)
  | some x =>
    rw [filterMap_cons_some (by rw [hexposed]; rfl), nodup_cons]
    exact ⟨fun hmem => hfresh x hexposed ((hsub _).subset hmem), hs.sublist (hsub _)⟩

variable [DecidableEq ι]

structure Valid (E : Exposure ι A) (F : Format ι) (s : AllocationBook ι A) : Prop where
  count : s.allocations.records.length ≤ F.limit
  shaped : ∀ a ∈ s.allocations.records, Shaped a.range
  exposed : ∀ a ∈ s.allocations.records, E.Exposed a.branch a.range a.status
  distinct : (s.exposedAddresses E).Nodup
  settled : s.sealedHistory = true → ∀ a ∈ s.allocations.records,
    a.range.stop ≤ s.floor a.branch → a.status.isPending = false
  covered : ∀ b, s.coveredTo b = some (s.next b)
  floor_le : ∀ b, s.floor b ≤ hardened
  next_le : ∀ b, s.next b ≤ hardened

theorem mem_ranges {b : ι} {range : IndexRange} :
    range ∈ s.ranges b ↔ ∃ a ∈ s.allocations.records, a.branch = b ∧ a.range = range := by
  simp only [ranges, mem_map, mem_filter, decide_eq_true_eq, and_assoc]

theorem ranges_nonempty (h : ∀ a ∈ s.allocations.records, Shaped a.range) (b : ι) :
    ∀ range ∈ sortByStart IndexRange.start (s.ranges b), range.start < range.stop := by
  intro range hrange
  obtain ⟨a, ha, -, rfl⟩ := mem_ranges.mp ((sortByStart_perm _).mem_iff.mp hrange)
  exact (h a ha).nonempty

theorem ranges_sorted (s : AllocationBook ι A) (b : ι) :
    (s.ranges b).Perm (sortByStart IndexRange.start (s.ranges b)) :=
  (sortByStart_perm _).symm

theorem Valid.stop_le (h : s.Valid E F) (ha : a ∈ s.allocations.records) :
    a.range.stop ≤ s.next a.branch := by
  have hskip : ∀ range ∈ sortByStart IndexRange.start (s.ranges a.branch),
      (s.sealedHistory && decide (range.stop ≤ s.floor a.branch)) = true →
      range.stop ≤ s.floor a.branch := by
    intro range _ hskip
    exact of_decide_eq_true (Bool.and_eq_true_iff.mp hskip).2
  apply (stop_le_of_cover (ranges_nonempty h.shaped a.branch) hskip (h.covered a.branch)).2
  exact (sortByStart_perm _).mem_iff.mpr (mem_ranges.mpr ⟨a, ha, rfl, rfl⟩)

theorem Valid.floor_le_next (h : s.Valid E F) (b : ι) : s.floor b ≤ s.next b := by
  have hskip : ∀ range ∈ sortByStart IndexRange.start (s.ranges b),
      (s.sealedHistory && decide (range.stop ≤ s.floor b)) = true → range.stop ≤ s.floor b := by
    intro range _ hskip
    exact of_decide_eq_true (Bool.and_eq_true_iff.mp hskip).2
  exact (stop_le_of_cover (ranges_nonempty h.shaped b) hskip (h.covered b)).1

def Apart (a b : Allocation ι A) : Prop :=
  a.branch = b.branch → a.range.stop ≤ b.range.start ∨ b.range.stop ≤ a.range.start

theorem Valid.apart (h : s.Valid E F) : s.allocations.records.Pairwise Apart := by
  have hbranch : ∀ b, (s.ranges b).Pairwise fun r t => r.stop ≤ t.start ∨ t.stop ≤ r.start := by
    intro b
    have happart := (apart_of_cover (ranges_nonempty h.shaped b) (h.covered b)).1
    exact (sortByStart_perm _).pairwise_iff (fun hrt => hrt.symm) |>.mp
      (happart.imp fun hle => .inl hle)
  rw [pairwise_iff_forall_sublist]
  intro a c hsub hsame
  have hpair := pairwise_filter.mp (pairwise_map.mp (hbranch c.branch))
  exact pairwise_iff_forall_sublist.mp hpair hsub (decide_eq_true hsame) (decide_eq_true rfl)

/-- Everything that a successful request can do. -/
inductive Change (E : Exposure ι A) (F : Format ι) (s : AllocationBook ι A) :
    AllocationBook ι A → Prop where
  | same : Change E F s s
  | reserve (a : Allocation ι A) (hnew : s.allocations.get? a.id = none)
      (hroom : s.allocations.records.length < F.limit) (hstart : a.range.start = s.next a.branch)
      (hshape : Shaped a.range) (hpending : a.status = .pending) :
      Change E F s { s with
        allocations := s.allocations.insert a
        next := update s.next a.branch a.range.stop }
  | settle (old : Allocation ι A) (status : AllocationStatus A)
      (hold : s.allocations.get? old.id = some old) (hpending : old.status = .pending)
      (hsettled : status.isPending = false) (hexposed : E.Exposed old.branch old.range status)
      (hfresh : ∀ x ∈ status.exposed?, E.address x ∉ s.exposedAddresses E) :
      Change E F s { s with allocations := s.allocations.insert { old with status } }
  | merge (next : ι → ℕ) (hnext : ∀ b, s.next b ≤ next b) (hbound : ∀ b, next b ≤ hardened) :
      Change E F s
        { sealedHistory := true, floor := next, next,
          allocations := s.allocations.map AllocationBook.settle settle_id }

theorem reserve_change {branch : ι} {attempts : ℕ} {u : Unit}
    (h : reserve F.limit id branch attempts s = (.ok u, s')) : Change E F s s' := by
  rw [reserve, self_bind_eq_ok, ite_fail_eq_ok, ite_fail_eq_ok, ite_fail_eq_ok, assign_eq_ok] at h
  obtain ⟨hnew, hbounds, hnext, rfl⟩ := h
  rw [not_or, not_not, not_le] at hbounds
  obtain ⟨⟨hone, hmax⟩, hroom⟩ := hbounds
  have hshape : Shaped ⟨s.next branch, min (s.next branch + attempts) hardened⟩ :=
    ⟨by dsimp only; omega, by dsimp only; omega, by dsimp only; omega⟩
  exact .reserve ⟨id, branch, ⟨s.next branch, min (s.next branch + attempts) hardened⟩, .pending⟩
    (by simpa using hnew) hroom rfl hshape rfl

theorem abandon_change {u : Unit} (h : abandon id s = (.ok u, s')) : Change E F s s' := by
  rw [abandon, self_bind_eq_ok, lift_bind_eq_ok] at h
  obtain ⟨a, ha, h⟩ := h
  rw [ite_fail_eq_ok, assign_eq_ok] at h
  obtain ⟨hpending, rfl⟩ := h
  rw [okOr_eq_ok] at ha
  have hid := (get?_eq_some.mp ha).2
  rw [← hid] at ha
  have hstatus : a.status = .pending := by
    cases hstatus : a.status with
    | pending => rfl
    | completed | abandoned => simp [hstatus, AllocationStatus.isPending] at hpending
  exact .settle a .abandoned ha hstatus rfl nofun nofun

theorem complete_change {index : ℕ} {x : A} (h : complete E id index s = (.ok x, s')) :
    Change E F s s' := by
  rw [complete, self_bind_eq_ok, lift_bind_eq_ok] at h
  obtain ⟨a, ha, h⟩ := h
  rw [okOr_eq_ok] at ha
  have hid := (get?_eq_some.mp ha).2
  rw [← hid] at ha
  cases hstatus : a.status with
  | completed =>
    simp only [hstatus] at h
    split at h
    · obtain ⟨-, rfl⟩ := pure_eq_ok.mp h
      exact .same
    · exact (fail_ne_ok.mp h).elim
  | abandoned =>
    simp only [hstatus] at h
    exact (fail_ne_ok.mp h).elim
  | pending =>
    simp only [hstatus, Method.ite_fail_eq_ok, Method.bind_eq_ok, Method.lift_eq_ok,
      Method.assign_eq_ok, Method.pure_eq_ok] at h
    obtain ⟨hrange, y, _, ⟨hexpose, rfl⟩, hfresh, -, _, rfl, rfl, rfl⟩ := h
    rw [not_or, not_lt, not_le] at hrange
    refine .settle a (.completed y) ha hstatus rfl ?_ ?_
    · rintro z ⟨⟩
      exact ⟨index, hrange.1, hrange.2, hexpose⟩
    · rintro z ⟨⟩
      exact hfresh

theorem mergeCursors_change {incoming : ι → ℕ} {n : ℕ} (hs : s.Valid E F)
    (hincoming : ∀ b, incoming b ≤ hardened) (h : mergeCursors incoming s = (.ok n, s')) :
    Change E F s s' := by
  rw [mergeCursors, Method.self_bind_eq_ok, Method.bind_eq_ok] at h
  obtain ⟨_, _, hassign, h⟩ := h
  obtain rfl := Method.assign_eq_ok.mp hassign
  obtain ⟨-, rfl⟩ := pure_eq_ok.mp h
  exact .merge _ (fun b => le_max_left _ _) fun b => max_le (hs.next_le b) (hincoming b)

theorem Change.follows (h : Change E F s s') : s.allocations.Follows Kept s'.allocations := by
  have hself : s.allocations.Follows Kept s.allocations :=
    Registry.Follows.refl fun a _ => Kept.refl a
  cases h with
  | same => exact hself
  | reserve a hnew => exact hself.insert_new hnew
  | settle old status hold hpending =>
    refine hself.insert_old Kept.trans hold ⟨rfl, rfl, rfl, ?_⟩
    rw [hpending]
    exact nofun
  | merge =>
    have hmap : s.allocations.Follows Kept (s.allocations.map AllocationBook.settle settle_id) :=
      hself.map_right fun hab => hab.trans (Kept.settle _)
    exact hmap

theorem Change.next_le (h : Change E F s s') (b : ι) : s.next b ≤ s'.next b := by
  cases h with
  | same | settle => exact le_rfl
  | reserve a hnew hroom hstart hshape =>
    show s.next b ≤ update s.next a.branch a.range.stop b
    by_cases hb : b = a.branch
    · subst hb
      rw [update_self, ← hstart]
      exact hshape.nonempty.le
    · rw [update_of_ne hb]
  | merge next hnext => exact hnext b

theorem ranges_insert_old {old : Allocation ι A} (new : Allocation ι A)
    (hs : s'.allocations = s.allocations.insert new) (hold : s.allocations.get? new.id = some old)
    (hbranch : new.branch = old.branch) (hrange : new.range = old.range) (b : ι) :
    (s'.ranges b).Perm (s.ranges b) := by
  have hsame : ∀ l : List (Allocation ι A),
      ((new :: l).filter fun a => a.branch = b).map Allocation.range =
        ((old :: l).filter fun a => a.branch = b).map Allocation.range := by
    intro l
    simp only [filter_cons, hbranch]
    split
    · rw [map_cons, map_cons, hrange]
    · rfl
  have hnew := ((insert_perm new s.allocations).filter fun a => a.branch = b).map Allocation.range
  have hold' := ((perm_of_get? hold).filter fun a => a.branch = b).map Allocation.range
  rw [hsame] at hnew
  rw [ranges, hs]
  exact hnew.trans hold'.symm

theorem ranges_insert_new {new : Allocation ι A} (hs : s'.allocations = s.allocations.insert new)
    (hnew : s.allocations.get? new.id = none) (b : ι) :
    (s'.ranges b).Perm (if new.branch = b then new.range :: s.ranges b else s.ranges b) := by
  have hperm := ((insert_perm_of_none hnew).filter fun a => a.branch = b).map Allocation.range
  rw [ranges, hs]
  apply hperm.trans
  by_cases hb : new.branch = b
  · rw [filter_cons, if_pos (decide_eq_true hb), if_pos hb]
    exact .refl _
  · rw [filter_cons, if_neg (by simpa using hb), if_neg hb]
    exact .refl _

theorem ranges_settle (hs : s'.allocations = s.allocations.map settle settle_id) (b : ι) :
    s'.ranges b = s.ranges b := by
  have hbranch : ∀ a : Allocation ι A, (settle a).branch = a.branch := fun a =>
    (Kept.settle a).branch
  have hrange : ∀ a : Allocation ι A, (settle a).range = a.range := fun a => (Kept.settle a).range
  rw [ranges, ranges, hs]
  show ((s.allocations.records.map settle).filter _).map _ = _
  rw [filter_map, map_map]
  simp only [comp_def, hbranch, hrange]

theorem Valid.reserve (hs : s.Valid E F) (hnew : s.allocations.get? a.id = none)
    (hroom : s.allocations.records.length < F.limit) (hstart : a.range.start = s.next a.branch)
    (hshape : Shaped a.range) (hpending : a.status = .pending) :
    Valid E F { s with
      allocations := s.allocations.insert a
      next := update s.next a.branch a.range.stop } where
  count := by
    rw [length_insert_of_none hnew]
    exact hroom
  shaped := forall_mem_insert hshape hs.shaped
  exposed := by
    apply forall_mem_insert _ hs.exposed
    rw [hpending]
    exact nofun
  distinct := by
    apply nodup_insert hs.distinct
    rw [hpending]
    exact nofun
  settled := by
    intro hsealed c hc hstop
    rcases mem_insert.mp hc with rfl | ⟨hc, -⟩
    · have hfloor := hs.floor_le_next c.branch
      have hnonempty := hshape.nonempty
      change c.range.stop ≤ s.floor c.branch at hstop
      omega
    · exact hs.settled hsealed c hc hstop
  covered := by
    intro b
    have hperm : (ranges { s with
        allocations := s.allocations.insert a
        next := update s.next a.branch a.range.stop } b).Perm
          (if a.branch = b then a.range :: s.ranges b else s.ranges b) :=
      ranges_insert_new rfl hnew b
    have hsorted := s.ranges_sorted b
    have hne := ranges_nonempty hs.shaped b
    by_cases hb : a.branch = b
    · subst hb
      rw [if_pos rfl] at hperm
      show _ = some (update s.next a.branch a.range.stop a.branch)
      rw [update_self]
      have hcovered := hs.covered a.branch
      rw [← hstart] at hcovered
      have hopen : (s.sealedHistory && decide (a.range.stop ≤ s.floor a.branch)) = false := by
        have hfloor := hs.floor_le_next a.branch
        have hnonempty := hshape.nonempty
        rw [decide_eq_false (by omega), Bool.and_false]
      have hbelow : ∀ range ∈ sortByStart IndexRange.start (s.ranges a.branch),
          range.stop ≤ a.range.start := by
        intro range hrange
        obtain ⟨c, hc, hbranch, rfl⟩ := mem_ranges.mp (hsorted.mem_iff.mpr hrange)
        rw [hstart, ← hbranch]
        exact hs.stop_le hc
      refine cover_sortByStart ?_ (hperm.trans ((hsorted.cons a.range).trans
        (perm_append_singleton a.range _).symm))
        (cover_append_singleton hcovered (Nat.zero_le _) hbelow hopen)
      intro range hrange
      rcases mem_append.mp hrange with hrange | hrange
      · exact hne range hrange
      · rw [mem_singleton.mp hrange]
        exact hshape.nonempty
    · rw [if_neg hb] at hperm
      show _ = some (update s.next a.branch a.range.stop b)
      rw [update_of_ne (Ne.symm hb)]
      exact cover_sortByStart hne (hperm.trans hsorted) (hs.covered b)
  floor_le := hs.floor_le
  next_le := by
    intro b
    show update s.next a.branch a.range.stop b ≤ hardened
    by_cases hb : b = a.branch
    · subst hb
      rw [update_self]
      exact hshape.bound
    · rw [update_of_ne hb]
      exact hs.next_le b

theorem Valid.settle (hs : s.Valid E F) {old : Allocation ι A} {status : AllocationStatus A}
    (hold : s.allocations.get? old.id = some old) (hsettled : status.isPending = false)
    (hexposed : E.Exposed old.branch old.range status)
    (hfresh : ∀ x ∈ status.exposed?, E.address x ∉ s.exposedAddresses E) :
    Valid E F { s with allocations := s.allocations.insert { old with status } } where
  count := by
    have hlength : (s.allocations.insert { old with status }).records.length = _ :=
      length_insert_of_some hold
    exact hlength.trans_le hs.count
  shaped := forall_mem_insert (hs.shaped old (get?_eq_some.mp hold).1) hs.shaped
  exposed := forall_mem_insert hexposed hs.exposed
  distinct := nodup_insert hs.distinct hfresh
  settled := by
    intro hsealed
    exact forall_mem_insert (fun _ => hsettled) (hs.settled hsealed)
  covered := by
    intro b
    have hperm : (ranges { s with
        allocations := s.allocations.insert { old with status } } b).Perm (s.ranges b) :=
      ranges_insert_old { old with status } rfl hold rfl rfl b
    have hsorted := s.ranges_sorted b
    exact cover_sortByStart (ranges_nonempty hs.shaped b) (hperm.trans hsorted) (hs.covered b)
  floor_le := hs.floor_le
  next_le := hs.next_le

theorem Valid.merge (hs : s.Valid E F) {next : ι → ℕ} (hnext : ∀ b, s.next b ≤ next b)
    (hbound : ∀ b, next b ≤ hardened) :
    Valid E F
      { sealedHistory := true, floor := next, next,
        allocations := s.allocations.map AllocationBook.settle settle_id } where
  count := by
    show (s.allocations.records.map AllocationBook.settle).length ≤ F.limit
    rw [length_map]
    exact hs.count
  shaped := by
    intro c hc
    obtain ⟨a, ha, rfl⟩ := List.mem_map.mp hc
    rw [(Kept.settle a).range]
    exact hs.shaped a ha
  exposed := by
    intro c hc
    obtain ⟨a, ha, rfl⟩ := List.mem_map.mp hc
    unfold AllocationBook.settle
    split
    · exact nofun
    · exact hs.exposed a ha
  distinct := by
    have hsame : ∀ a : Allocation ι A, (AllocationBook.settle a).status.exposed? =
        a.status.exposed? := by
      intro a
      unfold AllocationBook.settle
      cases hstatus : a.status <;> simp [AllocationStatus.isPending, AllocationStatus.exposed?, hstatus]
    show ((s.allocations.records.map AllocationBook.settle).filterMap _).Nodup
    rw [filterMap_map]
    simp only [comp_def, hsame]
    exact hs.distinct
  settled := by
    intro _ c hc _
    obtain ⟨a, ha, rfl⟩ := List.mem_map.mp hc
    unfold AllocationBook.settle
    split
    · rfl
    · rename_i hpending
      exact Bool.eq_false_iff.mpr hpending
  covered := by
    intro b
    have hsorted := s.ranges_sorted b
    have happart := (apart_of_cover (ranges_nonempty hs.shaped b) (hs.covered b)).1
    refine cover_sortByStart (ranges_nonempty hs.shaped b) ?_
      (cover_of_settled ?_ happart fun range _ => Nat.zero_le _)
    · rw [ranges_settle (s := s) rfl b]
      exact hsorted
    · intro range hrange
      obtain ⟨c, hc, hbranch, rfl⟩ := mem_ranges.mp (hsorted.mem_iff.mpr hrange)
      rw [Bool.true_and, decide_eq_true_iff, ← hbranch]
      exact le_trans (hs.stop_le hc) (hnext c.branch)
  floor_le := hbound
  next_le := hbound

theorem Change.valid (h : Change E F s s') (hs : s.Valid E F) : s'.Valid E F := by
  cases h with
  | same => exact hs
  | reserve a hnew hroom hstart hshape hpending =>
    exact hs.reserve hnew hroom hstart hshape hpending
  | settle old status hold hpending hsettled hexposed hfresh =>
    exact hs.settle hold hsettled hexposed hfresh
  | merge next hnext hbound => exact hs.merge hnext hbound

theorem Valid.start {floor : ι → ℕ} (h : ∀ b, floor b ≤ hardened) :
    Valid E F (AllocationBook.start floor) where
  count := Nat.zero_le _
  shaped := nofun
  exposed := nofun
  distinct := nodup_nil
  settled := nofun
  covered := fun _ => rfl
  floor_le := h
  next_le := h

/-- What a run can do between two of its states: cursors only rise, and every request is retained
with its range and, once settled, with its outcome. -/
structure Grows (early late : AllocationBook ι A) : Prop where
  next_le : ∀ b, early.next b ≤ late.next b
  kept : early.allocations.Follows Kept late.allocations

omit [DecidableEq ι] in
theorem Grows.refl (s : AllocationBook ι A) : Grows s s :=
  ⟨fun _ => le_rfl, .refl fun a _ => Kept.refl a⟩

omit [DecidableEq ι] in
theorem Grows.trans {s t u : AllocationBook ι A} (hst : Grows s t) (htu : Grows t u) : Grows s u :=
  ⟨fun b => le_trans (hst.next_le b) (htu.next_le b), hst.kept.trans Kept.trans htu.kept⟩

theorem Valid.exposed_once (h : s.Valid E F) {b : Allocation ι A} (ha : a ∈ s.allocations.records)
    (hb : b ∈ s.allocations.records) {x y : A} (hx : a.status = .completed x)
    (hy : b.status = .completed y) (hsame : E.address x = E.address y) : a = b := by
  have hpair := pairwise_filterMap.mp h.distinct
  have hsymm : Std.Symm fun c d : Allocation ι A =>
      ∀ u, c.status.exposed?.map E.address = some u →
        ∀ v, d.status.exposed?.map E.address = some v → u ≠ v :=
    ⟨fun c d hcd u hu v hv huv => hcd v hv u hu huv.symm⟩
  by_contra hne
  apply hpair.forall ha hb hne (E.address x) _ (E.address y) _ hsame
  · rw [hx]
    rfl
  · rw [hy]
    rfl

/-- What holds between two states of a run. -/
structure RunKept (E : Exposure ι A) (early late : AllocationBook ι A) : Prop where
  -- ranges of one branch do not meet and end at or below its cursor
  apart : late.allocations.records.Pairwise Apart
  below : ∀ a ∈ late.allocations.records, a.range.stop ≤ late.next a.branch
  -- cursors never fall, and every ID stays with its range and its settled outcome
  grows : Grows early late
  exposed_once : ∀ a ∈ late.allocations.records, ∀ b ∈ late.allocations.records, ∀ x y,
    a.status = .completed x → b.status = .completed y → E.address x = E.address y → a = b

omit [DecidableEq ι] in
theorem mergeCursors_abandons {incoming : ι → ℕ} {n : ℕ} (h : mergeCursors incoming s = (.ok n, s'))
    (ha : s.allocations.get? id = some a) (hopen : ∀ x, a.status ≠ .completed x) :
    ∃ b, s'.allocations.get? id = some b ∧ b.status = .abandoned := by
  rw [mergeCursors, Method.self_bind_eq_ok, Method.bind_eq_ok] at h
  obtain ⟨_, _, hassign, h⟩ := h
  obtain rfl := Method.assign_eq_ok.mp hassign
  obtain ⟨-, rfl⟩ := pure_eq_ok.mp h
  refine ⟨AllocationBook.settle a, ?_, ?_⟩
  · rw [get?_map, ha]
    rfl
  · unfold AllocationBook.settle
    cases hstatus : a.status with
    | pending => rfl
    | completed x => exact (hopen x hstatus).elim
    | abandoned => exact hstatus

theorem reserve_known {limit : ℕ} {branch : ι} {attempts : ℕ} (h : s.allocations.get? id = some a) :
    reserve limit id branch attempts s = (.error .conflict, s) := by
  have hsome : (s.allocations.get? id).isSome = true := by rw [h]; rfl
  exact congrFun (if_pos hsome) s

omit [DecidableEq ι] in
theorem complete_abandoned {index : ℕ} (h : s.allocations.get? id = some a)
    (hstatus : a.status = .abandoned) :
    complete E id index s = (.error .transition, s) := by
  obtain ⟨id', branch, range, status⟩ := a
  subst hstatus
  show (lift (okOr (s.allocations.get? id) StorageError.invalid) >>= _) s = _
  rw [h]
  rfl

omit [DecidableEq ι] in
theorem complete_atomic (E : Exposure ι A) (id : AllocationId) (index : ℕ) :
    (complete E id index).Atomic := by
  refine .bind .self fun s => .bind (.lift _) fun a => ?_
  cases a.status with
  | completed => exact .ite (.pure _) (.fail _)
  | abandoned => exact .fail _
  | pending =>
    exact .ite (.fail _) (.bind (.lift _) fun x => .ite (.fail _) (.map (.assign _) _))

end AllocationBook

end QuaiSdk.Books
