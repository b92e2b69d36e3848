import QuaiSdk.Storage.IndexBurning

/-!
# Freshness of allocated addresses

An ordinary allocation searches without the write lock and its second transaction accepts an
identical row, so it can return an address that another writer recorded in between.  That is the only
way: an allocation returns a fresh address as long as no import, discovery or restore that commits
while it is under way records the child its search finds.
-/

namespace QuaiSdk.Storage

open Result Wallet RangeAllocator PendingAllocation List

variable {W : HdCrypto} {B : Backend}

def PendingAllocation.finds (scope : NetworkScope) (p : PendingAllocation W) : Option ℕ :=
  match ScopeTables.searchRange scope p.account p.change ⟨p.start, p.limit⟩ p.cancelled p.polls with
  | .ok (found, _) => some found.address.index
  | .error _ => none

theorem PendingAllocation.start_le_of_finds {scope : NetworkScope} {p : PendingAllocation W}
    {index : ℕ} (h : p.finds scope = some index) :
    p.start ≤ index ∧ (p.start ≤ p.limit → index < p.limit) := by
  rw [finds] at h
  split at h
  · rename_i found polls hsearch
    cases h
    exact ScopeTables.searchRange_spec hsearch
  · cases h

theorem ScopeTables.Completed.recorded {scope : NetworkScope} {p : PendingAllocation W}
    {t t' : ScopeTables} {allocated : AllocatedAddress} {index : ℕ}
    (h : ScopeTables.Completed scope p t allocated t' index) {b : Branch} {i : ℕ}
    (hr : t'.Recorded b i) : t.Recorded b i ∨ b.origin i ∈ [p.branch.origin index] := by
  obtain ⟨-, hgrows⟩ | ⟨-, -, -, xpub, hgrows⟩ := h.tail
  · exact hgrows.recorded hr
  · exact hgrows.recorded hr

namespace System

variable {s s' : System B} {origins : NetworkScope → List KeyOrigin}

/-- The action records the child that some allocation under way will find. -/
def Interferes (s : System B) (action : Action B) : Prop :=
  ∃ q ∈ s.pending, ∃ index, q.2.finds q.1 = some index ∧
    q.2.branch.origin index ∈ s.records action q.1

/-- No allocation under way will find a recorded child. -/
def Untouched (s : System B) : Prop :=
  ∀ q ∈ s.pending, ∀ index, q.2.finds q.1 = some index →
    ¬(s.db.tables q.1).Recorded q.2.branch index

/-- New children are those with the given origins. -/
def RecordsOnly (origins : NetworkScope → List KeyOrigin) (s s' : System B) : Prop :=
  ∀ scope b index, (s'.db.tables scope).Recorded b index →
    (s.db.tables scope).Recorded b index ∨ b.origin index ∈ origins scope

theorem Untouched.step (hs : s.Untouched)
    (h : RecordsOnly origins s s') (hpending : ∀ q ∈ s'.pending, q ∈ s.pending)
    (hclear : ∀ q ∈ s'.pending, ∀ index, q.2.finds q.1 = some index →
      q.2.branch.origin index ∉ origins q.1) : s'.Untouched := by
  intro q hq index hfinds hr
  rcases h q.1 q.2.branch index hr with hold | hnew
  · exact hs q (hpending q hq) index hfinds hold
  · exact hclear q hq index hfinds hnew

variable {scope : NetworkScope} {t : ScopeTables} {index : ℕ} {action : Action B}
  {p : PendingAllocation B.toHdCrypto} {allocated : AllocatedAddress} {a : Address}

theorem recordsOnly_write {origins : List KeyOrigin}
    (h : ∀ b index, t.Recorded b index → (s.db.tables scope).Recorded b index ∨
      b.origin index ∈ origins) :
    RecordsOnly (fun scope' => if scope' = scope then origins else []) s (s.write scope t) := by
  intro scope' b index hr
  rw [tables_write] at hr
  by_cases heq : scope' = scope
  · subst heq
    dsimp only
    rw [if_pos rfl] at hr ⊢
    exact h b index hr
  · rw [if_neg heq] at hr
    exact .inl hr

theorem mem_if_nil {p : Prop} [Decidable p] {o : KeyOrigin} {l : List KeyOrigin} :
    (o ∈ if p then l else []) ↔ p ∧ o ∈ l := by
  by_cases h : p <;> simp [h]

theorem Burning.finds_ne (hs : s.Burning) {k : ℕ} (hp : s.pending[k]? = some (scope, p))
    (hlow : p.start ≤ index) (hhigh : index < p.limit)
    {q : NetworkScope × PendingAllocation B.toHdCrypto} (hq : q ∈ s.pending.eraseIdx k) {i : ℕ}
    (hfinds : q.2.finds q.1 = some i) (hscope : q.1 = scope) (hbranch : q.2.branch = p.branch) :
    i ≠ index := by
  have hheld := hs.allocated.perm (held_perm hp)
  have hmem : q.2.held q.1 ∈ (s.pending.eraseIdx k).map (fun q => q.2.held q.1) ++
      s.issued.map Issued.held := mem_append_left _ (mem_map_of_mem hq)
  have hapart : Apart (p.held scope) (q.2.held q.1) := rel_of_pairwise_cons hheld.apart hmem
  have hnonempty : q.2.start < q.2.limit := hheld.nonempty _ (mem_cons_of_mem _ hmem)
  obtain ⟨hqlow, hqhigh⟩ := start_le_of_finds hfinds
  have hkey : (p.held scope).key = (q.2.held q.1).key := Prod.ext hscope.symm hbranch.symm
  rcases hapart hkey with hbefore | hafter
  · change p.limit ≤ q.2.start at hbefore
    omega
  · change q.2.limit ≤ p.start at hafter
    omega

theorem Untouched.abandon (hs : s.Untouched) (k : ℕ) :
    Untouched { s with pending := s.pending.eraseIdx k } :=
  fun q hq => hs q (mem_of_mem_eraseIdx hq)

theorem Untouched.reserve (hs : s.Untouched) (hb : s.Burning)
    (h : ScopeTables.Burned p (s.db.tables scope) t) :
    Untouched { s.write scope t with pending := s.pending ++ [(scope, p)] } := by
  have hsame : ∀ scope' b index, ((s.write scope t).db.tables scope').Recorded b index →
      (s.db.tables scope').Recorded b index := by
    intro scope' b index hr
    rcases (grows_write (s := s) h.grows scope').recorded hr with hold | hnew
    · exact hold
    · simp at hnew
  intro q hq index hfinds hr
  have hr := hsame q.1 q.2.branch index hr
  rcases mem_append.mp hq with hq | hq
  · exact hs q hq index hfinds hr
  · rw [mem_singleton] at hq
    subst hq
    have hlt := h.fresh.recorded (hb.covered scope) index hr
    have hle := (start_le_of_finds hfinds).1
    exact absurd hle (Nat.not_le.mpr hlt)

theorem finds_of_completed {p : PendingAllocation W} {t' : ScopeTables}
    (h : ScopeTables.Completed scope p t allocated t' index) : p.finds scope = some index := by
  obtain ⟨found, polls, hsearch, rfl⟩ := h.found
  rw [finds, hsearch]

theorem Untouched.complete (hs : s.Untouched) (hb : s.Burning) {k : ℕ}
    (hp : s.pending[k]? = some (scope, p))
    (h : ScopeTables.Completed scope p (s.db.tables scope) allocated t index) :
    Untouched (issue { s with pending := s.pending.eraseIdx k } scope p.branch
      (.ok (allocated, t))) := by
  have hnonempty : p.start < p.limit := (hb.allocated.perm (held_perm hp)).nonempty _ mem_cons_self
  obtain ⟨hlow, hhigh⟩ := start_le_of_finds (finds_of_completed h)
  have hrecords := recordsOnly_write (s := s) fun _ _ => h.recorded
  refine (hs.abandon k).step hrecords (fun q hq => hq) fun q hq i hfinds hmem => ?_
  obtain ⟨hscope, hmem⟩ := mem_if_nil.mp hmem
  obtain ⟨hbranch, hi⟩ := Branch.origin_inj (mem_singleton.mp hmem)
  exact hb.finds_ne hp hlow (hhigh hnonempty.le) hq hfinds hscope hbranch hi

theorem Untouched.compact (hs : s.Untouched) (hb : s.Burning) {b : Branch}
    (h : ScopeTables.Compacted b (s.db.tables scope) allocated t index) :
    Untouched (s.issue scope b (.ok (allocated, t))) := by
  have hrecords := recordsOnly_write (s := s) fun _ _ => h.grows.recorded
  refine hs.step hrecords (fun q hq => hq) fun q hq i hfinds hmem => ?_
  obtain ⟨hscope, hmem⟩ := mem_if_nil.mp hmem
  obtain ⟨hbranch, rfl⟩ := Branch.origin_inj (mem_singleton.mp hmem)
  have hheld : q.2.held q.1 ∈ s.held := mem_append_left _ (mem_map_of_mem hq)
  obtain ⟨n, hn, hlimit⟩ := hb.allocated.below _ hheld
  have hnonempty : q.2.start < q.2.limit := hb.allocated.nonempty _ hheld
  have hhigh := (start_le_of_finds hfinds).2 hnonempty.le
  have hcursor : (s.db.tables scope).cursor b = some n := by
    rw [← hscope, ← hbranch]
    exact hn
  have hstart := h.fresh.cursor n hcursor
  have hlow := h.low
  change q.2.limit ≤ n at hlimit
  omega

section

variable (h : Effect s action s')
include h

theorem Effect.untouched (hb : s.Burning) (hs : s.Untouched)
    (hclear : ¬s.Interferes action) : s'.Untouched := by
  cases h with
  | grown db merges =>
    refine hs.step (fun scope _ _ => (merges scope).2.recorded) (fun q hq => hq) ?_
    intro q hq index hfinds hmem
    exact hclear ⟨q, hq, index, hfinds, hmem⟩
  | reserved scope p t burned => exact hs.reserve hb burned
  | completed scope p t k allocated index pending completed => exact hs.complete hb pending completed
  | abandoned k => exact hs.abandon k
  | compacted scope b t allocated index compacted => exact hs.compact hb compacted

theorem Effect.fresh {x : Issued} (hb : s.Burning) (hs : s.Untouched)
    (hissued : s'.issued = s.issued ++ [x]) :
    x.allocated.address.address ∉ (s.db.tables x.scope).addresses := by
  have hone : ∀ y : Issued, s.issued ++ [y] = s.issued ++ [x] → y = x := fun y hy =>
    singleton_inj.mp (append_cancel_left hy)
  have hno : s.issued ≠ s.issued ++ [x] := fun hsame => by
    simpa using congrArg length hsame
  rw [← AList.lookup_eq_none]
  cases h with
  | grown | reserved | abandoned => exact absurd hissued hno
  | completed scope p t k allocated index pending completed =>
    cases hone _ hissued
    -- its search found a child that is not recorded, so the row is new
    refine completed.row.resolve_right fun hr => ?_
    exact hs (scope, p) (mem_of_getElem? pending) index (finds_of_completed completed) hr
  | compacted scope b t allocated index compacted =>
    cases hone _ hissued
    refine compacted.row.resolve_right fun hr => ?_
    have hlt := compacted.fresh.recorded (hb.covered scope) index hr
    exact absurd compacted.low (Nat.not_le.mpr hlt)

theorem Effect.lookup_rows (scope : NetworkScope) {row : AddressRow}
    (hrow : (s.db.tables scope).addresses.lookup a = some row) :
    (s'.db.tables scope).addresses.lookup a = some row := by
  have hwrite : ∀ {scope' : NetworkScope} {t : ScopeTables},
      (∀ a row, (s.db.tables scope').addresses.lookup a = some row → t.addresses.lookup a = some row) →
      ((s.write scope' t).db.tables scope).addresses.lookup a = some row := by
    intro scope' t ht
    rw [tables_write]
    split
    · rename_i heq
      exact ht a row (heq ▸ hrow)
    · exact hrow
  cases h with
  | grown db merges => exact (merges scope).2.rows a row hrow
  | reserved scope' p t burned => exact hwrite burned.grows.rows
  | completed scope' p t k allocated index pending completed =>
    apply hwrite
    obtain ⟨-, hgrows⟩ | ⟨-, -, -, xpub, hgrows⟩ := completed.tail
    · exact hgrows.rows
    · exact hgrows.rows
  | abandoned => exact hrow
  | compacted scope' b t allocated index compacted => exact hwrite compacted.grows.rows

end

theorem rows_after (before later : List (Action B)) (scope : NetworkScope)
    (h : a ∈ ((after before).db.tables scope).addresses) :
    a ∈ ((after (before ++ later)).db.tables scope).addresses := by
  rw [after, Run.run_append]
  exact Run.run_invariant (G := fun _ _ => True)
    (I := fun s : System B => a ∈ (s.db.tables scope).addresses)
    (fun s action hs _ => Table.mem_of_lookup
      (fun _ _ => (next_effect s action).lookup_rows scope) hs) h later fun _ _ _ _ => trivial

theorem untouched_after (actions : List (Action B))
    (hclear : ∀ before action later, actions = before ++ action :: later →
      ¬(after before).Interferes action) : (after actions).Burning ∧ (after actions).Untouched := by
  refine Run.run_invariant (I := fun s : System B => s.Burning ∧ s.Untouched)
    (G := fun s action => ¬s.Interferes action) ?_ ⟨burning_empty, ?_⟩ actions hclear
  · rintro s action ⟨hb, hs⟩ hgood
    have heffect := next_effect s action
    exact ⟨heffect.burning hb, heffect.untouched hb hs hgood⟩
  · intro q hq
    cases hq

/-- In a run in which nothing interferes, an allocation never returns an address that some earlier
state had recorded. -/
theorem allocated_fresh (actions : List (Action B))
    (hclear : ∀ before action later, actions = before ++ action :: later →
      ¬(after before).Interferes action) :
    ∀ before action later x, actions = before ++ action :: later →
      (after (before ++ [action])).issued = (after before).issued ++ [x] →
      ∀ earlier rest, before = earlier ++ rest →
        x.allocated.address.address ∉ ((after earlier).db.tables x.scope).addresses := by
  intro before action later x hactions hissued earlier rest hbefore hmem
  have hpart : ∀ b a l, before = b ++ a :: l → ¬(after b).Interferes a := by
    intro b a l hb
    apply hclear b a (l ++ action :: later)
    rw [hactions, hb, append_assoc, cons_append]
  obtain ⟨hb, hs⟩ := untouched_after before hpart
  have hstep : (after (before ++ [action])) = (after before).next action := by
    rw [after, Run.run_append]
    rfl
  rw [hstep] at hissued
  apply (next_effect _ action).fresh hb hs hissued
  rw [hbefore]
  exact rows_after earlier rest x.scope hmem

def changeXpub : String :=
  "xpub6C9RwxJ4GJzhLk2NDYcYxLJ1Hit6V9sUroPZnNfwVg3AdU7nhdccpbAVnkh22L6gwwbTD3AeCs3oh8gPjR17RNequ3B2PP6Aja3Vp2PkQat"

def changeKey : Bytes :=
  BigEndian.toBytes 33 0x02e2022adc7f7721bb2b18fdbe16d07196643b462f8a8c4997268f6a855e241510

def changeAddress : Address := Address.ofNat 0x00d78773085ba26be7352d9e5f6385508fa96d7a

def changeBackend : Backend :=
  .ofHd (KnownKeys.hd ⟨[(changeXpub, 0)], [((changeXpub, true, 0), changeKey)]⟩
    ⟨[(changeKey, changeAddress)], [], [], []⟩)

variable {keys : KnownKeys} {answers : KnownAnswers} in
def changeAccount : AccountPublic (KnownKeys.hd keys answers) := ⟨changeXpub, .qi, 0⟩

def changeChild : PublicAddress := ⟨changeAddress, changeKey, .bip44 .qi 0 true 0⟩

/-- First transaction of one handle's `allocate_address`. -/
def reserveChange : Action changeBackend :=
  .reserveRange sampleScope changeAccount true 1 fun _ => false

/-- Another handle's `import_metadata`. -/
def importChild (child : PublicAddress) : Action changeBackend :=
  .call sampleScope (.importMetadata 0 [child])

example : PublicAddress.derive (W := changeBackend.toHdCrypto) changeAccount true 0 =
    .ok changeChild := by decide +kernel

/-- The child is imported between the two transactions, and the allocation still returns it. -/
theorem imported_child_allocated :
    ∃ x : Issued, (after [reserveChange, importChild changeChild, .completeAllocation 0]).issued =
        (after [reserveChange, importChild changeChild]).issued ++ [x] ∧
      x.allocated.address.address ∈
        ((after [reserveChange, importChild changeChild]).db.tables x.scope).addresses :=
  ⟨⟨sampleScope, ⟨.qi, 0, true⟩, changeChild, ⟨0, 1⟩, 2⟩, by decide +kernel, by decide +kernel⟩

def importedKey : PublicAddress :=
  ⟨Address.ofNat 0x0049cda3305ccb9cb23e7ce2528cef555e9a5b32,
    BigEndian.toBytes 33 0x03ab8128182b80378bd914c9fcd2831f30a0a095c9d0e52450d4ba27b0f1eec101,
    .importedPublic⟩

/-- Importing the unrelated key instead, the same allocation is fresh. -/
theorem unrelated_import_allocated_fresh :
    changeAddress ∉
      ((after [reserveChange, importChild importedKey]).db.tables sampleScope).addresses := by
  apply allocated_fresh [reserveChange, importChild importedKey, .completeAllocation 0] _
    [reserveChange, importChild importedKey] (.completeAllocation 0) []
    ⟨sampleScope, ⟨.qi, 0, true⟩, changeChild, ⟨0, 1⟩, 2⟩ rfl (by decide +kernel) _ [] rfl
  rintro before action later hactions ⟨q, -, index, -, hmem⟩
  have haction : action ∈ [reserveChange, importChild importedKey, .completeAllocation 0] := by
    rw [hactions]
    simp
  -- only the import records anything, and what it records is no child
  rcases mem_cons.mp haction with rfl | haction
  · cases hmem
  · rcases mem_cons.mp haction with rfl | haction
    · cases mem_singleton.mp (mem_if_nil.mp hmem).2
    · cases mem_singleton.mp haction
      cases hmem

end System

end QuaiSdk.Storage
