import QuaiSdk.Storage.CustodyKept

/-!
# Recorded children and derivation cursors

How the addresses and derivation cursors of a scope move.  `Records` is one or more recorded
addresses inside a transaction, `Grows` a whole transaction: rows stay, cursors only rise, and the
generation changes whenever an address is recorded.  A give-back is the one transaction that does not
grow.
-/

namespace QuaiSdk.Storage

open Result Wallet PublicAddress

def Branch.origin (b : Branch) (index : ℕ) : KeyOrigin := .bip44 b.coin b.account b.change index

theorem Branch.origin_inj {b b' : Branch} {i i' : ℕ} (h : b.origin i = b'.origin i') :
    b = b' ∧ i = i' := by
  obtain ⟨coin, account, change⟩ := b
  obtain ⟨rfl, rfl, rfl, rfl⟩ := h
  exact ⟨rfl, rfl⟩

theorem PublicAddress.derive_origin {W : HdCrypto} {account : AccountPublic W} {change : Bool}
    {index : ℕ} {a : PublicAddress} (h : derive account change index = .ok a) :
    a.origin = (branchOf account change).origin index := by
  simp only [derive, eq_ok] at h
  obtain ⟨d, hd, rfl⟩ := h
  obtain ⟨hcoin, haccount, -⟩ := AccountPublic.deriveAddress_eq_ok hd
  rw [Branch.origin, branchOf, hcoin, haccount]

def KeepsBound (cursors cursors' : Table Branch DerivationCursor) : Prop :=
  ∀ b c, cursors.lookup b = some c → ∃ c', cursors'.lookup b = some c' ∧ c'.xpub = c.xpub

theorem KeepsBound.refl (cursors : Table Branch DerivationCursor) : KeepsBound cursors cursors :=
  fun _ c h => ⟨c, h, rfl⟩

theorem KeepsBound.trans {c₁ c₂ c₃ : Table Branch DerivationCursor} (h : KeepsBound c₁ c₂)
    (h' : KeepsBound c₂ c₃) : KeepsBound c₁ c₃ := by
  intro b c hc
  obtain ⟨d, hd, hdc⟩ := h b c hc
  obtain ⟨e, he, hed⟩ := h' b d hd
  exact ⟨e, he, hed.trans hdc⟩

def DiscoveryReport.origins (report : DiscoveryReport) : List KeyOrigin :=
  report.addresses.map fun o => .bip44 report.coin report.account o.derived.change o.derived.index

namespace DiscoveryBatch

variable {W : HdCrypto}

def Within (origins : List KeyOrigin) (batch : DiscoveryBatch) : Prop :=
  batch.addresses.map origin ⊆ origins

variable {scope : NetworkScope} {checkpoint : Checkpoint} {reports : List DiscoveryReport}
  {batch : DiscoveryBatch}

/-- What holds at the start and is kept for each child that is derived again holds of the batch. -/
theorem collect_invariant {P : DiscoveryBatch → Prop} (hempty : P ⟨[], []⟩)
    (hstep : ∀ report ∈ reports, ∀ account,
      AccountPublic.importXpub W report.accountXpub report.coin report.account = .ok account →
      ∀ observed ∈ report.addresses, ∀ batch derived coins, P batch →
      derive account observed.derived.change observed.derived.index = .ok derived →
      observed.observation.coins.foldlM (addCoin derived.address) batch.coins = .ok coins →
      P ⟨batch.addresses ++ [derived], coins⟩)
    (h : reports.foldlM (addReport W scope checkpoint) ⟨[], []⟩ = .ok batch) : P batch := by
  apply foldlM_invariant_mem _ hempty h
  intro s report s' hreport hs hadd
  simp only [addReport, eq_ok] at hadd
  obtain ⟨-, account, haccount, hloop⟩ := hadd
  apply foldlM_invariant_mem _ hs hloop
  intro s observed s' hmem hs hadd
  simp only [addAddress, eq_ok] at hadd
  obtain ⟨-, derived, hderived, -, coins, hcoins, rfl⟩ := hadd
  exact hstep report hreport account haccount observed hmem s derived coins hs hderived hcoins

theorem origins_subset (h : reports.foldlM (addReport W scope checkpoint) ⟨[], []⟩ = .ok batch) :
    batch.addresses.map origin ⊆ reports.flatMap DiscoveryReport.origins := by
  refine collect_invariant (P := Within (reports.flatMap DiscoveryReport.origins))
    (List.nil_subset _) ?_ h
  intro report hreport account haccount observed hmem s derived coins hs hderived _
  obtain ⟨hcoin, hnumber⟩ := AccountPublic.importXpub_eq_ok haccount
  have horigin := derive_origin hderived
  rw [Branch.origin, branchOf, hcoin, hnumber] at horigin
  rw [Within, List.map_append, List.append_subset]
  refine ⟨hs, ?_⟩
  rw [List.map_singleton, List.cons_subset, horigin]
  exact ⟨List.mem_flatMap.mpr ⟨report, hreport, List.mem_map.mpr ⟨observed, hmem, rfl⟩⟩,
    List.nil_subset _⟩

end DiscoveryBatch

namespace ScopeTables

variable {W : HdCrypto} {t t' t'' : ScopeTables} {P : PublicAddress → Prop}
  {origins : List KeyOrigin} {b : Branch}

def Recorded (t : ScopeTables) (b : Branch) (index : ℕ) : Prop :=
  ∃ a row, t.addresses.lookup a = some row ∧ row.origin = b.origin index

/-- `next_index` of a branch. -/
def cursor (t : ScopeTables) (b : Branch) : Option ℕ := (t.derivationCursors.lookup b).map (·.nextIndex)

def Covered (t : ScopeTables) : Prop :=
  ∀ b next index, t.cursor b = some next → t.Recorded b index → index < next

def CursorsRise (t t' : ScopeTables) : Prop :=
  ∀ b n, t.cursor b = some n → ∃ n', t'.cursor b = some n' ∧ n ≤ n'

theorem CursorsRise.refl (t : ScopeTables) : t.CursorsRise t := fun _ n h => ⟨n, h, le_refl n⟩

theorem CursorsRise.trans (h : t.CursorsRise t') (h' : t'.CursorsRise t'') : t.CursorsRise t'' := by
  intro b n hn
  obtain ⟨m, hm, hle⟩ := h b n hn
  obtain ⟨m', hm', hle'⟩ := h' b m hm
  exact ⟨m', hm', hle.trans hle'⟩

theorem CursorsRise.of_eq (h : t'.derivationCursors = t.derivationCursors) : t.CursorsRise t' := by
  intro b n hn
  rw [cursor, h]
  exact ⟨n, hn, le_refl n⟩

/-- Address rows stay, and a new one satisfies `P`. -/
structure AddsRows (P : PublicAddress → Prop) (t t' : ScopeTables) : Prop where
  rows : ∀ a row, t.addresses.lookup a = some row → t'.addresses.lookup a = some row
  added : ∀ a row, t'.addresses.lookup a = some row →
    t.addresses.lookup a = some row ∨ P ⟨a, row.publicKey, row.origin⟩

theorem AddsRows.of_eq (h : t'.addresses = t.addresses) : t.AddsRows P t' :=
  ⟨fun _ _ hrow => h ▸ hrow, fun _ _ hrow => .inl (h ▸ hrow)⟩

theorem AddsRows.trans (h : t.AddsRows P t') (h' : t'.AddsRows P t'') : t.AddsRows P t'' where
  rows a row hrow := h'.rows a row (h.rows a row hrow)
  added a row hrow := (h'.added a row hrow).elim (h.added a row) .inr

theorem AddsRows.imp {Q : PublicAddress → Prop} (h : t.AddsRows P t') (hPQ : ∀ e, P e → Q e) :
    t.AddsRows Q t' :=
  { h with added := fun a row hrow => (h.added a row hrow).imp_right (hPQ _) }

/-- Addresses that satisfy `P` are recorded inside a transaction; only they and the cursors move. -/
structure Records (P : PublicAddress → Prop) (t t' : ScopeTables) : Prop
    extends AddsRows P t t' where
  cursors : t.CursorsRise t'
  bound : KeepsBound t.derivationCursors t'.derivationCursors
  only : t' = { t with addresses := t'.addresses, derivationCursors := t'.derivationCursors }

theorem Records.refl (P : PublicAddress → Prop) (t : ScopeTables) : t.Records P t :=
  ⟨.of_eq rfl, .refl t, .refl _, rfl⟩

theorem Records.trans (h : t.Records P t') (h' : t'.Records P t'') : t.Records P t'' where
  toAddsRows := h.toAddsRows.trans h'.toAddsRows
  cursors := h.cursors.trans h'.cursors
  bound := h.bound.trans h'.bound
  only := h'.only.trans (by rw [h.only])

theorem Records.imp {Q : PublicAddress → Prop} (h : t.Records P t') (hPQ : ∀ e, P e → Q e) :
    t.Records Q t' :=
  { h with toAddsRows := h.toAddsRows.imp hPQ }

theorem Records.generation (h : t.Records P t') : t'.generation = t.generation := by
  rw [h.only]

theorem Records.custody (h : t.Records P t') : t'.custody = t.custody := by
  rw [h.only]

/-- A whole transaction that records at most the given origins. -/
structure Grows (origins : List KeyOrigin) (t t' : ScopeTables) : Prop
    extends AddsRows (fun e => e.origin ∈ origins) t t' where
  cursors : t.CursorsRise t'
  covered : t.Covered → t'.Covered
  generation : t.generation ≤ t'.generation
  unchanged : t'.generation = t.generation → t'.addresses = t.addresses

theorem Grows.refl (origins : List KeyOrigin) (t : ScopeTables) : t.Grows origins t :=
  ⟨.of_eq rfl, .refl t, fun h => h, le_refl _, fun _ => rfl⟩

theorem Grows.trans (h : t.Grows origins t') (h' : t'.Grows origins t'') : t.Grows origins t'' where
  toAddsRows := h.toAddsRows.trans h'.toAddsRows
  cursors := h.cursors.trans h'.cursors
  covered hc := h'.covered (h.covered hc)
  generation := h.generation.trans h'.generation
  unchanged hsame := by
    -- the generation lies between two equal ones
    have hle := h.generation
    have hle' := h'.generation
    rw [h'.unchanged (by omega), h.unchanged (by omega)]

theorem SameKeys.covered (h : t.SameKeys t') (hc : t.Covered) : t'.Covered := by
  intro b next index hnext hrecorded
  rw [cursor, h.derivationCursors] at hnext
  rw [Recorded, h.addresses] at hrecorded
  exact hc b next index hnext hrecorded

theorem SameKeys.grows (h : t.SameKeys t') (origins : List KeyOrigin) : t.Grows origins t' where
  toAddsRows := .of_eq h.addresses
  cursors := .of_eq h.derivationCursors
  covered := h.covered
  generation := h.generation
  unchanged _ := h.addresses

theorem Records.grows (h : t.Records P t') (hP : ∀ e, P e → e.origin ∈ origins)
    (hcovered : t.Covered → t'.Covered) (hkeys : t'.SameKeys t'')
    (hgen : t.generation < t''.generation) : t.Grows origins t'' where
  toAddsRows := (h.toAddsRows.imp hP).trans (.of_eq hkeys.addresses)
  cursors := h.cursors.trans (.of_eq hkeys.derivationCursors)
  covered hc := hkeys.covered (hcovered hc)
  generation := hgen.le
  unchanged hsame := by omega

/-- A transaction that records addresses drops the snapshot. -/
theorem Records.cleared (h : t.Records P t') (hP : ∀ e, P e → e.origin ∈ origins)
    (hcovered : t.Covered → t'.Covered) :
    t.Grows origins (t'.clearSnapshot (t.generation + 1)) :=
  h.grows hP hcovered ⟨rfl, rfl, h.generation.le.trans (Nat.le_succ _)⟩ (Nat.lt_succ_self _)

theorem Grows.recorded (h : t.Grows origins t') {index : ℕ} (hr : t'.Recorded b index) :
    t.Recorded b index ∨ b.origin index ∈ origins := by
  obtain ⟨a, row, hrow, horigin⟩ := hr
  rcases h.added a row hrow with hold | hnew
  · exact .inl ⟨a, row, hold, horigin⟩
  · exact .inr (horigin ▸ hnew)

theorem cursor_raiseCursor (b b' : Branch) (next : ℕ) (t : ScopeTables) :
    (t.raiseCursor b next).cursor b' =
      (t.cursor b').map fun n => if b' = b then max n next else n := by
  rw [cursor, cursor, raiseCursor, Table.lookup_update, Option.map_map, Option.map_map]
  congr 1
  funext c
  by_cases hb : b' = b
  · simp [hb]
  · simp [hb]

theorem records_raiseCursor (b : Branch) (next : ℕ) (t : ScopeTables) :
    t.Records P (t.raiseCursor b next) := by
  refine ⟨.of_eq rfl, fun b' n hn => ?_, fun b' c hc => ?_, rfl⟩
  · rw [cursor_raiseCursor, hn, Option.map_some]
    refine ⟨_, rfl, ?_⟩
    split
    · exact le_max_left n next
    · exact le_refl n
  · rw [raiseCursor, Table.lookup_update, hc, Option.map_some]
    refine ⟨_, rfl, ?_⟩
    split <;> rfl

theorem cursor_setCursor (b b' : Branch) (xpub : String) (next : ℕ) (t : ScopeTables) :
    (t.setCursor b xpub next).cursor b' = if b' = b then some next else t.cursor b' := by
  rw [cursor, setCursor, Table.lookup_insert_eq]
  by_cases hb : b' = b
  · rw [if_pos hb, if_pos hb]
    rfl
  · rw [if_neg hb, if_neg hb]
    rfl

variable {scope : NetworkScope} {a : PublicAddress} {next : ℕ}

theorem cursorsRise_setCursor {xpub : String} (h : ∀ n, t.cursor b = some n → n ≤ next) :
    t.CursorsRise (t.setCursor b xpub next) := by
  intro b' n hn
  rw [cursor_setCursor]
  by_cases hb : b' = b
  · subst hb
    rw [if_pos rfl]
    exact ⟨next, rfl, h n hn⟩
  · rw [if_neg hb]
    exact ⟨n, hn, le_refl n⟩

theorem keepsBound_setCursor (b : Branch) (xpub : String) (next : ℕ) (t : ScopeTables) :
    KeepsBound t.derivationCursors (t.setCursor b xpub next).derivationCursors := by
  intro b' c hc
  rw [setCursor, Table.lookup_insert_eq]
  by_cases hb : b' = b
  · -- the row keeps the key it was bound to
    subst hb
    rw [if_pos rfl, hc]
    exact ⟨_, rfl, rfl⟩
  · rw [if_neg hb]
    exact ⟨c, hc, rfl⟩

theorem records_setCursor {xpub : String} (h : ∀ n, t.cursor b = some n → n ≤ next) :
    t.Records P (t.setCursor b xpub next) :=
  ⟨.of_eq rfl, cursorsRise_setCursor h, keepsBound_setCursor b xpub next t, rfl⟩

theorem Covered.setCursor (hc : t.Covered) {xpub : String}
    (h : ∀ index, t.Recorded b index → index < next) : (t.setCursor b xpub next).Covered := by
  intro b' n index hn hrecorded
  rw [cursor_setCursor] at hn
  by_cases hb : b' = b
  · subst hb
    rw [if_pos rfl] at hn
    cases hn
    exact h index hrecorded
  · rw [if_neg hb] at hn
    exact hc b' n index hn hrecorded

theorem recordAddress_eq_ok (h : t.recordAddress a = .ok t') :
    (t.addresses.lookup a.address = some ⟨a.publicKey, a.origin⟩ ∧ t' = t) ∨
      (t.addresses.lookup a.address = none ∧
        t' = { t with addresses := t.addresses.insert a.address ⟨a.publicKey, a.origin⟩ }) := by
  rw [recordAddress] at h
  split at h
  · rename_i row hrow
    simp only [eq_ok, not_not] at h
    obtain ⟨rfl, rfl⟩ := h
    exact .inl ⟨hrow, rfl⟩
  · rename_i hnew
    simp only [eq_ok] at h
    exact .inr ⟨hnew, h.2.symm⟩

theorem recordAddress_records (h : t.recordAddress a = .ok t') : t.Records (· = a) t' := by
  obtain ⟨-, rfl⟩ | ⟨hnew, rfl⟩ := recordAddress_eq_ok h
  · exact .refl _ _
  · refine ⟨⟨fun a' row hrow => Table.lookup_insert_of_some hnew hrow, fun a' row hrow => ?_⟩,
      .of_eq rfl, .refl _, rfl⟩
    rw [Table.lookup_insert_eq] at hrow
    split at hrow
    · rename_i heq
      cases hrow
      exact .inr (heq ▸ rfl)
    · exact .inl hrow

/-- What a recorded address does: its row is there, and the cursor of its branch is past it. -/
theorem insertAddress_records (h : t.insertAddress W scope a = .ok t') : t.Records (· = a) t' := by
  simp only [insertAddress, bind_eq_ok] at h
  obtain ⟨⟨⟩, -, t₁, hrecord, h⟩ := h
  have hrecords := recordAddress_records hrecord
  split at h
  · cases h
    exact hrecords
  · simp only [eq_ok] at h
    obtain ⟨⟨⟩, -, rfl⟩ := h
    exact hrecords.trans (records_raiseCursor _ _ _)

theorem insertAddress_covered (h : t.insertAddress W scope a = .ok t') (hc : t.Covered) :
    t'.Covered := by
  simp only [insertAddress, bind_eq_ok] at h
  obtain ⟨⟨⟩, -, t₁, hrecord, h⟩ := h
  have hrecords := recordAddress_records hrecord
  have hcursors : t₁.derivationCursors = t.derivationCursors := by
    obtain ⟨-, rfl⟩ | ⟨-, rfl⟩ := recordAddress_eq_ok hrecord <;> rfl
  -- a child that is recorded now was recorded before or is the new one
  have hcases : ∀ b index, t₁.Recorded b index → t.Recorded b index ∨ a.origin = b.origin index := by
    rintro b index ⟨a', row, hrow, horigin⟩
    rcases hrecords.added a' row hrow with hold | hnew
    · exact .inl ⟨a', row, hold, horigin⟩
    · exact .inr ((congrArg origin hnew).symm.trans horigin)
  have hold : ∀ b next index, t₁.cursor b = some next → t.Recorded b index → index < next := by
    intro b next index hnext
    rw [cursor, hcursors] at hnext
    exact hc b next index hnext
  split at h
  · rename_i himported
    cases h
    intro b next index hnext hrecorded
    rcases hcases b index hrecorded with hr | hr
    · exact hold b next index hnext hr
    · rw [himported] at hr
      cases hr
  · rename_i coin account change i horigin
    simp only [eq_ok] at h
    obtain ⟨⟨⟩, -, rfl⟩ := h
    intro b next index hnext hrecorded
    rw [cursor_raiseCursor, Option.map_eq_some_iff] at hnext
    obtain ⟨m, hm, rfl⟩ := hnext
    rcases hcases b index hrecorded with hr | hr
    · have hlt := hold b m index hm hr
      split
      · exact lt_of_lt_of_le hlt (le_max_left _ _)
      · exact hlt
    · have hsame : b.origin index = Branch.origin ⟨coin, account, change⟩ i := hr.symm.trans horigin
      obtain ⟨rfl, rfl⟩ := Branch.origin_inj hsame
      rw [if_pos rfl]
      omega

theorem insertAddresses_records {addresses : List PublicAddress}
    (h : t.insertAddresses W scope addresses = .ok t') :
    t.Records (· ∈ addresses) t' ∧ (t.Covered → t'.Covered) :=
  foldlM_invariant_mem (P := fun s => t.Records (· ∈ addresses) s ∧ (t.Covered → s.Covered))
    (fun _ _ _ ha hs hstep =>
      ⟨hs.1.trans ((insertAddress_records hstep).imp fun _ he => he ▸ ha),
        fun hc => insertAddress_covered hstep (hs.2 hc)⟩) ⟨.refl _ t, id⟩ h

end ScopeTables

end QuaiSdk.Storage
