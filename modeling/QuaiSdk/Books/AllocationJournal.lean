import QuaiSdk.Books.AllocationSafe

/-!
# Records of an allocation journal

Which records the importers accept, and that a valid book passes every check of its own journal.
-/

namespace QuaiSdk.Books

open Result Wallet Storage
open Reader (Reads)

namespace AllocationBook

variable {ι A : Type} {E : Exposure ι A} {F : Format ι}

theorem readHeader_reads {α : Type} {magic : Bool → Bytes} {key name : Bytes} {isSealed : α → Bool}
    {r : Bool → Reader StorageError α} {domain : α → Prop} {encode : α → Bytes}
    (hmagic : ∀ b, (magic b).length = 8 ∧ decide (magic b = magic true) = b)
    (hkey : key.length = 65) (hname : name.length = 32)
    (hr : ∀ b, Reads (r b) (fun a => domain a ∧ isSealed a = b) encode) :
    Reads (readHeader magic key name r) domain
      fun a => magic (isSealed a) ++ (key ++ (name ++ encode a)) := by
  refine (Reads.bind (fun a => magic (isSealed a)) (Reads.take _ 8) (fun found _ => .guard fun _ =>
    .expect hkey (.expect hname (hr _))) ?_).congr ?_ fun a _ => rfl
  · rintro found a - ⟨hfound, -, hsealed⟩
    rw [hsealed]
    by_cases htrue : found = magic true
    · rw [decide_eq_true htrue, htrue]
    · rw [decide_eq_false htrue]
      rw [not_and_or, not_not, not_not] at hfound
      exact (hfound.resolve_right htrue).symm
  · intro a
    simp only [(hmagic _).1, (hmagic _).2, true_and, and_true, and_iff_right_iff_imp]
    intro _
    cases isSealed a
    · exact fun h => h.1 rfl
    · exact fun h => h.2 rfl

theorem readStatus_reads (E : Exposure ι A) (branch : ι) {range : IndexRange}
    (hbound : range.stop ≤ hardened) :
    Reads (readStatus E branch range) (E.Exposed branch range) (statusBytes E.index) where
  read := by
    intro status rest hstatus
    rw [readStatus, Reader.bind_eq_ok]
    cases status with
    | pending => exact ⟨0, rest, readByte_reads.read 0 rest trivial, rfl⟩
    | abandoned => exact ⟨2, rest, readByte_reads.read 2 rest trivial, rfl⟩
    | completed x =>
      obtain ⟨i, hstart, hstop, hexpose⟩ := hstatus x rfl
      have hbytes : statusBytes E.index (.completed x) = [1] ++ BigEndian.toBytes 4 i := by
        rw [statusBytes, E.index_expose hexpose]
        rfl
      -- an index below the hardened range fits four bytes
      have hsmall : i < 256 ^ 4 := by
        have hhardened : hardened < 256 ^ 4 := by decide
        omega
      rw [hbytes, List.append_assoc]
      refine ⟨1, _, readByte_reads.read 1 _ trivial, ?_⟩
      rw [if_neg (by decide), if_neg (by decide), if_pos rfl, Reader.bind_eq_ok]
      refine ⟨i, rest, (Reads.number _ 4).read i rest hsmall, ?_⟩
      rw [if_neg (by omega), Reader.bind_eq_ok]
      exact ⟨x, rest, (Reads.lift _).read x rest hexpose, rfl⟩
  exact_front := by
    intro b status rest hread
    rw [readStatus, Reader.bind_eq_ok] at hread
    obtain ⟨byte, middle, hbyte, hread⟩ := hread
    obtain ⟨-, rfl⟩ := readByte_reads.exact_front _ _ _ hbyte
    split at hread
    · rename_i hzero
      cases hread
      exact ⟨nofun, by rw [hzero]; rfl⟩
    · split at hread
      · rename_i htwo
        cases hread
        exact ⟨nofun, by rw [htwo]; rfl⟩
      · split at hread
        · rename_i hone
          rw [Reader.bind_eq_ok] at hread
          obtain ⟨i, middle', hindex, hread⟩ := hread
          obtain ⟨-, rfl⟩ := (Reads.number _ 4).exact_front _ _ _ hindex
          split at hread
          · cases hread
          · rename_i hrange
            rw [Reader.bind_eq_ok] at hread
            obtain ⟨x, rest', hlift, hread⟩ := hread
            cases hread
            obtain ⟨hexpose, rfl⟩ := (Reads.lift _).exact_front _ _ _ hlift
            rw [not_or, not_lt, not_le] at hrange
            refine ⟨?_, ?_⟩
            · rintro y ⟨⟩
              exact ⟨i, hrange.1, hrange.2, hexpose⟩
            · rw [statusBytes, E.index_expose hexpose, hone]
              rfl
        · cases hread

/-- What a record can hold. -/
def Readable (E : Exposure ι A) (a : Allocation ι A) : Prop :=
  Shaped a.range ∧ E.Exposed a.branch a.range a.status

theorem readAllocation_reads (E : Exposure ι A) (F : Format ι) (previous : Option AllocationId) :
    Reads (readAllocation E F previous) (fun a => (∀ k ∈ previous, k < a.id) ∧ Readable E a)
      (allocationBytes E.index F) := by
  have hsmall : ∀ range : IndexRange, Shaped range →
      range.start < 256 ^ 4 ∧ range.stop < 256 ^ 4 := by
    intro range hshape
    have hhardened : hardened < 256 ^ 4 := by decide
    have hnonempty := hshape.nonempty
    have hbound := hshape.bound
    omega
  have hstatus : ∀ (branch : ι) (start stop : ℕ),
      ¬(stop ≤ start ∨ hardened < stop ∨ maxAttempts < stop - start) →
      Reads (readStatus E branch ⟨start, stop⟩) (E.Exposed branch ⟨start, stop⟩)
        (statusBytes E.index) := by
    intro branch start stop hrange
    rw [not_or, not_or, not_le, not_lt] at hrange
    exact readStatus_reads E branch hrange.2.1
  refine (Reads.bind Allocation.id readId_reads (fun id _ => .guard fun _ =>
    Reads.bind Allocation.branch F.reads_branch (fun branch _ =>
    Reads.bind (fun a : Allocation ι A => a.range.start) (Reads.number _ 4) (fun start _ =>
    Reads.bind (fun a : Allocation ι A => a.range.stop) (Reads.number _ 4) (fun stop _ =>
      .guard fun hrange =>
    Reads.map Allocation.status (hstatus branch start stop hrange) fun _ _ => rfl)
    ?_) ?_) ?_) ?_).congr ?_ fun a _ => rfl
  -- every part that is read is a field of the record
  any_goals
    rintro part a - ha
    grind
  · intro a
    simp only [true_and, and_true, not_exists, not_and, not_or, not_le, not_lt]
    constructor
    · rintro ⟨hid, -, -, ⟨hnonempty, hbound, hattempts⟩, hexposed⟩
      exact ⟨hid, ⟨hnonempty, hbound, hattempts⟩, hexposed⟩
    · rintro ⟨hid, hshape, hexposed⟩
      obtain ⟨hstart, hstop⟩ := hsmall a.range hshape
      exact ⟨hid, hstart, hstop, ⟨hshape.nonempty, hshape.bound, hshape.attempts⟩, hexposed⟩

theorem length_statusBytes (index : A → Option ℕ) (status : AllocationStatus A) :
    1 ≤ (statusBytes index status).length ∧ (statusBytes index status).length ≤ 5 := by
  cases status with
  | pending | abandoned => exact ⟨le_rfl, Nat.le_add_left 1 4⟩
  | completed x =>
    rw [statusBytes, List.length_cons]
    cases index x with
    | none => exact ⟨le_rfl, Nat.le_add_left 1 4⟩
    | some =>
      rw [Option.map_some, Option.getD_some, BigEndian.length_toBytes]
      exact ⟨by decide, le_rfl⟩

theorem length_allocationBytes (index : A → Option ℕ) (F : Format ι) (a : Allocation ι A) :
    F.width ≤ (allocationBytes index F a).length ∧
      (allocationBytes index F a).length ≤ F.width + 4 := by
  have hstatus := length_statusBytes index a.status
  simp only [allocationBytes, List.length_append, a.id.size, BigEndian.length_toBytes,
    F.length_branchBytes, Format.width]
  omega

theorem length_records (index : A → Option ℕ) (F : Format ι) (l : List (Allocation ι A)) :
    l.length * F.width ≤ (l.flatMap (allocationBytes index F)).length ∧
      (l.flatMap (allocationBytes index F)).length ≤ l.length * (F.width + 4) := by
  induction l with
  | nil => simp
  | cons a l ih =>
    have ha := length_allocationBytes index F a
    rw [List.flatMap_cons, List.length_append, List.length_cons, Nat.succ_mul, Nat.succ_mul]
    omega

theorem length_cursors (cursors : List ℕ) (records : Bytes) :
    (cursors.foldr (fun n rest => BigEndian.toBytes 4 n ++ rest) records).length =
      4 * cursors.length + records.length := by
  induction cursors with
  | nil => simp
  | cons n cursors ih =>
    rw [List.foldr_cons, List.length_append, BigEndian.length_toBytes, ih, List.length_cons]
    omega

theorem length_journalBytes {magic key name : Bytes} {cursors : List ℕ} {index : A → Option ℕ}
    {allocations : Registry (Allocation.id (ι := ι) (A := A))} (hmagic : magic.length = 8)
    (hkey : key.length = 65) (hname : name.length = 32)
    (h : allocations.records.length ≤ F.limit) {low high : ℕ} (hlow : 107 + 4 * cursors.length = low)
    (hhigh : low + F.limit * (F.width + 4) = high) :
    low ≤ (journalBytes magic key name cursors (recordsBytes index F allocations)).length ∧
      (journalBytes magic key name cursors (recordsBytes index F allocations)).length ≤ high := by
  have hrecords := length_records index F allocations.records
  have hlimit := Nat.mul_le_mul_right (F.width + 4) h
  simp only [journalBytes, recordsBytes, List.length_append, hmagic, hkey, hname, length_cursors,
    BigEndian.length_toBytes]
  omega

theorem readRecords_reads (E : Exposure ι A) (F : Format ι) : Reads (readRecords E F)
      (fun allocations => allocations.records.length ≤ F.limit ∧
        ∀ a ∈ allocations.records, Readable E a) (recordsBytes E.index F) := by
  refine Reads.counted F.limit_lt fun count _ => Reads.guardInput
    (Reads.inserted (readAllocation_reads E F) count) ?_
  -- as many records as announced do not fit in fewer bytes
  rintro allocations rest ⟨hcount, -⟩
  have hlength := (length_records E.index F allocations.records).1
  have hwidth : 0 < F.width := Nat.add_pos_left (by decide) _
  rw [not_lt, Nat.le_div_iff_mul_le hwidth, List.length_append, ← hcount]
  omega

theorem checkRecords_eq_ok [DecidableEq ι] {s : AllocationBook ι A} {u : Unit} :
    checkRecords E F s = .ok u ↔ (s.exposedAddresses E).Nodup ∧
      (s.sealedHistory = true → ∀ a ∈ s.allocations.records,
        a.range.stop ≤ s.floor a.branch → a.status.isPending = false) ∧
      ∀ b, s.coveredTo b = some (s.next b) := by
  rw [checkRecords, ite_error_eq_ok, ite_error_eq_ok, ite_error_eq_ok, not_not]
  simp only [not_and, not_exists, Bool.not_eq_true, ne_eq, not_not, and_true]
  apply and_congr_right
  intro _
  apply and_congr_right
  intro _
  constructor
  · intro h b
    exact h b (F.mem_branches b)
  · intro h b _
    exact h b

/-- What the records and the cursors of a journal can be. -/
structure Recorded (E : Exposure ι A) (F : Format ι) (s : AllocationBook ι A) : Prop where
  floor_le : ∀ b, s.floor b ≤ hardened
  next_le : ∀ b, s.next b ≤ hardened
  count : s.allocations.records.length ≤ F.limit
  records : ∀ a ∈ s.allocations.records, Readable E a

theorem valid_iff [DecidableEq ι] {s : AllocationBook ι A} :
    s.Valid E F ↔ s.Recorded E F ∧ checkRecords E F s = .ok () := by
  rw [checkRecords_eq_ok]
  constructor
  · exact fun h => ⟨⟨h.floor_le, h.next_le, h.count, fun a ha => ⟨h.shaped a ha, h.exposed a ha⟩⟩,
      h.distinct, h.settled, h.covered⟩
  · rintro ⟨h, hdistinct, hsettled, hcovered⟩
    exact ⟨h.count, fun a ha => (h.records a ha).1, fun a ha => (h.records a ha).2, hdistinct,
      hsettled, hcovered, h.floor_le, h.next_le⟩

/-- A journal opens when its length is in bounds, it reads back whole and its records check. -/
theorem import_eq_ok [DecidableEq ι] {β : Type} {r : Reader StorageError β} {opens : β → Prop}
    {state : β → AllocationBook ι A} {X : β → Exposure ι A} {encode : β → Bytes}
    (h : Reads r (fun book => opens book ∧ (state book).Recorded (X book) F) encode)
    {low high : ℕ} (hlength : ∀ book, (state book).Valid (X book) F →
      low ≤ (encode book).length ∧ (encode book).length ≤ high) {b : Bytes} {book : β} :
    (if b.length < low ∨ high < b.length then .error .invalid
      else r b >>= fun x => if x.2 ≠ [] then .error .invalid
        else checkRecords (X x.1) F (state x.1) >>= fun _ => .ok x.1) = .ok book ↔
      opens book ∧ b = encode book ∧ (state book).Valid (X book) F := by
  rw [ite_error_eq_ok, h.accept_eq_ok fun book => checkRecords (X book) F (state book),
    not_or, not_lt, not_lt]
  constructor
  · rintro ⟨-, ⟨⟨hopens, hrecorded⟩, rfl⟩, hcheck⟩
    exact ⟨hopens, rfl, valid_iff.mpr ⟨hrecorded, hcheck⟩⟩
  · rintro ⟨hopens, rfl, hvalid⟩
    obtain ⟨hrecorded, hcheck⟩ := valid_iff.mp hvalid
    exact ⟨hlength book hvalid, ⟨⟨hopens, hrecorded⟩, rfl⟩, hcheck⟩

end AllocationBook

end QuaiSdk.Books
