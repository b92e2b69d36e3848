import Mathlib.Data.List.Sort

/-!
# Covering an interval

Half-open ranges, taken in the order of their starts, that must tile everything from a floor up to a
cursor.  A range of settled history is only kept apart from the others: it may lie anywhere below the
floor.
-/

namespace Coverage

open List

variable {α : Type*} (start stop : α → ℕ) (skip : α → Bool)

/-- The cursor that the ranges lead to, from the end of the last one and the cursor so far. -/
def cover : List α → ℕ → ℕ → Option ℕ
  | [], _, next => some next
  | a :: rest, previous, next =>
    if start a < previous then none
    else if skip a = true then cover rest (stop a) next
    else if start a ≠ next then none
    else cover rest (stop a) (stop a)

def sortByStart (l : List α) : List α := l.insertionSort fun a b => start a ≤ start b

variable {start stop skip} {l : List α} {previous next last : ℕ}

theorem cover_cons {a : α} : cover start stop skip (a :: l) previous next = some last ↔
    previous ≤ start a ∧ ((skip a = true ∧ cover start stop skip l (stop a) next = some last) ∨
        (skip a = false ∧ start a = next ∧ cover start stop skip l (stop a) (stop a) = some last)) := by
  rw [cover]
  by_cases hstart : start a < previous
  · simp [hstart]
  · by_cases hskip : skip a = true
    · simp [hstart, hskip, Nat.le_of_not_lt hstart]
    · by_cases hnext : start a = next
      · simp [hskip, hnext, Nat.le_of_not_lt (hnext ▸ hstart)]
      · simp [hstart, hskip, hnext]

theorem apart_of_cover (hne : ∀ a ∈ l, start a < stop a)
    (h : cover start stop skip l previous next = some last) :
    (l.Pairwise fun a b => stop a ≤ start b) ∧ ∀ a ∈ l, previous ≤ start a := by
  induction l generalizing previous next with
  | nil => exact ⟨.nil, by simp⟩
  | cons a l ih =>
    obtain ⟨hle, hrest⟩ := cover_cons.mp h
    have htail : (l.Pairwise fun b c => stop b ≤ start c) ∧ ∀ b ∈ l, stop a ≤ start b := by
      have hne' : ∀ b ∈ l, start b < stop b := (forall_mem_cons.mp hne).2
      rcases hrest with ⟨-, hrest⟩ | ⟨-, -, hrest⟩
      · exact ih hne' hrest
      · exact ih hne' hrest
    refine ⟨pairwise_cons.mpr ⟨htail.2, htail.1⟩, ?_⟩
    intro b hb
    rcases mem_cons.mp hb with rfl | hb
    · exact hle
    · have hstart := htail.2 b hb
      have ha := hne a mem_cons_self
      omega

theorem stop_le_of_cover (hne : ∀ a ∈ l, start a < stop a)
    (hskip : ∀ a ∈ l, skip a = true → stop a ≤ next)
    (h : cover start stop skip l previous next = some last) :
    next ≤ last ∧ ∀ a ∈ l, stop a ≤ last := by
  induction l generalizing previous next with
  | nil =>
    cases h
    exact ⟨le_rfl, by simp⟩
  | cons a l ih =>
    have ha := hne a mem_cons_self
    have hne' : ∀ b ∈ l, start b < stop b := (forall_mem_cons.mp hne).2
    obtain ⟨-, ⟨hsettled, hrest⟩ | ⟨-, hnext, hrest⟩⟩ := cover_cons.mp h
    · obtain ⟨hle, hall⟩ := ih hne' (forall_mem_cons.mp hskip).2 hrest
      refine ⟨hle, ?_⟩
      exact forall_mem_cons.mpr ⟨le_trans (hskip a mem_cons_self hsettled) hle, hall⟩
    · have hbelow : ∀ b ∈ l, skip b = true → stop b ≤ stop a := by
        intro b hb hsettled
        have hle := hskip b (mem_cons_of_mem _ hb) hsettled
        omega
      obtain ⟨hle, hall⟩ := ih hne' hbelow hrest
      refine ⟨by omega, ?_⟩
      exact forall_mem_cons.mpr ⟨hle, hall⟩

theorem cover_append_singleton {a : α} (h : cover start stop skip l previous next = some (start a))
    (hprevious : previous ≤ start a) (hbelow : ∀ b ∈ l, stop b ≤ start a) (hskip : skip a = false) :
    cover start stop skip (l ++ [a]) previous next = some (stop a) := by
  induction l generalizing previous next with
  | nil =>
    cases h
    exact cover_cons.mpr ⟨hprevious, .inr ⟨hskip, rfl, rfl⟩⟩
  | cons b l ih =>
    have hb := hbelow b mem_cons_self
    have hbelow' : ∀ c ∈ l, stop c ≤ start a := (forall_mem_cons.mp hbelow).2
    obtain ⟨hle, hrest⟩ := cover_cons.mp h
    refine cover_cons.mpr ⟨hle, ?_⟩
    rcases hrest with ⟨hsettled, hrest⟩ | ⟨hopen, hnext, hrest⟩
    · exact .inl ⟨hsettled, ih hrest hb hbelow'⟩
    · exact .inr ⟨hopen, hnext, ih hrest hb hbelow'⟩

theorem cover_of_settled (hskip : ∀ a ∈ l, skip a = true)
    (happart : l.Pairwise fun a b => stop a ≤ start b) (hprevious : ∀ a ∈ l, previous ≤ start a) :
    cover start stop skip l previous next = some next := by
  induction l generalizing previous with
  | nil => rfl
  | cons a l ih =>
    obtain ⟨hfirst, hrest⟩ := pairwise_cons.mp happart
    exact cover_cons.mpr ⟨hprevious a mem_cons_self, .inl ⟨hskip a mem_cons_self,
      ih (forall_mem_cons.mp hskip).2 hrest hfirst⟩⟩

theorem sortByStart_perm (l : List α) : (sortByStart start l).Perm l := perm_insertionSort _ l

theorem sortByStart_eq {l' : List α} (hne : ∀ a ∈ l, start a < stop a)
    (happart : l.Pairwise fun a b => stop a ≤ start b) (hperm : l'.Perm l) :
    sortByStart start l' = l := by
  have hstrict : l.Pairwise fun a b => start a < start b :=
    happart.imp_of_mem fun ha _ hab => lt_of_lt_of_le (hne _ ha) hab
  have hnodup : (l.map start).Nodup := by
    rw [List.Nodup, pairwise_map]
    exact hstrict.imp fun h => ne_of_lt h
  have hsort : (sortByStart start l').Pairwise fun a b => start a ≤ start b :=
    pairwise_insertionSort _ l'
  have hsame : (sortByStart start l').Perm l := (sortByStart_perm l').trans hperm
  apply hsame.eq_of_pairwise _ hsort (hstrict.imp fun h => h.le)
  intro a b ha hb hab hba
  exact inj_on_of_nodup_map hnodup (hsame.mem_iff.mp ha) hb (le_antisymm hab hba)

/-- Sorting finds the one order in which the ranges cover. -/
theorem cover_sortByStart {l' : List α} (hne : ∀ a ∈ l, start a < stop a) (hperm : l'.Perm l)
    (h : cover start stop skip l previous next = some last) :
    cover start stop skip (sortByStart start l') previous next = some last := by
  rw [sortByStart_eq hne (apart_of_cover hne h).1 hperm]
  exact h

end Coverage
