import Mathlib.Data.List.AList

/-!
# Keyed tables

Tables with a primary key, as association lists without duplicate keys.  Lookup, insertion and
deletion of one key are those of `AList`; this file adds the bulk statements `UPDATE .. WHERE` and
`DELETE .. WHERE` and insertion under a primary-key constraint.
-/

abbrev Table (K V : Type*) := AList fun _ : K => V

namespace Table

open AList

variable {K V V' : Type*}

def rows (t : Table K V) : List (K × V) := t.entries.map fun r => (r.1, r.2)

def values (t : Table K V) : List V := t.entries.map fun r => r.2

/-- `UPDATE`: rewrite the value of every row, keys fixed. -/
def update (f : K → V → V') (t : Table K V) : Table K V' where
  entries := t.entries.map fun r => ⟨r.1, f r.1 r.2⟩
  nodupKeys := by
    have hkeys : (t.entries.map fun r => (⟨r.1, f r.1 r.2⟩ : Sigma fun _ : K => V')).keys =
        t.entries.keys := by
      simp only [List.keys, List.map_map]
      rfl
    rw [List.NodupKeys, hkeys]
    exact t.nodupKeys

/-- `DELETE .. WHERE`: drop the rows that satisfy `p`. -/
def delete (p : K → V → Prop) [∀ k v, Decidable (p k v)] (t : Table K V) : Table K V where
  entries := t.entries.filter fun r => ¬ p r.1 r.2
  nodupKeys := t.nodupKeys.sublist List.filter_sublist

variable [DecidableEq K]

variable {t : Table K V} {k a : K} {v : V}

theorem values_insert (hnew : k ∉ t) : values (t.insert k v) = v :: t.values := by
  rw [values, entries_insert_of_notMem hnew]
  rfl

theorem values_erase_perm (h : t.lookup k = some v) : t.values.Perm (v :: values (t.erase k)) := by
  have hentry : (⟨k, v⟩ : Sigma fun _ : K => V) ∈ t.entries := mem_lookup_iff.mp h
  have hkey : k ∈ t.entries.keys := List.mem_keys_of_mem hentry
  obtain ⟨w, before, after, -, hsplit, herase⟩ := List.exists_of_kerase hkey
  -- keys are unique, so the row that goes is the one looked up
  have hsame : w = v := by
    have hmem : (⟨k, w⟩ : Sigma fun _ : K => V) ∈ t.entries := by
      rw [hsplit]
      simp
    exact t.nodupKeys.eq_of_mk_mem hmem hentry
  have hleft : t.values = (before ++ ⟨k, w⟩ :: after).map fun r => r.2 := by
    rw [values, hsplit]
  have hright : values (t.erase k) = (before ++ after).map fun r => r.2 := by
    rw [values, ← herase]
    rfl
  rw [hleft, hright, hsame]
  exact List.perm_middle.map _

theorem mem_rows : (k, v) ∈ t.rows ↔ t.lookup k = some v := by
  have hentry : (k, v) ∈ t.rows ↔ (⟨k, v⟩ : Sigma fun _ : K => V) ∈ t.entries := by
    simp only [rows, List.mem_map, Prod.mk.injEq]
    constructor
    · rintro ⟨⟨a, b⟩, hmem, rfl, rfl⟩
      exact hmem
    · exact fun h => ⟨_, h, rfl, rfl⟩
  rw [hentry]
  exact mem_lookup_iff.symm

theorem mem_values : v ∈ t.values ↔ ∃ k, t.lookup k = some v := by
  have hvalues : t.values = t.rows.map Prod.snd := by
    rw [values, rows, List.map_map]
    rfl
  rw [hvalues, List.mem_map]
  constructor
  · rintro ⟨⟨k, v'⟩, hrow, rfl⟩
    exact ⟨k, mem_rows.mp hrow⟩
  · rintro ⟨k, hk⟩
    exact ⟨(k, v), mem_rows.mpr hk, rfl⟩

@[simp] theorem lookup_update (f : K → V → V') (t : Table K V) (k : K) :
    (t.update f).lookup k = (t.lookup k).map (f k) := by
  ext w
  rw [Option.map_eq_some_iff, ← mem_rows, rows, update]
  simp only [List.map_map, List.mem_map, Function.comp_apply, Prod.mk.injEq]
  constructor
  · rintro ⟨⟨a, b⟩, hmem, rfl, rfl⟩
    exact ⟨b, mem_lookup_iff.mpr hmem, rfl⟩
  · rintro ⟨v, hv, rfl⟩
    exact ⟨⟨k, v⟩, mem_lookup_iff.mp hv, rfl, rfl⟩

theorem lookup_delete {p : K → V → Prop} [∀ k v, Decidable (p k v)] :
    (t.delete p).lookup k = some v ↔ t.lookup k = some v ∧ ¬ p k v := by
  have hmem : (t.delete p).lookup k = some v ↔
      (⟨k, v⟩ : Sigma fun _ : K => V) ∈ (t.delete p).entries := mem_lookup_iff
  rw [hmem, delete, List.mem_filter, decide_eq_true_iff]
  exact and_congr_left fun _ => mem_lookup_iff.symm

theorem lookup_insert_eq : (t.insert a v).lookup k = if k = a then some v else t.lookup k := by
  by_cases h : k = a
  · subst h
    rw [if_pos rfl, lookup_insert]
  · rw [if_neg h, lookup_insert_ne h]

theorem lookup_erase_eq : (t.erase a).lookup k = if k = a then none else t.lookup k := by
  by_cases h : k = a
  · subst h
    rw [if_pos rfl, lookup_erase]
  · rw [if_neg h, lookup_erase_ne h]

theorem mem_iff_lookup : k ∈ t ↔ ∃ v, t.lookup k = some v := by
  rw [← lookup_isSome, Option.isSome_iff_exists]

theorem mem_of_lookup {t' : Table K V} (h : ∀ k v, t.lookup k = some v → t'.lookup k = some v)
    (hk : k ∈ t) : k ∈ t' := by
  obtain ⟨v, hv⟩ := mem_iff_lookup.mp hk
  exact mem_iff_lookup.mpr ⟨v, h k v hv⟩

/-- `INSERT` under the primary key, failing with `e` on a duplicate. -/
def insertNew {ε : Type*} (e : ε) (k : K) (v : V) (t : Table K V) : Except ε (Table K V) :=
  if k ∈ t then .error e else .ok (t.insert k v)

theorem insertNew_eq_ok {ε : Type*} {e : ε} {t' : Table K V} :
    t.insertNew e k v = .ok t' ↔ t.lookup k = none ∧ t' = t.insert k v := by
  rw [insertNew, lookup_eq_none]
  by_cases h : k ∈ t
  · simp [h]
  · simp [h, eq_comm]

def Same (t u : Table K V) : Prop :=
  (∀ r ∈ t.rows, u.lookup r.1 = some r.2) ∧ ∀ r ∈ u.rows, t.lookup r.1 = some r.2

instance [DecidableEq V] (t u : Table K V) : Decidable (Same t u) :=
  inferInstanceAs (Decidable (_ ∧ _))

theorem lookup_insert_of_some {w : V} (hnew : t.lookup a = none) (h : t.lookup k = some w) :
    (t.insert a v).lookup k = some w := by
  have hne : k ≠ a := by
    rintro rfl
    rw [hnew] at h
    cases h
  rw [lookup_insert_ne hne, h]

end Table
