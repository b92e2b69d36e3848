import Mathlib.Data.List.Nodup
import Mathlib.Data.List.Pairwise
import Mathlib.Data.List.Perm.Basic
import Mathlib.Order.Lattice

/-!
# Registries

A map from keys to records that each carry their own key, kept in key order: the records alone, as a
strictly sorted list.  Insertion replaces the record under the same key.
-/

structure Registry {K α : Type*} [LinearOrder K] (key : α → K) where
  records : List α
  sorted : records.Pairwise fun a b => key a < key b

namespace Registry

open List

variable {K α : Type*} [LinearOrder K] {key : α → K}

variable {r : Registry key} {a b old : α} {k : K}

theorem ext_records {s : Registry key} (h : r.records = s.records) : r = s := by
  cases r
  cases s
  cases h
  rfl

instance [DecidableEq α] : DecidableEq (Registry key) := fun r s =>
  decidable_of_iff (r.records = s.records) ⟨ext_records, congrArg records⟩

def empty : Registry key := ⟨[], .nil⟩

def get? (r : Registry key) (k : K) : Option α := r.records.find? fun a => key a = k

def insertList (key : α → K) (a : α) : List α → List α
  | [] => [a]
  | b :: rest =>
    if key a < key b then a :: b :: rest
    else if key a = key b then a :: rest
    else b :: insertList key a rest

theorem mem_insertList {l : List α} (h : b ∈ insertList key a l) : b = a ∨ b ∈ l := by
  induction l with
  | nil => exact .inl (mem_singleton.mp h)
  | cons c rest ih =>
    rw [insertList] at h
    split at h
    · exact mem_cons.mp h
    · split at h
      · exact (mem_cons.mp h).imp_right (mem_cons_of_mem _)
      · rcases mem_cons.mp h with rfl | h
        · exact .inr mem_cons_self
        · exact (ih h).imp_right (mem_cons_of_mem _)

theorem insertList_sorted (a : α) {l : List α} (h : l.Pairwise fun b c => key b < key c) :
    (insertList key a l).Pairwise fun b c => key b < key c := by
  induction l with
  | nil => exact pairwise_singleton _ _
  | cons b rest ih =>
    obtain ⟨hb, hrest⟩ := pairwise_cons.mp h
    rw [insertList]
    split
    · rename_i hlt
      refine .cons ?_ h
      exact forall_mem_cons.mpr ⟨hlt, fun c hc => lt_trans hlt (hb c hc)⟩
    · split
      · rename_i heq
        exact .cons (fun c hc => heq ▸ hb c hc) hrest
      · rename_i hlt hne
        refine .cons ?_ (ih hrest)
        intro c hc
        rcases mem_insertList hc with rfl | hc
        · exact lt_of_le_of_ne (not_lt.mp hlt) (Ne.symm hne)
        · exact hb c hc

def insert (a : α) (r : Registry key) : Registry key :=
  ⟨insertList key a r.records, insertList_sorted a r.sorted⟩

def map (f : α → α) (hf : ∀ a, key (f a) = key a) (r : Registry key) : Registry key where
  records := r.records.map f
  sorted := by
    rw [pairwise_map]
    exact r.sorted.imp fun h => by rwa [hf, hf]

theorem nodup_keys (r : Registry key) : (r.records.map key).Nodup := by
  rw [List.Nodup, pairwise_map]
  exact r.sorted.imp fun h => ne_of_lt h

theorem key_injOn (r : Registry key) (ha : a ∈ r.records) (hb : b ∈ r.records) (h : key a = key b) :
    a = b :=
  inj_on_of_nodup_map r.nodup_keys ha hb h

theorem get?_eq_some : r.get? k = some a ↔ a ∈ r.records ∧ key a = k := by
  have hfound : ∀ b, r.get? k = some b → b ∈ r.records ∧ key b = k := by
    intro b h
    refine ⟨mem_of_find?_eq_some h, ?_⟩
    have hkey := find?_some h
    exact of_decide_eq_true hkey
  constructor
  · exact hfound a
  · rintro ⟨ha, hkey⟩
    cases hfind : r.get? k with
    | none =>
      have hne := find?_eq_none.mp hfind a ha
      rw [decide_eq_true_iff] at hne
      exact absurd hkey hne
    | some b =>
      obtain ⟨hb, hkey'⟩ := hfound b hfind
      rw [r.key_injOn hb ha (hkey'.trans hkey.symm)]

theorem get?_eq_none : r.get? k = none ↔ ∀ a ∈ r.records, key a ≠ k := by
  simp [get?, find?_eq_none]

theorem ext_mem {s : Registry key} (h : ∀ a, a ∈ r.records ↔ a ∈ s.records) : r = s := by
  apply ext_records
  have hperm : r.records.Perm s.records :=
    (perm_ext_iff_of_nodup r.nodup_keys.of_map s.nodup_keys.of_map).mpr h
  exact hperm.eq_of_pairwise (fun a b _ _ hab hba => absurd hab (lt_asymm hba)) r.sorted s.sorted

theorem insert_perm (a : α) (r : Registry key) :
    (r.insert a).records.Perm (a :: r.records.filter fun b => key b ≠ key a) := by
  obtain ⟨l, hsorted⟩ := r
  change (insertList key a l).Perm (a :: l.filter fun b => key b ≠ key a)
  induction l with
  | nil => exact .refl _
  | cons b rest ih =>
    obtain ⟨hb, hrest⟩ := pairwise_cons.mp hsorted
    rw [insertList]
    split
    · rename_i hlt
      have hall : (b :: rest).filter (fun c => key c ≠ key a) = b :: rest := by
        apply filter_eq_self.mpr
        exact forall_mem_cons.mpr ⟨decide_eq_true (ne_of_gt hlt),
          fun c hc => decide_eq_true (ne_of_gt (lt_trans hlt (hb c hc)))⟩
      rw [hall]
    · split
      · rename_i heq
        have hall : (b :: rest).filter (fun c => key c ≠ key a) = rest := by
          rw [filter_cons_of_neg (by simp [heq])]
          exact filter_eq_self.mpr fun c hc =>
            decide_eq_true (ne_of_gt (heq ▸ hb c hc))
        rw [hall]
      · rename_i hne
        rw [filter_cons_of_pos (by simpa using Ne.symm hne)]
        exact ((ih hrest).cons b).trans (.swap _ _ _)

theorem mem_insert : b ∈ (r.insert a).records ↔ b = a ∨ (b ∈ r.records ∧ key b ≠ key a) := by
  rw [(insert_perm a r).mem_iff, mem_cons, mem_filter, decide_eq_true_iff]

theorem forall_mem_insert {P : α → Prop} (ha : P a) (hr : ∀ b ∈ r.records, P b) :
    ∀ b ∈ (r.insert a).records, P b := by
  intro b hb
  rcases mem_insert.mp hb with rfl | ⟨hb, -⟩
  · exact ha
  · exact hr b hb

@[simp] theorem get?_insert {a : α} {r : Registry key} {k : K} :
    (r.insert a).get? k = if k = key a then some a else r.get? k := by
  ext b
  rw [get?_eq_some, mem_insert]
  split
  · rename_i hk
    subst hk
    simp only [Option.some.injEq]
    constructor
    · rintro ⟨rfl | ⟨-, hne⟩, hkey⟩
      · rfl
      · exact absurd hkey hne
    · rintro rfl
      exact ⟨.inl rfl, rfl⟩
  · rename_i hk
    rw [get?_eq_some]
    constructor
    · rintro ⟨rfl | ⟨hb, -⟩, rfl⟩
      · exact absurd rfl hk
      · exact ⟨hb, rfl⟩
    · rintro ⟨hb, rfl⟩
      exact ⟨.inr ⟨hb, hk⟩, rfl⟩

theorem insert_perm_of_none (h : r.get? (key a) = none) :
    (r.insert a).records.Perm (a :: r.records) := by
  have hall : r.records.filter (fun b => key b ≠ key a) = r.records :=
    filter_eq_self.mpr fun b hb => decide_eq_true (get?_eq_none.mp h b hb)
  have hperm := insert_perm a r
  rwa [hall] at hperm

theorem insert_self (ha : a ∈ r.records) : r.insert a = r := by
  apply ext_mem
  intro b
  rw [mem_insert]
  constructor
  · rintro (rfl | ⟨hb, -⟩)
    · exact ha
    · exact hb
  · intro hb
    by_cases hkey : key b = key a
    · exact .inl (r.key_injOn hb ha hkey)
    · exact .inr ⟨hb, hkey⟩

theorem perm_of_get? (h : r.get? k = some old) :
    r.records.Perm (old :: r.records.filter fun b => key b ≠ k) := by
  obtain ⟨hmem, rfl⟩ := get?_eq_some.mp h
  have hperm := insert_perm old r
  rwa [insert_self hmem] at hperm

theorem length_insert_of_some (h : r.get? (key a) = some old) :
    (r.insert a).records.length = r.records.length := by
  rw [(insert_perm a r).length_eq, (perm_of_get? h).length_eq, length_cons, length_cons]

theorem length_insert_of_none (h : r.get? (key a) = none) :
    (r.insert a).records.length = r.records.length + 1 :=
  (insert_perm_of_none h).length_eq

theorem length_flatMap_insert_le {β : Type*} {f : α → List β} {new : α}
    (hold : r.get? (key new) = some old) (h : (f new).length ≤ (f old).length) :
    ((r.insert new).records.flatMap f).length ≤ (r.records.flatMap f).length := by
  rw [((insert_perm new r).flatMap_right f).length_eq, ((perm_of_get? hold).flatMap_right f).length_eq,
    flatMap_cons, flatMap_cons, length_append, length_append]
  omega

theorem insert_of_last (h : ∀ b ∈ r.records, key b < key a) :
    (r.insert a).records = r.records ++ [a] := by
  obtain ⟨l, hsorted⟩ := r
  change insertList key a l = l ++ [a]
  induction l with
  | nil => rfl
  | cons b rest ih =>
    have hb := h b mem_cons_self
    rw [insertList, if_neg (lt_asymm hb), if_neg (ne_of_gt hb), cons_append,
      ih hsorted.of_cons (forall_mem_cons.mp h).2]

@[simp] theorem get?_map (f : α → α) (hf : ∀ a, key (f a) = key a) (r : Registry key) (k : K) :
    (r.map f hf).get? k = (r.get? k).map f := by
  simp only [get?, map, find?_map]
  congr 2
  funext a
  simp [hf]

/-- Every record of `r` has a successor in `s` under the same key. -/
def Follows (R : α → α → Prop) (r s : Registry key) : Prop :=
  ∀ k a, r.get? k = some a → ∃ b, s.get? k = some b ∧ R a b

namespace Follows

variable {R : α → α → Prop} {r s t : Registry key}

theorem refl (h : ∀ a ∈ r.records, R a a) : Follows R r r := fun _ a ha =>
  ⟨a, ha, h a (get?_eq_some.mp ha).1⟩

theorem trans (hR : ∀ {a b c}, R a b → R b c → R a c) (hrs : Follows R r s)
    (hst : Follows R s t) : Follows R r t := by
  intro k a ha
  obtain ⟨b, hb, hab⟩ := hrs k a ha
  obtain ⟨c, hc, hbc⟩ := hst k b hb
  exact ⟨c, hc, hR hab hbc⟩

theorem insert_new {a : α} (h : Follows R r s) (hnew : s.get? (key a) = none) :
    Follows R r (s.insert a) := by
  intro k old hold
  obtain ⟨b, hb, hab⟩ := h k old hold
  have hne : k ≠ key a := by
    rintro rfl
    rw [hnew] at hb
    cases hb
  refine ⟨b, ?_, hab⟩
  rw [get?_insert, if_neg hne]
  exact hb

theorem insert_old {old new : α} (hR : ∀ {a b c}, R a b → R b c → R a c) (h : Follows R r s)
    (hold : s.get? (key new) = some old) (hnew : R old new) : Follows R r (s.insert new) := by
  intro k a ha
  obtain ⟨b, hb, hab⟩ := h k a ha
  rw [get?_insert]
  by_cases hk : k = key new
  · rw [hk, hold, Option.some.injEq] at hb
    subst hb
    exact ⟨new, if_pos hk, hR hab hnew⟩
  · exact ⟨b, by rw [if_neg hk, hb], hab⟩

theorem map_right {f : α → α} {hf : ∀ a, key (f a) = key a} (hR : ∀ {a b}, R a b → R a (f b))
    (h : Follows R r s) : Follows R r (s.map f hf) := by
  intro k a ha
  obtain ⟨b, hb, hab⟩ := h k a ha
  exact ⟨f b, by rw [get?_map, hb]; rfl, hR hab⟩

end Follows

end Registry
