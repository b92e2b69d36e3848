import Mathlib.Data.List.Perm.Basic
import Mathlib.Algebra.Order.Group.Nat

/-!
# Allocation of index ranges

An allocator hands out half-open ranges of natural numbers per key, always from a cursor that every
range handed out lies below.  Cursors may be lowered again, but only to give back the tail of the
range that ends exactly at the cursor.
-/

namespace RangeAllocator

open List

variable {K : Type*}

/-- A range `[start, stop)` held on a key. -/
structure Held (K : Type*) where
  key : K
  start : ℕ
  stop : ℕ

def Apart (h h' : Held K) : Prop := h.key = h'.key → h.stop ≤ h'.start ∨ h'.stop ≤ h.start

variable {h h' : Held K}

theorem Apart.symm (ha : Apart h h') : Apart h' h := fun hkey => (ha hkey.symm).symm

theorem Apart.shrink {other : Held K} (ha : Apart h other) (hkey : h'.key = h.key)
    (hstart : h.start ≤ h'.start) (hstop : h'.stop ≤ h.stop) : Apart h' other := by
  intro hk
  rcases ha (hkey ▸ hk) with hbefore | hafter
  · exact .inl (hstop.trans hbefore)
  · exact .inr (hafter.trans hstart)

/-- All held ranges are nonempty, below their cursors, and pairwise apart. -/
structure Allocated (cursor : K → Option ℕ) (held : List (Held K)) : Prop where
  nonempty : ∀ h ∈ held, h.start < h.stop
  below : ∀ h ∈ held, ∃ n, cursor h.key = some n ∧ h.stop ≤ n
  apart : held.Pairwise Apart

namespace Allocated

variable {cursor cursor' : K → Option ℕ} {held held' : List (Held K)} {h h' : Held K}

theorem nil (cursor : K → Option ℕ) : Allocated cursor [] := ⟨by simp, by simp, .nil⟩

theorem perm (ha : Allocated cursor held) (hp : held.Perm held') : Allocated cursor held' where
  nonempty h hh := ha.nonempty h (hp.mem_iff.mpr hh)
  below h hh := ha.below h (hp.mem_iff.mpr hh)
  apart := (hp.pairwise_iff Apart.symm).mp ha.apart

theorem tail (ha : Allocated cursor (h :: held)) : Allocated cursor held where
  nonempty k hk := ha.nonempty k (mem_cons_of_mem _ hk)
  below k hk := ha.below k (mem_cons_of_mem _ hk)
  apart := ha.apart.of_cons

theorem rise (ha : Allocated cursor held)
    (hrise : ∀ k n, cursor k = some n → ∃ n', cursor' k = some n' ∧ n ≤ n') :
    Allocated cursor' held where
  nonempty := ha.nonempty
  below k hk := by
    obtain ⟨n, hn, hle⟩ := ha.below k hk
    obtain ⟨n', hn', hle'⟩ := hrise k.key n hn
    exact ⟨n', hn', hle.trans hle'⟩
  apart := ha.apart

theorem take (ha : Allocated cursor held) (hlt : h.start < h.stop)
    (hstart : ∀ n, cursor h.key = some n → n ≤ h.start)
    (hrise : ∀ k n, cursor k = some n → ∃ n', cursor' k = some n' ∧ n ≤ n')
    (hstop : ∃ n, cursor' h.key = some n ∧ h.stop ≤ n) : Allocated cursor' (h :: held) where
  nonempty := forall_mem_cons.mpr ⟨hlt, ha.nonempty⟩
  below := forall_mem_cons.mpr ⟨hstop, (ha.rise hrise).below⟩
  apart := by
    refine pairwise_cons.mpr ⟨fun k hk hkey => ?_, ha.apart⟩
    obtain ⟨n, hn, hle⟩ := ha.below k hk
    exact .inr (hle.trans (hstart n (hkey ▸ hn)))

theorem shrink (ha : Allocated cursor (h :: held)) (hkey : h'.key = h.key)
    (hstart : h'.start = h.start) (hlt : h'.start < h'.stop) (hstop : h'.stop ≤ h.stop) :
    Allocated cursor (h' :: held) where
  nonempty := forall_mem_cons.mpr ⟨hlt, ha.tail.nonempty⟩
  below := by
    refine forall_mem_cons.mpr ⟨?_, ha.tail.below⟩
    obtain ⟨n, hn, hle⟩ := ha.below h mem_cons_self
    exact ⟨n, hkey ▸ hn, hstop.trans hle⟩
  apart := by
    refine pairwise_cons.mpr ⟨fun k hk => ?_, ha.tail.apart⟩
    have hold : Apart h k := rel_of_pairwise_cons ha.apart hk
    exact hold.shrink hkey hstart.ge hstop

theorem giveBack (ha : Allocated cursor (h :: held)) (hcursor : cursor h.key = some h.stop)
    (hkey : h'.key = h.key) (hstart : h'.start = h.start) (hlt : h'.start < h'.stop)
    (hstop : h'.stop ≤ h.stop) (hset : cursor' h.key = some h'.stop)
    (hother : ∀ k, k ≠ h.key → cursor' k = cursor k) : Allocated cursor' (h' :: held) where
  nonempty := (ha.shrink hkey hstart hlt hstop).nonempty
  apart := (ha.shrink hkey hstart hlt hstop).apart
  below := by
    refine forall_mem_cons.mpr ⟨⟨h'.stop, hkey ▸ hset, le_refl _⟩, fun k hk => ?_⟩
    obtain ⟨n, hn, hle⟩ := ha.below k (mem_cons_of_mem _ hk)
    by_cases hk' : k.key = h.key
    · -- another range of the key lies before this one, since none reaches past the old cursor
      have hsame : n = h.stop := by
        rw [hk', hcursor] at hn
        exact (Option.some.inj hn).symm
      have hapart : Apart h k := rel_of_pairwise_cons ha.apart hk
      have hne := ha.nonempty k (mem_cons_of_mem _ hk)
      rcases hapart hk'.symm with hafter | hbefore
      · omega
      · exact ⟨h'.stop, hk' ▸ hset, by omega⟩
    · exact ⟨n, hother k.key hk' ▸ hn, hle⟩

end Allocated

end RangeAllocator
