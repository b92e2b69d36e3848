import Mathlib.Data.List.Sort
import Mathlib.Algebra.Order.BigOperators.Group.List
import Mathlib.Algebra.Order.Ring.Nat

/-!
# Largest first

In a list sorted from large to small the first elements have the largest sum among all choices of as
many elements.
-/

namespace Greedy

open List

variable {α : Type*} (f : α → ℕ)

def Descending (l : List α) : Prop := l.Pairwise fun a b => f b ≤ f a

variable {f}

theorem sum_take_le_cons {a : α} {l : List α} (ha : ∀ b ∈ l, f b ≤ f a) (k : ℕ) :
    ((l.take k).map f).sum ≤ (((a :: l).take k).map f).sum := by
  cases k with
  | zero => exact le_rfl
  | succ k =>
    rw [take_succ_cons, map_cons, sum_cons, take_add_one, map_append, sum_append, Nat.add_comm]
    refine Nat.add_le_add_right ?_ _
    cases hk : l[k]? with
    | none => exact Nat.zero_le _
    | some b =>
      exact ha b (mem_of_getElem? hk)

theorem sum_le_of_sublist {l m : List α} (hsorted : Descending f l) (h : m.Sublist l) :
    (m.map f).sum ≤ ((l.take m.length).map f).sum := by
  induction h with
  | slnil => exact le_rfl
  | cons a h ih =>
    obtain ⟨ha, hrest⟩ := pairwise_cons.mp hsorted
    exact (ih hrest).trans (sum_take_le_cons ha _)
  | cons_cons a h ih =>
    exact Nat.add_le_add_left (ih (pairwise_cons.mp hsorted).2) _

theorem sum_le_of_subperm {l m : List α} (hsorted : Descending f l) (h : m.Subperm l) :
    (m.map f).sum ≤ ((l.take m.length).map f).sum := by
  obtain ⟨m', hperm, hsub⟩ := h
  rw [← hperm.length_eq, ← (hperm.map f).sum_eq]
  exact sum_le_of_sublist hsorted hsub

end Greedy
