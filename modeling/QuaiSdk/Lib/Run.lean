import Mathlib.Data.List.Basic

/-!
# Runs of a deterministic system

A system is a state, actions, and the state after each action.  A run applies a list of actions in
order, so any interleaving of several parties is such a list.
-/

namespace Run

variable {σ α : Type*} {next : σ → α → σ}

def run (next : σ → α → σ) (s : σ) (actions : List α) : σ := actions.foldl next s

@[simp] theorem run_nil (s : σ) : run next s [] = s := rfl

@[simp] theorem run_cons (s : σ) (a : α) (actions : List α) :
    run next s (a :: actions) = run next (next s a) actions := rfl

theorem run_append (s : σ) (before after : List α) :
    run next s (before ++ after) = run next (run next s before) after :=
  List.foldl_append

/-- An invariant of every step, under what is known of the step's action, holds after the run. -/
theorem run_invariant {G : σ → α → Prop} {I : σ → Prop}
    (hstep : ∀ s a, I s → G s a → I (next s a)) {s : σ} (hs : I s) (actions : List α)
    (hgood : ∀ before a after, actions = before ++ a :: after → G (run next s before) a) :
    I (run next s actions) := by
  induction actions generalizing s with
  | nil => exact hs
  | cons a actions ih =>
    apply ih (hstep s a hs (hgood [] a actions rfl))
    intro before b after hsplit
    exact hgood (a :: before) b after (by rw [hsplit, List.cons_append])

/-- What every step from an invariant state relates, a run relates, for a preorder. -/
theorem run_related {I : σ → Prop} {R : σ → σ → Prop} (hrefl : ∀ s, I s → R s s)
    (htrans : ∀ s t u, R s t → R t u → R s u)
    (hstep : ∀ s a, I s → I (next s a) ∧ R s (next s a)) {s : σ} (hs : I s)
    (actions : List α) : I (run next s actions) ∧ R s (run next s actions) := by
  induction actions generalizing s with
  | nil => exact ⟨hs, hrefl s hs⟩
  | cons a actions ih =>
    obtain ⟨hinv, hrel⟩ := hstep s a hs
    obtain ⟨hinv', hrel'⟩ := ih hinv
    exact ⟨hinv', htrans _ _ _ hrel hrel'⟩

end Run
