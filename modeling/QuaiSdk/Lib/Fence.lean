import QuaiSdk.Lib.Run

/-!
# Fenced slots

A slot whose revision rises with every write, in a state whose epoch rises with every reset.  A reset
may bring revisions back to where they were, so neither number alone shows that the slot was left
alone; both together do, over any run.
-/

/-- An epoch, a slot of the state, and the revision of its content. -/
structure Fence (σ V : Type*) where
  epoch : σ → ℕ
  slot : σ → V
  revision : V → ℕ

namespace Fence

variable {σ V : Type*} {F : Fence σ V} {s s' s'' : σ}

/-- The epoch rose, or the slot is as it was or has a higher revision. -/
def Advances (F : Fence σ V) (s s' : σ) : Prop :=
  F.epoch s < F.epoch s' ∨ F.epoch s = F.epoch s' ∧
    (F.slot s = F.slot s' ∨ F.revision (F.slot s) < F.revision (F.slot s'))

/-- Neither a write nor a reset in between. -/
structure Unmoved (F : Fence σ V) (s s' : σ) : Prop where
  epoch : F.epoch s = F.epoch s'
  slot : F.slot s = F.slot s'

theorem Advances.refl (s : σ) : F.Advances s s := .inr ⟨rfl, .inl rfl⟩

section

variable (h : F.Advances s s')
include h

theorem Advances.epoch_le : F.epoch s ≤ F.epoch s' := by
  unfold Advances at h
  omega

theorem Advances.trans (h' : F.Advances s' s'') : F.Advances s s'' := by
  by_cases hrose : F.epoch s < F.epoch s''
  · exact .inl hrose
  have hle := h.epoch_le
  have hle' := h'.epoch_le
  have hslot := (h.resolve_left (by omega)).2
  have hslot' := (h'.resolve_left (by omega)).2
  refine .inr ⟨by omega, ?_⟩
  cases hslot with
  | inl hsame => exact hsame ▸ hslot'
  | inr hlt =>
    right
    cases hslot' with
    | inl hsame => exact hsame ▸ hlt
    | inr hlt' => exact Nat.lt_trans hlt hlt'

theorem Advances.revision_le (hepoch : F.epoch s = F.epoch s') :
    F.revision (F.slot s) ≤ F.revision (F.slot s') := by
  cases (h.resolve_left (by omega)).2 with
  | inl hsame => exact Nat.le_of_eq (congrArg F.revision hsame)
  | inr hlt => exact Nat.le_of_lt hlt

end

/-- A run that ends with the epoch and revision it started with moved the slot at no step. -/
theorem unmoved_step {τ α : Type*} {next : τ → α → τ} {v : τ → σ}
    (hstep : ∀ s a, F.Advances (v s) (v (next s a))) {s : τ} (before : List α) (a : α)
    (later : List α) (hepoch : F.epoch (v (Run.run next s (before ++ a :: later))) = F.epoch (v s))
    (hrevision : F.revision (F.slot (v (Run.run next s (before ++ a :: later)))) =
      F.revision (F.slot (v s))) :
    F.Unmoved (v (Run.run next s before)) (v (next (Run.run next s before) a)) := by
  have hrun : ∀ (s : τ) (actions : List α), F.Advances (v s) (v (Run.run next s actions)) := by
    intro s actions
    exact (Run.run_related (I := fun _ => True) (R := fun s s' => F.Advances (v s) (v s'))
      (fun _ _ => .refl _) (fun _ _ _ h h' => h.trans h') (fun s a _ => ⟨trivial, hstep s a⟩)
      trivial actions).2
  rw [Run.run_append, Run.run_cons] at hepoch hrevision
  have hfirst := hrun s before
  have hmiddle := hstep (Run.run next s before) a
  have hlast := hrun (next (Run.run next s before) a) later
  -- epochs only rise, so all four states share one
  have hle := hfirst.epoch_le
  have hle' := hmiddle.epoch_le
  have hle'' := hlast.epoch_le
  have hrev := hfirst.revision_le (by omega)
  have hrev' := hlast.revision_le (by omega)
  have hsame := hmiddle.resolve_left (by omega)
  exact ⟨hsame.1, hsame.2.resolve_right (by omega)⟩

end Fence
