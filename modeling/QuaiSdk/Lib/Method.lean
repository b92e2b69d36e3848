import QuaiSdk.Lib.Result

/-!
# Methods on mutable state

A method of `&mut self` yields an outcome and leaves a state, whether it succeeds or fails.  A method
is atomic when every failure leaves the state as it was.
-/

def Method (ε σ : Type*) (α : Type*) := σ → Except ε α × σ

namespace Method

universe u v w
variable {ε : Type u} {σ : Type v} {α β : Type w}

instance : Monad (Method.{u, v, w} ε σ) where
  pure a := fun s => (.ok a, s)
  bind x f := fun s =>
    match x s with
    | (.ok a, t) => f a t
    | (.error e, t) => (.error e, t)

def fail (e : ε) : Method ε σ α := fun s => (.error e, s)

def lift (x : Except ε α) : Method ε σ α := fun s => (x, s)

/-- The state, `self`. -/
def self : Method ε σ σ := fun s => (.ok s, s)

/-- `*self = s`. -/
def assign (s : σ) : Method ε σ Unit := fun _ => (.ok (), s)

def zoom {τ : Type*} (get : σ → τ) (set : σ → τ → σ) (x : Method ε τ α) : Method ε σ α := fun s =>
  ((x (get s)).1, set s (x (get s)).2)

/-- `map_err`. -/
def mapError {δ : Type*} (f : ε → δ) (x : Method ε σ α) : Method δ σ α := fun s =>
  ((x s).1.mapError f, (x s).2)

variable {s t : σ} {a : α} {b : β} {e : ε}

theorem eq_ok_of_fst {x : Except ε α × σ} (h : x.1 = .ok a) : x = (.ok a, x.2) := by
  rw [← h]

theorem bind_apply (x : Method ε σ α) (f : α → Method ε σ β) (s : σ) : (x >>= f) s = match x s with
      | (.ok a, t) => f a t
      | (.error e, t) => (.error e, t) := rfl

@[simp] theorem pure_eq_ok {a' : α} : (pure a : Method ε σ α) s = (.ok a', t) ↔ a = a' ∧ s = t := by
  change (Except.ok a, s) = (Except.ok a', t) ↔ _
  simp

@[simp] theorem fail_ne_ok : (fail e : Method ε σ α) s = (.ok a, t) ↔ False := by
  simp [fail]

@[simp] theorem lift_eq_ok {x : Except ε α} :
    (lift x : Method ε σ α) s = (.ok a, t) ↔ x = .ok a ∧ s = t := by
  simp [lift]

@[simp] theorem self_eq_ok {s₁ : σ} : (self : Method ε σ σ) s = (.ok s₁, t) ↔ s = s₁ ∧ s = t := by
  simp [self]

@[simp] theorem assign_eq_ok {s₁ : σ} {u : Unit} :
    (assign s₁ : Method ε σ Unit) s = (.ok u, t) ↔ s₁ = t := by
  simp [assign]

theorem bind_eq_ok {x : Method ε σ α} {f : α → Method ε σ β} :
    (x >>= f) s = (.ok b, t) ↔ ∃ a s₁, x s = (.ok a, s₁) ∧ f a s₁ = (.ok b, t) := by
  rw [bind_apply]
  rcases x s with ⟨_ | a, s₁⟩ <;> simp

theorem map_eq_ok {x : Method ε σ α} {f : α → β} :
    (x >>= fun a => pure (f a)) s = (.ok b, t) ↔ ∃ a, x s = (.ok a, t) ∧ f a = b := by
  simp [bind_eq_ok]

theorem ite_fail_eq_ok {bad : Prop} [Decidable bad] {x : Method ε σ α} :
    (if bad then fail e else x) s = (.ok a, t) ↔ ¬bad ∧ x s = (.ok a, t) := by
  by_cases h : bad <;> simp [h, fail]

theorem lift_bind_eq_ok {x : Except ε α} {f : α → Method ε σ β} :
    (lift x >>= f) s = (.ok b, t) ↔ ∃ a, x = .ok a ∧ f a s = (.ok b, t) := by
  rw [bind_eq_ok]
  constructor
  · rintro ⟨a, s', hlift, h⟩
    obtain ⟨hx, rfl⟩ := lift_eq_ok.mp hlift
    exact ⟨a, hx, h⟩
  · rintro ⟨a, hx, h⟩
    exact ⟨a, s, lift_eq_ok.mpr ⟨hx, rfl⟩, h⟩

theorem self_bind_eq_ok {σ : Type w} {s t : σ} {f : σ → Method ε σ β} :
    (self >>= f) s = (.ok b, t) ↔ f s s = (.ok b, t) := .rfl

theorem assign_bind_eq_ok {β : Type} {b : β} {s₁ : σ} {f : Unit → Method ε σ β} :
    (assign s₁ >>= f) s = (.ok b, t) ↔ f () s₁ = (.ok b, t) := .rfl

theorem ite_pure_eq_ok {done : Prop} [Decidable done] {x : Method ε σ Unit} {u : Unit} :
    (if done then pure () else x) s = (.ok u, t) ↔ done ∧ s = t ∨ ¬done ∧ x s = (.ok u, t) := by
  by_cases h : done <;> simp [h]

theorem zoom_eq_ok {τ : Type*} {get : σ → τ} {set : σ → τ → σ} {x : Method ε τ α} :
    zoom get set x s = (.ok a, t) ↔ ∃ part, x (get s) = (.ok a, part) ∧ set s part = t := by
  rw [zoom]
  rcases hx : x (get s) with ⟨outcome, part⟩
  simp

/-- What a method that succeeds has done, step by step. -/
theorem eq_ok : (∀ {ε σ α β : Type} {x : Method ε σ α} {f : α → Method ε σ β} {s t : σ} {b : β},
      (x >>= f) s = (.ok b, t) ↔ ∃ a s₁, x s = (.ok a, s₁) ∧ f a s₁ = (.ok b, t)) ∧
    (∀ {ε σ α : Type} {x : Except ε α} {s t : σ} {a : α},
      (lift x : Method ε σ α) s = (.ok a, t) ↔ x = .ok a ∧ s = t) ∧
    (∀ {ε σ α : Type} {bad : Prop} [Decidable bad] {e : ε} {x : Method ε σ α} {s t : σ} {a : α},
      (if bad then fail e else x) s = (.ok a, t) ↔ ¬bad ∧ x s = (.ok a, t)) ∧
    (∀ {ε σ α : Type} {a a' : α} {s t : σ},
      (pure a : Method ε σ α) s = (.ok a', t) ↔ a = a' ∧ s = t) :=
  ⟨bind_eq_ok, lift_eq_ok, ite_fail_eq_ok, pure_eq_ok⟩

/-- Every outcome leaves a state that is related to the one before. -/
def Within (R : σ → σ → Prop) (x : Method ε σ α) : Prop := ∀ s, R s (x s).2

/-- Every failure does. -/
def FailsWithin (R : σ → σ → Prop) (x : Method ε σ α) : Prop := ∀ s e t, x s = (.error e, t) → R s t

/-- A failure leaves the state as it was. -/
abbrev Atomic (x : Method ε σ α) : Prop := FailsWithin (fun s t => t = s) x

/-- Neither outcome touches the state. -/
abbrev ReadOnly (x : Method ε σ α) : Prop := Within (fun s t => t = s) x

instance : Std.Refl (fun s t : σ => t = s) := ⟨fun _ => rfl⟩

instance : IsTrans σ (fun s t : σ => t = s) := ⟨fun _ _ _ h h' => h'.trans h⟩

variable {R : σ → σ → Prop} {x : Method ε σ α} {f : α → Method ε σ β}

namespace Within

theorem lift [Std.Refl R] (x : Except ε α) : Within R (lift x : Method ε σ α) :=
  fun s => refl_of R s

theorem fail [Std.Refl R] (e : ε) : Within R (fail e : Method ε σ α) := fun s => refl_of R s

theorem pure [Std.Refl R] (a : α) : Within R (pure a : Method ε σ α) := fun s => refl_of R s

theorem self {σ : Type w} {R : σ → σ → Prop} [Std.Refl R] : Within R (self : Method ε σ σ) :=
  fun s => refl_of R s

theorem bind [IsTrans σ R] (hx : Within R x) (hf : ∀ a, Within R (f a)) : Within R (x >>= f) := by
  intro s
  rw [bind_apply]
  have hs := hx s
  rcases h : x s with ⟨_ | a, t⟩
  · rw [h] at hs
    exact hs
  · rw [h] at hs
    exact trans_of R hs (hf a t)

theorem ite {c : Prop} [Decidable c] {y : Method ε σ α} (hx : Within R x) (hy : Within R y) :
    Within R (if c then x else y) := by
  split
  · exact hx
  · exact hy

theorem mapError {δ : Type*} (hx : Within R x) (f : ε → δ) : Within R (x.mapError f) := hx

theorem of_eq (hx : Within R x) {s t : σ} {r : Except ε α} (h : x s = (r, t)) : R s t := by
  have hs := hx s
  rw [h] at hs
  exact hs

theorem fails (hx : Within R x) : FailsWithin R x := fun _ _ _ h => hx.of_eq h

theorem zoom {τ : Type*} {S : τ → τ → Prop} {get : σ → τ} {set : σ → τ → σ} {x : Method ε τ α}
    (hx : Within S x) (hset : ∀ s part, S (get s) part → R s (set s part)) :
    Within R (zoom get set x) := fun s => hset s _ (hx (get s))

end Within

namespace FailsWithin

theorem pure (a : α) : FailsWithin R (pure a : Method ε σ α) := by
  intro s e t h
  cases h

theorem fail [Std.Refl R] (e : ε) : FailsWithin R (fail e : Method ε σ α) := (Within.fail e).fails

theorem assign (s : σ) : FailsWithin R (assign s : Method ε σ Unit) := by
  intro s e t h
  cases h

/-- A failure of the second part comes after a success of the first. -/
theorem bind [IsTrans σ R] (hx : Within R x) (hf : ∀ a, FailsWithin R (f a)) :
    FailsWithin R (x >>= f) := by
  intro s e t h
  rw [bind_apply] at h
  have hs := hx s
  rcases hcall : x s with ⟨e' | a, s₁⟩
  · rw [hcall] at h hs
    cases h
    exact hs
  · rw [hcall] at h hs
    exact trans_of R hs (hf a s₁ e t h)

/-- What cannot fail after the first part leaves its failures. -/
theorem bind_ok (hx : FailsWithin R x) (hf : ∀ a s e t, f a s ≠ (.error e, t)) :
    FailsWithin R (x >>= f) := by
  intro s e t h
  rw [bind_apply] at h
  rcases hcall : x s with ⟨e' | a, s₁⟩
  · rw [hcall] at h
    cases h
    exact hx s _ _ hcall
  · rw [hcall] at h
    exact absurd h (hf a s₁ e t)

theorem map (hx : FailsWithin R x) (f : α → β) :
    FailsWithin R (x >>= fun a => Pure.pure (f a)) :=
  hx.bind_ok fun _ _ _ _ h => by cases h

theorem ite {c : Prop} [Decidable c] {y : Method ε σ α} (hx : FailsWithin R x)
    (hy : FailsWithin R y) : FailsWithin R (if c then x else y) := by
  split
  · exact hx
  · exact hy

theorem zoom {τ : Type*} {S : τ → τ → Prop} {get : σ → τ} {set : σ → τ → σ} {x : Method ε τ α}
    (hx : FailsWithin S x) (hset : ∀ s part, S (get s) part → R s (set s part)) :
    FailsWithin R (zoom get set x) := by
  intro s e t h
  unfold Method.zoom at h
  rcases hcall : x (get s) with ⟨outcome, part⟩
  rw [hcall] at h
  cases h
  exact hset s part (hx _ _ _ hcall)

end FailsWithin

namespace Atomic

theorem related (hx : Atomic x) {R : σ → σ → Prop} {s : σ} (hrefl : R s s)
    (hok : ∀ a t, x s = (.ok a, t) → R s t) : R s (x s).2 := by
  rcases h : x s with ⟨e | a, t⟩
  · rw [hx s e t h]
    exact hrefl
  · exact hok a t h

theorem zoom {τ : Type*} {get : σ → τ} {set : σ → τ → σ} {x : Method ε τ α} (hx : Atomic x)
    (hset : ∀ s, set s (get s) = s) : Atomic (zoom get set x) :=
  FailsWithin.zoom hx fun s part h => by
    rw [h]
    exact hset s

end Atomic

section Converge

open Result

variable {α β : Type} {σ ε ρ : Type} {R : σ → σ → Prop} {body : ℕ → α → Method ε σ (Round α ρ)}
  {e : ε}

theorem converge_within [Std.Refl R] [IsTrans σ R] (hbody : ∀ n a, Within R (body n a))
    (rounds n : ℕ) (a : α) : Within R (converge body (fail e) rounds n a) := by
  induction rounds generalizing n a with
  | zero => exact .fail e
  | succ rounds ih =>
    refine .bind (hbody n a) fun round => ?_
    cases round with
    | again next => exact ih _ next
    | done r => exact .pure r

/-- Whatever a loop returns, one of its rounds decided, in the state that the rounds before left. -/
theorem exists_round_of_converge [Std.Refl R] [IsTrans σ R] (hbody : ∀ n a, Within R (body n a))
    {rounds n : ℕ} {a : α} {s t : σ} {r : ρ}
    (h : converge body (fail e) rounds n a s = (.ok r, t)) :
    ∃ m last s₁, R s s₁ ∧ body m last s₁ = (.ok (.done r), t) := by
  induction rounds generalizing n a s with
  | zero => cases h
  | succ rounds ih =>
    obtain ⟨round, s₁, hround, h⟩ := bind_eq_ok.mp h
    cases round with
    | again next =>
      obtain ⟨m, last, s₂, hrest, hdone⟩ := ih h
      have hfirst := hbody n a s
      rw [hround] at hfirst
      exact ⟨m, last, s₂, trans_of R hfirst hrest, hdone⟩
    | done r' =>
      obtain ⟨rfl, rfl⟩ := pure_eq_ok.mp h
      exact ⟨n, a, s, refl_of R s, hround⟩

end Converge

end Method
