import Mathlib.Data.List.Basic

/-!
# Fallible computations

Inversion lemmas for `Except` chains and the invariant rule for a fallible loop.
-/

namespace Result

open List

universe u v w
variable {ε : Type u} {α β : Type v}

variable {x : Except ε α} {σ : Type v} {γ : Type*} {a : α} {f : α → Except ε β} {l : List α} {b : β}
  {step : σ → γ → Except ε σ} {s s' : σ}

/-- A sequenced computation succeeds exactly when both of its parts do. -/
theorem bind_eq_ok : (x >>= f) = .ok b ↔ ∃ a, x = .ok a ∧ f a = .ok b := by
  cases x with
  | error | ok => simp [bind, Except.bind]

@[simp] theorem ok_bind (a : α) (f : α → Except ε β) : (Except.ok a >>= f) = f a := rfl

@[simp] theorem error_bind (e : ε) (f : α → Except ε β) : (Except.error e >>= f) = .error e := rfl

@[simp] theorem pure_eq_ok (a : α) : (pure a : Except ε α) = .ok a := rfl

theorem map_eq_ok {f : α → β} : x.map f = .ok b ↔ ∃ a, x = .ok a ∧ f a = b := by
  cases x <;> simp [Except.map]

theorem mapError_eq_ok {δ : Type*} {f : ε → δ} : x.mapError f = .ok a ↔ x = .ok a := by
  cases x <;> simp [Except.mapError]

/-- `ok_or`: the value of an option, or the given error. -/
def okOr (x : Option α) (e : ε) : Except ε α :=
  match x with
  | some a => .ok a
  | none => .error e

@[simp] theorem okOr_some (a : α) (e : ε) : okOr (some a) e = .ok a := rfl

@[simp] theorem okOr_none (e : ε) : okOr (none : Option α) e = .error e := rfl

theorem okOr_eq_ok {x : Option α} {e : ε} : okOr x e = .ok a ↔ x = some a := by
  cases x <;> simp

/-- Continue with a value and the proof that the computation returned it. -/
def withProof (x : Except ε α) (f : (a : α) → x = .ok a → β) : Except ε β :=
  match x, f with
  | .ok a, f => .ok (f a rfl)
  | .error e, _ => .error e

theorem withProof_of_ok {f : (a : α) → x = .ok a → β} (h : x = .ok a) :
    withProof x f = .ok (f a h) := by
  subst h
  rfl

theorem withProof_eq_ok {f : (a : α) → x = .ok a → β} :
    withProof x f = .ok b ↔ ∃ a h, f a h = b := by
  cases x with
  | error | ok => simp [withProof]

theorem exists_of_isOk (h : x.isOk = true) : ∃ a, x = .ok a := by
  cases x with
  | error => cases h
  | ok a => exact ⟨a, rfl⟩

/-- A guard that fails with `e` when the condition `bad` holds. -/
theorem ite_error_eq_ok {bad : Prop} [Decidable bad] {e : ε} :
    (if bad then .error e else x) = .ok a ↔ ¬bad ∧ x = .ok a := by
  by_cases h : bad <;> simp [h]

/-- When a fallible computation returns: one rule set for `simp only`. -/
theorem eq_ok : (∀ {ε α β : Type} {x : Except ε α} {f : α → Except ε β} {b : β},
      (x >>= f) = .ok b ↔ ∃ a, x = .ok a ∧ f a = .ok b) ∧
    (∀ {ε α : Type} {x : Except ε α} {bad : Prop} [Decidable bad] {e : ε} {a : α},
      (if bad then .error e else x) = .ok a ↔ ¬bad ∧ x = .ok a) ∧
    (∀ {ε δ α : Type} {x : Except ε α} {f : ε → δ} {a : α}, x.mapError f = .ok a ↔ x = .ok a) ∧
    (∀ {ε α : Type} {x : Option α} {e : ε} {a : α}, okOr x e = .ok a ↔ x = some a) ∧
    ∀ {ε α : Type} {a b : α}, (.ok a : Except ε α) = .ok b ↔ a = b :=
  ⟨bind_eq_ok, ite_error_eq_ok, mapError_eq_ok, okOr_eq_ok, by simp⟩

theorem foldlM_ok (step : σ → γ → σ) (l : List γ) (s : σ) :
    l.foldlM (fun s c => (Except.ok (step s c) : Except ε σ)) s = .ok (l.foldl step s) := by
  induction l generalizing s with
  | nil => rfl
  | cons c l ih => exact ih (step s c)

/-- Two fallible functions that invert each other wherever they succeed. -/
structure Inverse {γ : Type*} (encode : α → Except ε γ) (decode : γ → Except ε α) : Prop where
  decode_encode : ∀ a c, encode a = .ok c → decode c = .ok a
  encode_decode : ∀ c a, decode c = .ok a → encode a = .ok c

/-- Read a value, and accept it only if it encodes to the same again. -/
def canonical {γ : Type v} [DecidableEq γ] (invalid : ε) (read : γ → Except ε α)
    (encode : α → Except ε γ) (c : γ) : Except ε α := do
  let a ← read c
  let again ← encode a
  if again ≠ c then .error invalid else .ok a

theorem canonical_inverse {γ : Type v} [DecidableEq γ] {invalid : ε} {read : γ → Except ε α}
    {encode : α → Except ε γ} (h : ∀ a c, encode a = .ok c → read c = .ok a) :
    Inverse encode (canonical invalid read encode) where
  decode_encode a c hc := by
    rw [canonical, h a c hc, ok_bind, hc, ok_bind, if_neg (not_not.mpr rfl)]
  encode_decode c a hc := by
    obtain ⟨a', -, hc⟩ := bind_eq_ok.mp hc
    obtain ⟨again, hagain, hc⟩ := bind_eq_ok.mp hc
    obtain ⟨hsame, hok⟩ := ite_error_eq_ok.mp hc
    cases hok
    rw [hagain, not_not.mp hsame]

theorem mapM_map_eq_ok {f : α → γ} {g : γ → Except ε α} (h : ∀ a ∈ l, g (f a) = .ok a) :
    (l.map f).mapM g = .ok l := by
  induction l with
  | nil => rfl
  | cons a l ih =>
    rw [map_cons, mapM_cons, h a mem_cons_self, ok_bind, ih (forall_mem_cons.mp h).2]
    rfl

theorem forall₂_exists {R : α → β → Prop} {l : List α} {l' : List β} (h : List.Forall₂ R l l')
    {a : α} (ha : a ∈ l) : ∃ b ∈ l', R a b := by
  induction h with
  | nil => exact absurd ha not_mem_nil
  | @cons x b _ _ hR _ ih =>
    rcases mem_cons.mp ha with rfl | ha
    · exact ⟨b, mem_cons_self, hR⟩
    · obtain ⟨b', hb', hR'⟩ := ih ha
      exact ⟨b', mem_cons_of_mem _ hb', hR'⟩

theorem forall₂_of_mapM {out : List β} (h : l.mapM f = .ok out) :
    List.Forall₂ (fun a b => f a = .ok b) l out := by
  induction l generalizing out with
  | nil =>
    cases h
    exact .nil
  | cons a l ih =>
    simp only [mapM_cons, bind_eq_ok, pure_eq_ok, Except.ok.injEq] at h
    obtain ⟨b, hb, rest, hrest, rfl⟩ := h
    exact .cons hb (ih hrest)

theorem exists_of_mapM {out : List β} (h : l.mapM f = .ok out) (ha : a ∈ l) :
    ∃ b ∈ out, f a = .ok b :=
  forall₂_exists (forall₂_of_mapM h) ha

theorem mapM_ok_of_forall (h : ∀ a ∈ l, ∃ b, f a = .ok b) : ∃ out, l.mapM f = .ok out := by
  induction l with
  | nil => exact ⟨[], rfl⟩
  | cons a l ih =>
    obtain ⟨b, hb⟩ := h a mem_cons_self
    obtain ⟨out, hout⟩ := ih fun c hc => h c (mem_cons_of_mem a hc)
    rw [mapM_cons, hb, ok_bind, hout]
    exact ⟨b :: out, rfl⟩

theorem foldlM_invariant_mem {P : σ → Prop} {l : List γ}
    (hstep : ∀ s c s', c ∈ l → P s → step s c = .ok s' → P s') (hs : P s)
    (h : l.foldlM step s = .ok s') : P s' := by
  induction l generalizing s with
  | nil =>
    simp only [foldlM_nil, pure_eq_ok, Except.ok.injEq] at h
    exact h ▸ hs
  | cons c l ih =>
    rw [foldlM_cons, bind_eq_ok] at h
    obtain ⟨s₁, hs₁, hrest⟩ := h
    have hfirst := hstep s c s₁ mem_cons_self hs hs₁
    exact ih (fun s c s' hc => hstep s c s' (mem_cons_of_mem _ hc)) hfirst hrest

theorem foldlM_invariant {P : σ → Prop} (hstep : ∀ s c s', P s → step s c = .ok s' → P s')
    {l : List γ} (hs : P s) (h : l.foldlM step s = .ok s') : P s' :=
  foldlM_invariant_mem (fun s c s' _ => hstep s c s') hs h

/-- What the step at an entry establishes and later steps keep, holds for every entry at the end. -/
theorem foldlM_establishes {Q : γ → σ → Prop} (hset : ∀ s c s', step s c = .ok s' → Q c s')
    (hkeep : ∀ s c s' d, Q d s → step s c = .ok s' → Q d s') {l : List γ}
    (h : l.foldlM step s = .ok s') : ∀ c ∈ l, Q c s' := by
  induction l generalizing s with
  | nil => simp
  | cons c l ih =>
    rw [foldlM_cons, bind_eq_ok] at h
    obtain ⟨s₁, hs₁, hrest⟩ := h
    exact forall_mem_cons.mpr
      ⟨foldlM_invariant (fun s d s' => hkeep s d s' c) (hset s c s₁ hs₁) hrest, ih hrest⟩

/-- A loop that collects the keys of its entries and fails on a repeated one. -/
theorem foldlM_distinct {κ : Type v} {step : List κ → γ → Except ε (List κ)} {P : γ → Prop}
    {keys : γ → List κ} {l : List γ}
    (hstep : ∀ c ∈ l, ∀ seen r, step seen c = .ok r ↔ P c ∧ (keys c).Nodup ∧
      (∀ k ∈ keys c, k ∉ seen) ∧ r = (keys c).reverse ++ seen)
    {seen r : List κ} :
    l.foldlM step seen = .ok r ↔ (∀ c ∈ l, P c) ∧ (l.flatMap keys).Nodup ∧
      (∀ k ∈ l.flatMap keys, k ∉ seen) ∧ r = (l.flatMap keys).reverse ++ seen := by
  induction l generalizing seen with
  | nil => simp [eq_comm]
  | cons c l ih =>
    replace ih := @ih fun d hd => hstep d (mem_cons_of_mem c hd)
    replace hstep := hstep c mem_cons_self
    rw [foldlM_cons, bind_eq_ok, forall_mem_cons, flatMap_cons, nodup_append,
      reverse_append, append_assoc]
    constructor
    · rintro ⟨middle, hfirst, hrest⟩
      obtain ⟨hc, hnodup, hnew, rfl⟩ := (hstep _ _).mp hfirst
      obtain ⟨hl, hnodup', hnew', rfl⟩ := ih.mp hrest
      refine ⟨⟨hc, hl⟩, ⟨hnodup, hnodup', ?_⟩, ?_, rfl⟩
      · rintro k hk k' hk' rfl
        exact hnew' k hk' (mem_append_left _ (mem_reverse.mpr hk))
      · intro k hk
        rcases mem_append.mp hk with hk | hk
        · exact hnew k hk
        · exact fun hseen => hnew' k hk (mem_append_right _ hseen)
    · rintro ⟨⟨hc, hl⟩, ⟨hnodup, hnodup', hapart⟩, hnew, rfl⟩
      refine ⟨(keys c).reverse ++ seen, (hstep _ _).mpr ⟨hc, hnodup, ?_, rfl⟩,
        ih.mpr ⟨hl, hnodup', ?_, rfl⟩⟩
      · exact fun k hk => hnew k (mem_append_left _ hk)
      · intro k hk hmem
        rcases mem_append.mp hmem with hmem | hmem
        · exact hapart k (mem_reverse.mp hmem) k hk rfl
        · exact hnew k (mem_append_right _ hk) hmem

/-- Whatever error a computation fails with satisfies `P`. -/
def FailsWith (P : ε → Prop) (x : Except ε α) : Prop := ∀ e, x = .error e → P e

namespace FailsWith

variable {P : ε → Prop}

theorem ok (a : α) : FailsWith P (.ok a : Except ε α) := fun _ h => by cases h

theorem error {e : ε} (h : P e) : FailsWith P (.error e : Except ε α) := fun _ he => by
  cases he
  exact h

variable {x : Except ε α}

theorem bind_of_ok {f : α → Except ε β} (hx : FailsWith P x)
    (hf : ∀ a, x = .ok a → FailsWith P (f a)) : FailsWith P (x >>= f) := by
  intro e h
  cases x with
  | error =>
    cases h
    exact hx e rfl
  | ok a => exact hf a rfl e h

theorem bind {f : α → Except ε β} (hx : FailsWith P x) (hf : ∀ a, FailsWith P (f a)) :
    FailsWith P (x >>= f) :=
  bind_of_ok hx fun a _ => hf a

theorem map (hx : FailsWith P x) (f : α → β) : FailsWith P (x.map f) := by
  intro e he
  cases x with
  | error =>
    cases he
    exact hx e rfl
  | ok => cases he

section

variable {δ : Type*} {x : Except δ α} {f : δ → ε}

theorem mapError_of {Q : δ → Prop} (hx : FailsWith Q x) (h : ∀ e, Q e → P (f e)) :
    FailsWith P (x.mapError f) := by
  intro e he
  cases x with
  | error e' =>
    cases he
    exact h e' (hx e' rfl)
  | ok => cases he

end

theorem okOr {x : Option α} {e : ε} (h : P e) : FailsWith P (okOr x e) := by
  cases x with
  | none => exact .error h
  | some a => exact .ok a

theorem ite {c : Prop} [Decidable c] {y : Except ε α} (hx : FailsWith P x) (hy : FailsWith P y) :
    FailsWith P (if c then x else y) := by
  split
  · exact hx
  · exact hy

end FailsWith

/-- What one round of a convergence loop decides: another round from a new state, or a result. -/
inductive Round (σ ρ : Type v) where
  | again (state : σ)
  | done (result : ρ)

def Round.map {σ ρ ρ' : Type v} (f : ρ → ρ') : Round σ ρ → Round σ ρ'
  | again state => again state
  | done result => done (f result)

/-- Up to `rounds` rounds, numbered from `n`; after the last the loop fails as `exhausted` does. -/
def converge {m : Type v → Type w} [Monad m] {σ ρ : Type v} (body : ℕ → σ → m (Round σ ρ))
    (exhausted : m ρ) : ℕ → ℕ → σ → m ρ
  | 0, _, _ => exhausted
  | rounds + 1, n, state => do
    match ← body n state with
    | .again state => converge body exhausted rounds (n + 1) state
    | .done result => pure result

/-- Whatever a loop returns, one of its rounds decided. -/
theorem exists_round_of_converge {ρ : Type v} {body : ℕ → σ → Except ε (Round σ ρ)} {exhausted : ε}
    {rounds n : ℕ} {state : σ} {result : ρ}
    (h : converge body (.error exhausted) rounds n state = .ok result) :
    ∃ m last, body m last = .ok (.done result) := by
  induction rounds generalizing n state with
  | zero => cases h
  | succ rounds ih =>
    obtain ⟨round, hbody, h⟩ := bind_eq_ok.mp h
    cases round with
    | again => exact ih h
    | done =>
      cases h
      exact ⟨n, state, hbody⟩

theorem round_map_eq_done {ρ ρ' : Type v} {x : Except ε (Round σ ρ)} {f : ρ → ρ'} {r : ρ'} :
    x.map (Round.map f) = .ok (.done r) ↔ ∃ a, x = .ok (.done a) ∧ f a = r := by
  rw [map_eq_ok]
  constructor
  · rintro ⟨round, hx, hmap⟩
    cases round with
    | again => cases hmap
    | done a =>
      cases hmap
      exact ⟨a, hx, rfl⟩
  · rintro ⟨a, hx, rfl⟩
    exact ⟨.done a, hx, rfl⟩

end Result
