import Mathlib.Tactic.Ring

/-!
# Prefix codes

Codes that can be split off the front of any longer string.  Concatenations of such codes are read
back in one way only, which is what a hash over them needs in order to bind what they encode.
-/

namespace PrefixCode

open List

variable {α β : Type*}

/-- The code of an element of the domain ends where it ends, whatever follows. -/
def PrefixFree (domain : Set α) (code : α → List β) : Prop :=
  ∀ a ∈ domain, ∀ a' ∈ domain, ∀ rest rest', code a ++ rest = code a' ++ rest' → a = a' ∧ rest = rest'

variable {domain : Set α} {code : α → List β}

theorem PrefixFree.flatMap_inj (h : PrefixFree domain code) (hne : ∀ a ∈ domain, code a ≠ [])
    {l l' : List α} (hl : ∀ a ∈ l, a ∈ domain) (hl' : ∀ a ∈ l', a ∈ domain)
    (heq : l.flatMap code = l'.flatMap code) : l = l' := by
  induction l generalizing l' with
  | nil =>
    cases l' with
    | nil => rfl
    | cons a =>
      rw [flatMap_nil, flatMap_cons, eq_comm, append_eq_nil_iff] at heq
      exact absurd heq.1 (hne a (hl' a mem_cons_self))
  | cons a l ih =>
    cases l' with
    | nil =>
      rw [flatMap_nil, flatMap_cons, append_eq_nil_iff] at heq
      exact absurd heq.1 (hne a (hl a mem_cons_self))
    | cons a' =>
      obtain ⟨rfl, hrest⟩ := h a (hl a mem_cons_self) a' (hl' a' mem_cons_self) _ _ heq
      rw [ih (forall_mem_cons.mp hl).2 (forall_mem_cons.mp hl').2 hrest]

/-- Groups of seven bits, least significant first, at most `rounds` beyond the last. -/
def varintIn : ℕ → ℕ → List UInt8
  | 0, n => [UInt8.ofNat n]
  | rounds + 1, n =>
    if n < 128 then [UInt8.ofNat n] else UInt8.ofNat (n % 128 + 128) :: varintIn rounds (n / 128)

/-- The base-128 code of a number; its binary length is more than enough rounds. -/
def varint (n : ℕ) : List UInt8 := varintIn n.log2 n

theorem varintIn_ne_nil (rounds n : ℕ) : varintIn rounds n ≠ [] := by
  cases rounds with
  | zero => exact cons_ne_nil _ _
  | succ =>
    rw [varintIn]
    split
    · exact cons_ne_nil _ _
    · exact cons_ne_nil _ _

theorem varint_ne_nil (n : ℕ) : varint n ≠ [] := varintIn_ne_nil _ n

theorem varintIn_cases {rounds n : ℕ} (h : n < 128 ^ (rounds + 1)) :
    (n < 128 ∧ varintIn rounds n = [UInt8.ofNat n]) ∨
      (¬n < 128 ∧ ∃ rounds', n / 128 < 128 ^ (rounds' + 1) ∧
        varintIn rounds n = UInt8.ofNat (n % 128 + 128) :: varintIn rounds' (n / 128)) := by
  cases rounds with
  | zero => exact .inl ⟨by simpa using h, rfl⟩
  | succ rounds =>
    by_cases hsmall : n < 128
    · exact .inl ⟨hsmall, by rw [varintIn, if_pos hsmall]⟩
    · refine .inr ⟨hsmall, rounds, ?_, by rw [varintIn, if_neg hsmall]⟩
      rw [Nat.div_lt_iff_lt_mul (by decide), ← Nat.pow_succ]
      exact h

theorem varintIn_split {rounds rounds' n n' : ℕ} (hn : n < 128 ^ (rounds + 1))
    (hn' : n' < 128 ^ (rounds' + 1)) {rest rest' : List UInt8}
    (h : varintIn rounds n ++ rest = varintIn rounds' n' ++ rest') : n = n' ∧ rest = rest' := by
  have hbyte : ∀ {a b : ℕ}, a < 256 → b < 256 → UInt8.ofNat a = UInt8.ofNat b → a = b := by
    intro a b ha hb hab
    have := congrArg UInt8.toNat hab
    simpa [Nat.mod_eq_of_lt ha, Nat.mod_eq_of_lt hb] using this
  induction n using Nat.strong_induction_on generalizing rounds rounds' n' with
  | _ n ih =>
    rcases varintIn_cases hn with ⟨hsmall, hcode⟩ | ⟨hlarge, k, hk, hcode⟩
    · rcases varintIn_cases hn' with ⟨hsmall', hcode'⟩ | ⟨hlarge', k', hk', hcode'⟩
      · rw [hcode, hcode', singleton_append, singleton_append, cons.injEq] at h
        exact ⟨hbyte (by omega) (by omega) h.1, h.2⟩
      · rw [hcode, hcode', singleton_append, cons_append, cons.injEq] at h
        have := hbyte (by omega) (by omega) h.1
        omega
    · rcases varintIn_cases hn' with ⟨hsmall', hcode'⟩ | ⟨hlarge', k', hk', hcode'⟩
      · rw [hcode, hcode', singleton_append, cons_append, cons.injEq] at h
        have := hbyte (by omega) (by omega) h.1
        omega
      · rw [hcode, hcode', cons_append, cons_append, cons.injEq] at h
        have hlow := hbyte (by omega) (by omega) h.1
        obtain ⟨hhigh, hrest⟩ := ih (n / 128) (by omega) hk hk' h.2
        exact ⟨by omega, hrest⟩

theorem prefixFree_varint : PrefixFree Set.univ varint := by
  have hbound : ∀ n : ℕ, n < 128 ^ (n.log2 + 1) := fun n =>
    lt_of_lt_of_le Nat.lt_log2_self (Nat.pow_le_pow_left (by decide) _)
  intro n _ n' _ rest rest' h
  exact varintIn_split (hbound n) (hbound n') h

theorem prefixFree_counted : PrefixFree Set.univ fun b : List UInt8 => varint b.length ++ b := by
  intro b _ b' _ rest rest' h
  rw [append_assoc, append_assoc] at h
  obtain ⟨hlength, h⟩ := prefixFree_varint _ trivial _ trivial _ _ h
  exact append_inj h hlength

end PrefixCode
