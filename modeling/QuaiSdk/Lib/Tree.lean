import Mathlib.Data.List.Nodup
import Mathlib.Logic.Relation

/-!
# Trees that grow

A rooted tree as its edges in the order in which they came: each hangs a new node under one that is
already there.
-/

namespace Tree

open List

variable {N : Type*}

def nodes (root : N) (edges : List (N × N)) : List N := root :: edges.map Prod.snd

inductive Grown (root : N) : List (N × N) → Prop where
  | nil : Grown root []
  | snoc {edges : List (N × N)} {parent node : N} (h : Grown root edges)
      (hparent : parent ∈ nodes root edges) (hnew : node ∉ nodes root edges) :
      Grown root (edges ++ [(parent, node)])

def Edge (edges : List (N × N)) (a b : N) : Prop := (a, b) ∈ edges

theorem nodes_concat (root : N) (edges : List (N × N)) (e : N × N) :
    nodes root (edges ++ [e]) = nodes root edges ++ [e.2] := by
  rw [nodes, map_append]; rfl

namespace Grown

variable {root : N} {edges : List (N × N)}

variable (h : Grown root edges)

include h

theorem nodup : (nodes root edges).Nodup := by
  induction h with
  | nil => exact nodup_singleton _
  | snoc h hparent hnew ih =>
    rw [nodes_concat, nodup_append]
    refine ⟨ih, nodup_singleton _, ?_⟩
    intro a ha b hb heq
    rw [heq, mem_singleton.mp hb] at ha
    exact hnew ha

theorem parent_mem {front back : List (N × N)} {e : N × N}
    (hsplit : edges = front ++ e :: back) : e.1 ∈ nodes root front := by
  induction h generalizing back with
  | nil => simp at hsplit
  | @snoc edges parent node h hparent hnew ih =>
    rcases eq_nil_or_concat back with rfl | ⟨back, last, rfl⟩
    · obtain ⟨rfl, he⟩ := append_inj' hsplit rfl
      cases he
      exact hparent
    · rw [concat_eq_append, ← cons_append, ← append_assoc] at hsplit
      exact ih (append_inj' hsplit rfl).1

theorem edge_mem {a b : N} (he : Edge edges a b) : a ∈ nodes root edges ∧ b ∈ nodes root edges := by
  refine ⟨?_, mem_cons_of_mem _ (mem_map_of_mem he)⟩
  obtain ⟨front, back, rfl⟩ := append_of_mem he
  have hfront := h.parent_mem rfl
  rw [nodes, map_append, ← cons_append]
  exact mem_append_left _ hfront

theorem rooted : ∀ n ∈ nodes root edges, Relation.ReflTransGen (Edge edges) root n := by
  induction h with
  | nil =>
    intro n hn
    rw [mem_singleton.mp hn]
  | @snoc edges parent node h hparent hnew ih =>
    have hmono : ∀ a b, Edge edges a b → Edge (edges ++ [(parent, node)]) a b :=
      fun a b he => mem_append_left _ he
    have hold : ∀ n ∈ nodes root edges,
        Relation.ReflTransGen (Edge (edges ++ [(parent, node)])) root n :=
      fun n hn => Relation.ReflTransGen.mono hmono _ _ (ih n hn)
    intro n hn
    rw [nodes_concat, mem_append, mem_singleton] at hn
    rcases hn with hn | rfl
    · exact hold n hn
    · exact (hold parent hparent).tail (mem_append_right _ (mem_singleton_self _))

theorem exists_rank : ∃ rank : N → ℕ, ∀ a b, Edge edges a b → rank a < rank b := by
  classical
  induction h with
  | nil => exact ⟨fun _ => 0, fun a b he => absurd he not_mem_nil⟩
  | @snoc edges parent node h hparent hnew ih =>
    obtain ⟨rank, hrank⟩ := ih
    have hother : ∀ n ∈ nodes root edges, n ≠ node := fun n hn heq => hnew (heq ▸ hn)
    refine ⟨Function.update rank node (rank parent + 1), ?_⟩
    intro a b he
    rcases mem_append.mp he with he | he
    · obtain ⟨ha, hb⟩ := h.edge_mem he
      rw [Function.update_of_ne (hother a ha), Function.update_of_ne (hother b hb)]
      exact hrank a b he
    · cases mem_singleton.mp he
      rw [Function.update_self, Function.update_of_ne (hother parent hparent)]
      exact Nat.lt_succ_self _

theorem acyclic (n : N) : ¬Relation.TransGen (Edge edges) n n := by
  obtain ⟨rank, hrank⟩ := h.exists_rank
  have hlt : ∀ a b, Relation.TransGen (Edge edges) a b → rank a < rank b := by
    intro a b hab
    induction hab with
    | single he => exact hrank _ _ he
    | tail _ he ih => exact Nat.lt_trans ih (hrank _ _ he)
  exact fun hcycle => Nat.lt_irrefl _ (hlt n n hcycle)

end Grown

end Tree
