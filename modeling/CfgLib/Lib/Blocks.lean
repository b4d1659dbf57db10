import Mathlib.Data.List.Chain

/-!
# Straight-line blocks

A graph of straight-line blocks against the step relation of a machine.  Where
the blocks cover the steps, the code along the paths from a block is exactly
what the machine runs.
-/

namespace CfgLib.Lib

open List

/-- Straight-line code by block, and which block control reaches next. -/
structure Blocks (α : Type) where
  code : Nat → List α
  joins : Nat → Nat → Prop

namespace Blocks

variable {α : Type} {G : Blocks α} {R : α → α → Prop}

def IsPath (G : Blocks α) (root : Nat) (path : List Nat) : Prop :=
  path.head? = some root ∧ path.IsChain G.joins

def trace (G : Blocks α) (path : List Nat) : List α := path.flatMap G.code

structure Covers (G : Blocks α) (R : α → α → Prop) : Prop where
  nonempty : ∀ a b, G.joins a b → G.code a ≠ [] ∧ G.code b ≠ []
  inside : ∀ b, (G.code b).IsChain R
  joint : ∀ a b, G.joins a b → ∀ x ∈ (G.code a).getLast?, ∀ y ∈ (G.code b).head?, R x y
  step : ∀ b i x y, (G.code b)[i]? = some x → R x y →
    (G.code b)[i + 1]? = some y ∨
      (i + 1 = (G.code b).length ∧ ∃ b', G.joins b b' ∧ (G.code b').head? = some y)

theorem Covers.isChain_trace (h : G.Covers R) {path : List Nat} (hpath : path.IsChain G.joins) :
    (G.trace path).IsChain R := by
  induction path with
  | nil => exact isChain_nil
  | cons a path ih =>
    rw [isChain_cons] at hpath
    change (G.code a ++ G.trace path).IsChain R
    refine isChain_append.mpr ⟨h.inside a, ih hpath.2, ?_⟩
    intro x hx y hy
    cases path with
    | nil => cases hy
    | cons b path =>
      have hjoins : G.joins a b := hpath.1 b rfl
      obtain ⟨first, rest, hcode⟩ := exists_cons_of_ne_nil (h.nonempty a b hjoins).2
      refine h.joint a b hjoins x hx y ?_
      change y ∈ (G.code b ++ G.trace path).head? at hy
      rw [hcode, cons_append] at hy
      rw [hcode]
      exact hy

/-- A run that starts inside a block stays on some path from there. -/
theorem Covers.exists_path (h : G.Covers R) {xs : List α} (hxs : xs.IsChain R) :
    ∀ {b i : Nat}, (∀ x ∈ xs.head?, (G.code b)[i]? = some x) →
      ∃ path, G.IsPath b (b :: path) ∧ xs <+: (G.code b).drop i ++ G.trace path := by
  induction xs with
  | nil => exact fun _ => ⟨[], ⟨rfl, isChain_singleton _⟩, _, rfl⟩
  | cons x xs ih =>
    intro b i hx
    have hat : (G.code b)[i]? = some x := hx x rfl
    obtain ⟨hlt, hget⟩ := List.getElem?_eq_some_iff.mp hat
    have hdrop : (G.code b).drop i = x :: (G.code b).drop (i + 1) := by
      rw [drop_eq_getElem_cons hlt, hget]
    rw [isChain_cons] at hxs
    rw [hdrop]
    cases xs with
    | nil =>
      exact ⟨[], ⟨rfl, isChain_singleton _⟩, (prefix_cons_inj x).mpr ⟨_, rfl⟩⟩
    | cons y ys =>
      rcases h.step b i x y hat (hxs.1 y rfl) with hnext | ⟨hlast, b', hjoins, hhead⟩
      · obtain ⟨path, hpath, hpre⟩ := ih hxs.2 (b := b) (i := i + 1) (by
          intro z hz
          cases hz
          exact hnext)
        exact ⟨path, hpath, (prefix_cons_inj x).mpr hpre⟩
      · obtain ⟨path, hpath, hpre⟩ := ih hxs.2 (b := b') (i := 0) (by
          intro z hz
          cases hz
          rw [← head?_eq_getElem?]
          exact hhead)
        refine ⟨b' :: path, ⟨rfl, ?_⟩, ?_⟩
        · exact isChain_cons_cons.mpr ⟨hjoins, hpath.2⟩
        · rw [hlast, drop_length]
          exact (prefix_cons_inj x).mpr hpre

/-- The runs from the first instruction of a block are the code along the paths
from the block, up to where a run stops. -/
theorem Covers.run_iff (h : G.Covers R) (root : Nat) (xs : List α) :
    ((∀ x ∈ xs.head?, (G.code root).head? = some x) ∧ xs.IsChain R) ↔
      ∃ path, G.IsPath root path ∧ xs <+: G.trace path := by
  constructor
  · intro ⟨hhead, hchain⟩
    obtain ⟨path, hpath, hpre⟩ := h.exists_path hchain (b := root) (i := 0) (by
      intro x hx
      rw [← head?_eq_getElem?]
      exact hhead x hx)
    exact ⟨root :: path, hpath, hpre⟩
  · intro ⟨path, hpath, hpre⟩
    have hchain : xs.IsChain R := by
      obtain ⟨tail, htail⟩ := hpre
      have htrace := h.isChain_trace hpath.2
      rw [← htail] at htrace
      exact htrace.left_of_append
    refine ⟨?_, hchain⟩
    intro x hx
    obtain ⟨a, rest, rfl⟩ : ∃ a rest, path = a :: rest := by
      cases path with
      | nil => cases hpath.1
      | cons a rest => exact ⟨a, rest, rfl⟩
    cases hpath.1
    have htrace : (G.trace (root :: rest)).head? = some x := by
      obtain ⟨tail, htail⟩ := hpre
      rw [← htail, head?_append, hx]
      rfl
    change (G.code root ++ G.trace rest).head? = some x at htrace
    cases hcode : G.code root with
    | nil =>
      cases rest with
      | nil =>
        rw [hcode] at htrace
        cases htrace
      | cons b rest =>
        exact absurd hcode (h.nonempty root b (isChain_cons_cons.mp hpath.2).1).1
    | cons first code =>
      rw [hcode] at htrace
      exact htrace

end Blocks

end CfgLib.Lib
