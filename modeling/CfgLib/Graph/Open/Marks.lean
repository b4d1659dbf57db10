import Mathlib.Data.Finset.Basic
import Mathlib.Data.List.Nodup

/-!
# The visited marks of an open walk

`graph/open/marks.rs`: a short list until it is full, a set from then on.  Both
forms answer as the set of the nodes marked and not taken back.
-/

namespace CfgLib

open List

/-- Marks kept inline before the list spills into a set. -/
def inlineNodes : Nat := 8

/-- The nodes a walk has marked. -/
inductive Marks (N : Type) where
  | few (nodes : List N)
  | many (nodes : Finset N)

namespace Marks

variable {N : Type} [DecidableEq N]

def new : Marks N := .few []

def contains : Marks N → N → Bool
  | .few nodes, node => decide (node ∈ nodes)
  | .many nodes, node => decide (node ∈ nodes)

/-- Mark a node, and report whether it was unmarked. -/
def insert : Marks N → N → Bool × Marks N
  | .few nodes, node =>
    if node ∈ nodes then (false, .few nodes)
    else if nodes.length < inlineNodes then (true, .few (nodes ++ [node]))
    else (true, .many (Insert.insert node nodes.toFinset))
  | .many nodes, node => (decide (node ∉ nodes), .many (Insert.insert node nodes))

/-- Remove an entry and fill its place with the last. -/
def swapRemove (nodes : List N) (i : Nat) : List N :=
  match nodes.getLast? with
  | some last => (nodes.set i last).dropLast
  | none => nodes

def remove : Marks N → N → Marks N
  | .few nodes, node => .few (if node ∈ nodes then swapRemove nodes (nodes.idxOf node) else nodes)
  | .many nodes, node => .many (nodes.erase node)

/-- The marks are those of `set`, and an inline list holds each once. -/
def Holds (m : Marks N) (set : Finset N) : Prop :=
  (∀ node, m.contains node = true ↔ node ∈ set) ∧ ∀ nodes, m = .few nodes → nodes.Nodup

theorem holds_new : (new : Marks N).Holds ∅ := by
  refine ⟨fun node => by simp [new, contains], fun nodes h => ?_⟩
  cases h
  exact nodup_nil

theorem Holds.insert {m : Marks N} {set : Finset N} (h : m.Holds set) (node : N) :
    (m.insert node).2.Holds (Insert.insert node set) := by
  cases m with
  | few nodes =>
    have hmem : ∀ x, x ∈ nodes ↔ x ∈ set := fun x => by rw [← h.1 x]; simp [contains]
    have hnodup := h.2 nodes rfl
    rw [Marks.insert]
    split
    · next hin =>
      refine ⟨fun x => ?_, fun nodes' heq => ?_⟩
      · rw [Finset.insert_eq_of_mem ((hmem node).mp hin)]
        exact h.1 x
      · cases heq
        exact hnodup
    · next hout =>
      split
      · refine ⟨fun x => ?_, fun nodes' heq => ?_⟩
        · simp [contains, hmem, or_comm]
        · cases heq
          exact nodup_append.mpr ⟨hnodup, nodup_singleton node,
            fun a ha b hb heq => hout (by rw [← mem_singleton.mp hb, ← heq]; exact ha)⟩
      · exact ⟨fun x => by simp [contains, hmem], nofun⟩
  | many nodes =>
    have hmem : ∀ x, x ∈ nodes ↔ x ∈ set := fun x => by rw [← h.1 x]; simp [contains]
    exact ⟨fun x => by simp [Marks.insert, contains, hmem], nofun⟩

omit [DecidableEq N] in
theorem swapRemove_perm {before after : List N} {a : N} :
    (swapRemove (before ++ a :: after) before.length).Perm (before ++ after) := by
  rcases eq_nil_or_concat after with rfl | ⟨middle, last, rfl⟩
  · simp [swapRemove]
  · rw [concat_eq_append]
    have hlast : (before ++ a :: (middle ++ [last])).getLast? = some last := by
      rw [← cons_append, ← append_assoc, getLast?_concat]
    have hset : ((before ++ a :: (middle ++ [last])).set before.length last).dropLast =
        before ++ last :: middle := by
      rw [set_append_right _ _ (Nat.le_refl _), Nat.sub_self, set_cons_zero, ← cons_append,
        ← append_assoc, dropLast_concat]
    rw [swapRemove, hlast]
    dsimp only
    rw [hset]
    exact (perm_append_singleton last middle).symm.append_left before

theorem Holds.remove {m : Marks N} {set : Finset N} (h : m.Holds set) (node : N) :
    (m.remove node).Holds (set.erase node) := by
  cases m with
  | few nodes =>
    have hmem : ∀ x, x ∈ nodes ↔ x ∈ set := fun x => by rw [← h.1 x]; simp [contains]
    have hnodup := h.2 nodes rfl
    rw [Marks.remove]
    split
    · next hin =>
      obtain ⟨before, after, rfl, hbefore⟩ := eq_append_cons_of_mem hin
      have hidx : (before ++ node :: after).idxOf node = before.length := by
        rw [idxOf_append_of_notMem hbefore, idxOf_cons_self, Nat.add_zero]
      have hperm : (swapRemove (before ++ node :: after) before.length).Perm (before ++ after) := swapRemove_perm
      have hnodup' : (node :: (before ++ after)).Nodup := perm_middle.nodup_iff.mp hnodup
      rw [hidx]
      refine ⟨fun x => ?_, fun nodes' heq => ?_⟩
      · have hx := hmem x
        rw [perm_middle.mem_iff, mem_cons] at hx
        rw [contains, decide_eq_true_iff, hperm.mem_iff, Finset.mem_erase, ← hx]
        constructor
        · intro hin
          exact ⟨fun he => (nodup_cons.mp hnodup').1 (he ▸ hin), Or.inr hin⟩
        · rintro ⟨hne, hor⟩
          exact hor.resolve_left hne
      · cases heq
        exact hperm.nodup_iff.mpr (nodup_cons.mp hnodup').2
    · next hout =>
      refine ⟨fun x => ?_, fun nodes' heq => ?_⟩
      · rw [Finset.erase_eq_of_notMem (fun hin => hout ((hmem node).mpr hin))]
        exact h.1 x
      · cases heq
        exact hnodup
  | many nodes =>
    have hmem : ∀ x, x ∈ nodes ↔ x ∈ set := fun x => by rw [← h.1 x]; simp [contains]
    exact ⟨fun x => by simp [Marks.remove, contains, hmem], nofun⟩

end Marks

end CfgLib
