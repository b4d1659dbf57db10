import Mathlib.Data.List.Induction
import Mathlib.Logic.Relation

/-!
# Topological lists

Lists in which every element stands after what leads to it.  Such a list is built one
element at a time, and no cycle passes through it.
-/

namespace CfgLib.Lib

open Relation

variable {α : Type} {R : α → α → Prop} {l : List α}

/-- What leads to a listed element is listed before it. -/
def Topological (R : α → α → Prop) (l : List α) : Prop :=
  ∀ before u after, l = before ++ u :: after → ∀ v, R v u → v ∈ before

theorem topological_nil : Topological R [] := by
  intro before u after hsplit
  simp at hsplit

theorem Topological.concat (h : Topological R l) {u : α} (hu : ∀ v, R v u → v ∈ l) : Topological R (l ++ [u]) := by
  intro before x after hsplit v hv
  rcases List.eq_nil_or_concat after with rfl | ⟨after, y, rfl⟩
  · obtain ⟨rfl, hx⟩ := List.append_inj' hsplit rfl
    rw [← List.head_eq_of_cons_eq hx] at hv
    exact hu v hv
  · have hsplit' : l ++ [u] = (before ++ x :: after) ++ [y] := by
      rw [hsplit, List.concat_eq_append, List.append_assoc, List.cons_append]
    exact h before x after (List.append_inj' hsplit' rfl).1 v hv

theorem Topological.of_append {l' : List α} (h : Topological R (l ++ l')) : Topological R l := by
  intro before u after hsplit
  apply h before u (after ++ l')
  rw [hsplit, List.append_assoc, List.cons_append]

theorem Topological.acc (h : Topological R l) : ∀ u ∈ l, Acc R u := by
  induction l using List.reverseRecOn with
  | nil => exact fun u hu => absurd hu List.not_mem_nil
  | append_singleton l last ih =>
    intro u hu
    rcases List.mem_append.mp hu with hu | hu
    · exact ih h.of_append u hu
    · rw [List.mem_singleton.mp hu]
      exact Acc.intro last fun v hv => ih h.of_append v (h l last [] rfl v hv)

theorem Topological.acyclic (h : Topological R l) {u : α} (hu : u ∈ l) : ¬ TransGen R u u := by
  have hacc := (h.acc u hu).transGen
  clear hu
  induction hacc with
  | intro x _ ih => exact fun hcycle => ih x hcycle hcycle

end CfgLib.Lib
