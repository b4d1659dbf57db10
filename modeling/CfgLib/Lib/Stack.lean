import Mathlib.Data.List.Nodup
import Mathlib.Logic.Function.Basic

/-!
# Stacks without repetition

A stack of numbers with a flag for each that is on it: what is on the stack is not
pushed again.
-/

namespace CfgLib.Lib

/-- The stack, its top first, and what is flagged as being on it. -/
structure Stack where
  queued : Nat → Bool
  items : List Nat

namespace Stack

variable {s : Stack} {n : Nat}

def push (s : Stack) (n : Nat) : Stack :=
  if s.queued n then s else ⟨Function.update s.queued n true, n :: s.items⟩

def pop (s : Stack) : Option (Nat × Stack) :=
  match s.items with
  | [] => none
  | n :: rest => some (n, ⟨Function.update s.queued n false, rest⟩)

/-- The flags are those of the items, none of which repeats. -/
structure WF (s : Stack) : Prop where
  nodup : s.items.Nodup
  queued_iff : ∀ n, s.queued n = true ↔ n ∈ s.items

theorem WF.push (h : s.WF) (n : Nat) : (s.push n).WF ∧ ∀ m, m ∈ (s.push n).items ↔ m ∈ s.items ∨ m = n := by
  unfold Stack.push
  split
  · next hq =>
    refine ⟨h, fun m => ⟨Or.inl, ?_⟩⟩
    rintro (hm | rfl)
    · exact hm
    · exact (h.queued_iff m).mp hq
  · next hq =>
    have hiff : ∀ m, m ∈ n :: s.items ↔ m ∈ s.items ∨ m = n := fun m => by
      rw [List.mem_cons, or_comm]
    refine ⟨⟨List.nodup_cons.mpr ⟨fun hmem => hq ((h.queued_iff n).mpr hmem), h.nodup⟩, fun m => ?_⟩, hiff⟩
    rw [hiff, ← h.queued_iff]
    by_cases hm : m = n
    · simp [hm]
    · simp [hm]

theorem WF.pushAll (ns : List Nat) : ∀ {s : Stack}, s.WF →
    (ns.foldl Stack.push s).WF ∧ ∀ m, m ∈ (ns.foldl Stack.push s).items ↔ m ∈ s.items ∨ m ∈ ns := by
  induction ns with
  | nil => exact fun h => ⟨h, fun m => by simp⟩
  | cons n ns ih =>
    intro s h
    obtain ⟨h₁, hiff₁⟩ := h.push n
    obtain ⟨h₂, hiff₂⟩ := ih h₁
    refine ⟨h₂, fun m => ?_⟩
    rw [List.foldl_cons, hiff₂, hiff₁, List.mem_cons, or_assoc]

theorem WF.pop {rest : Stack} (h : s.WF) (hpop : s.pop = some (n, rest)) :
    rest.WF ∧ n ∈ s.items ∧ rest.items.length < s.items.length ∧ ∀ m, m ∈ rest.items ↔ m ∈ s.items ∧ m ≠ n := by
  obtain ⟨queued, items⟩ := s
  cases items with
  | nil => cases hpop
  | cons k items =>
    cases hpop
    obtain ⟨hnot, hnodup⟩ := List.nodup_cons.mp h.nodup
    have hiff : ∀ m, m ∈ items ↔ m ∈ n :: items ∧ m ≠ n := by
      intro m
      rw [List.mem_cons]
      constructor
      · intro hm
        exact ⟨Or.inr hm, fun he => hnot (he ▸ hm)⟩
      · rintro ⟨hm | hm, hne⟩
        · exact absurd hm hne
        · exact hm
    refine ⟨⟨hnodup, fun m => ?_⟩, List.mem_cons_self, Nat.lt_succ_self _, hiff⟩
    rw [hiff, ← h.queued_iff]
    by_cases hm : m = n
    · simp [hm]
    · simp [hm]

theorem pop_eq_none : s.pop = none ↔ s.items = [] := by
  obtain ⟨queued, items⟩ := s
  cases items with
  | nil => simp [pop]
  | cons n items => simp [pop]

/-- Every number of a list, flagged and on the stack, its last on top. -/
def ofList (ns : List Nat) : Stack := ⟨fun n => decide (n ∈ ns), ns.reverse⟩

theorem wf_ofList {ns : List Nat} (h : ns.Nodup) : (ofList ns).WF :=
  ⟨List.nodup_reverse.mpr h, fun n => by simp [ofList]⟩

end Stack

end CfgLib.Lib
