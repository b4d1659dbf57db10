import Mathlib.Data.List.Basic
import Mathlib.Tactic.Common

/-!
# Epoch-stamped marking

`graph/epoch.rs`: a node holds the epoch it was last marked in, so clearing the
marks is a bump of the epoch.  The buffer is walked only when the epoch wraps.
-/

namespace CfgLib

open List

/-- Visited marks over a dense index space, reused from pass to pass. -/
structure EpochMarks where
  /-- Per node, the epoch it was last marked in. -/
  stamps : List Nat
  epoch : Nat
  epoch_pos : 0 < epoch
  epoch_le : epoch ≤ 0xFFFFFFFF
  stamps_le : ∀ stamp ∈ stamps, stamp ≤ epoch

namespace EpochMarks

/-- Marks covering `nodeCount` nodes, with nothing marked. -/
def new (nodeCount : Nat) : EpochMarks where
  stamps := List.replicate nodeCount 0
  epoch := 1
  epoch_pos := Nat.one_pos
  epoch_le := by decide
  stamps_le stamp h := by
    rw [eq_of_mem_replicate h]
    exact Nat.zero_le 1

def capacity (m : EpochMarks) : Nat := m.stamps.length

/-- Clear every mark by moving to a fresh epoch. -/
def reset (m : EpochMarks) : EpochMarks :=
  if h : m.epoch = 0xFFFFFFFF then new m.stamps.length
  else
    { stamps := m.stamps
      epoch := m.epoch + 1
      epoch_pos := Nat.succ_pos _
      epoch_le := by
        have := m.epoch_le
        omega
      stamps_le := fun stamp hs => Nat.le_succ_of_le (m.stamps_le stamp hs) }

def growTo (m : EpochMarks) (nodeCount : Nat) : EpochMarks :=
  { m with
    stamps := m.stamps ++ List.replicate (nodeCount - m.stamps.length) 0
    stamps_le := fun stamp hs => by
      rcases mem_append.mp hs with hs | hs
      · exact m.stamps_le stamp hs
      · rw [eq_of_mem_replicate hs]
        exact Nat.zero_le _ }

def isMarked (m : EpochMarks) (index : Nat) : Bool := m.stamps[index]? == some m.epoch

def mark (m : EpochMarks) (index : Nat) : EpochMarks :=
  { m with
    stamps := m.stamps.set index m.epoch
    stamps_le := fun stamp hs => by
      rcases mem_or_eq_of_mem_set hs with hs | rfl
      · exact m.stamps_le stamp hs
      · exact Nat.le_refl _ }

def unmark (m : EpochMarks) (index : Nat) : EpochMarks :=
  { m with
    stamps := m.stamps.set index 0
    stamps_le := fun stamp hs => by
      rcases mem_or_eq_of_mem_set hs with hs | rfl
      · exact m.stamps_le stamp hs
      · exact Nat.zero_le _ }

@[simp] theorem capacity_unmark (m : EpochMarks) (index : Nat) : (m.unmark index).capacity = m.capacity :=
  length_set

@[simp] theorem capacity_mark (m : EpochMarks) (index : Nat) : (m.mark index).capacity = m.capacity :=
  length_set

@[simp] theorem capacity_reset (m : EpochMarks) : m.reset.capacity = m.capacity := by
  unfold reset
  split
  · exact length_replicate
  · rfl

theorem capacity_growTo (m : EpochMarks) (nodeCount : Nat) :
    (m.growTo nodeCount).capacity = max m.capacity nodeCount := by
  unfold growTo capacity
  rw [length_append, length_replicate]
  omega

theorem isMarked_reset (m : EpochMarks) (index : Nat) : m.reset.isMarked index = false := by
  have hstamp : ∀ stamp ∈ m.reset.stamps, stamp ≠ m.reset.epoch := by
    unfold reset
    split
    · intro stamp hs
      rw [eq_of_mem_replicate hs]
      exact Nat.zero_ne_one
    · intro stamp hs
      exact Nat.ne_of_lt (Nat.lt_succ_of_le (m.stamps_le stamp hs))
  unfold isMarked
  rw [beq_eq_false_iff_ne]
  exact fun h => hstamp _ (mem_of_getElem? h) rfl

theorem isMarked_mark (m : EpochMarks) {index : Nat} (h : index < m.capacity) (other : Nat) :
    (m.mark index).isMarked other = (decide (other = index) || m.isMarked other) := by
  unfold isMarked mark
  dsimp only
  rw [getElem?_set]
  by_cases heq : index = other
  · subst heq
    rw [if_pos rfl, if_pos (show index < m.stamps.length from h)]
    simp
  · rw [if_neg heq, decide_eq_false (Ne.symm heq), Bool.false_or]

theorem isMarked_unmark (m : EpochMarks) (index other : Nat) :
    (m.unmark index).isMarked other = (decide (other ≠ index) && m.isMarked other) := by
  unfold isMarked unmark
  dsimp only
  rw [getElem?_set]
  by_cases heq : index = other
  · subst heq
    rw [if_pos rfl, decide_eq_false (fun hne => hne rfl), Bool.false_and, beq_eq_false_iff_ne]
    split
    · intro h
      exact absurd (Option.some.inj h) (Nat.ne_of_lt m.epoch_pos)
    · exact fun h => by cases h
  · rw [if_neg heq, decide_eq_true (Ne.symm heq), Bool.true_and]

theorem foldl_mark (l : List Nat) : ∀ (m : EpochMarks), (∀ index ∈ l, index < m.capacity) →
    (l.foldl mark m).capacity = m.capacity ∧
      ∀ other, (l.foldl mark m).isMarked other ↔ other ∈ l ∨ m.isMarked other := by
  induction l with
  | nil => exact fun m _ => ⟨rfl, fun other => by simp⟩
  | cons index l ih =>
    intro m hl
    obtain ⟨hcapacity, hmarked⟩ := ih (m.mark index) fun i hi => by
      rw [capacity_mark]
      exact hl i (mem_cons_of_mem index hi)
    refine ⟨hcapacity.trans (capacity_mark m index), fun other => ?_⟩
    rw [foldl_cons, hmarked, isMarked_mark m (hl index mem_cons_self), Bool.or_eq_true,
      decide_eq_true_iff, mem_cons, or_left_comm, or_assoc]

end EpochMarks

end CfgLib
