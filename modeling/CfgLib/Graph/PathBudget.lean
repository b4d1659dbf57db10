import Mathlib.Data.Option.Basic

/-!
# Path budgets

`graph/search/path_budget.rs`: the bounds of a path enumeration, the work counted
against them, and the record of which bound refused work.
-/

namespace CfgLib

structure PathBudget where
  maxPathLength : Option Nat
  maxPathCount : Option Nat
  maxCompletePathCount : Option Nat
  expandedPathCount : Nat
  completePathCount : Nat
  pathLengthLimited : Bool
  pathCountLimited : Bool
  completePathCountLimited : Bool
  deriving DecidableEq, Repr

namespace PathBudget

/-- No bound on the complete paths retained. -/
def new (maxPathLength maxPathCount : Option Nat) : PathBudget :=
  ⟨maxPathLength, maxPathCount, none, 0, 0, false, false, false⟩

def withMaxCompletePathCount (b : PathBudget) (maxCompletePathCount : Option Nat) : PathBudget :=
  { b with maxCompletePathCount := maxCompletePathCount }

/-- Count one more prefix, unless the bound leaves no room for it. -/
def admitExpansion (b : PathBudget) : Bool × PathBudget :=
  if b.maxPathCount.any (· ≤ b.expandedPathCount) then (false, { b with pathCountLimited := true })
  else (true, { b with expandedPathCount := b.expandedPathCount + 1 })

/-- Whether an extension of that many edges fits. -/
def admitLength (b : PathBudget) (extendedLen : Nat) : Bool × PathBudget :=
  if b.maxPathLength.any (· < extendedLen) then (false, { b with pathLengthLimited := true })
  else (true, b)

/-- Count a complete path, and whether it is retained beside `retained` others. -/
def admitComplete (b : PathBudget) (retained : Nat) : Bool × PathBudget :=
  if b.maxCompletePathCount.all (retained < ·) then
    (true, { b with completePathCount := b.completePathCount + 1 })
  else
    (false, { b with completePathCount := b.completePathCount + 1, completePathCountLimited := true })

structure SameBounds (b b' : PathBudget) : Prop where
  length : b'.maxPathLength = b.maxPathLength
  count : b'.maxPathCount = b.maxPathCount
  complete : b'.maxCompletePathCount = b.maxCompletePathCount

theorem SameBounds.refl (b : PathBudget) : SameBounds b b := ⟨rfl, rfl, rfl⟩

theorem SameBounds.trans {b b' b'' : PathBudget} (h : SameBounds b b') (h' : SameBounds b' b'') :
    SameBounds b b'' :=
  ⟨h'.length.trans h.length, h'.count.trans h.count, h'.complete.trans h.complete⟩

theorem sameBounds_admitExpansion (b : PathBudget) : SameBounds b b.admitExpansion.2 := by
  unfold admitExpansion
  split <;> exact ⟨rfl, rfl, rfl⟩

theorem sameBounds_admitLength (b : PathBudget) (n : Nat) : SameBounds b (b.admitLength n).2 := by
  unfold admitLength
  split <;> exact ⟨rfl, rfl, rfl⟩

theorem sameBounds_admitComplete (b : PathBudget) (n : Nat) : SameBounds b (b.admitComplete n).2 := by
  unfold admitComplete
  split <;> exact ⟨rfl, rfl, rfl⟩

/-- Whether a length is within a bound. -/
def fits (maxPathLength : Option Nat) (n : Nat) : Bool := !maxPathLength.any (· < n)

theorem admitLength_fst (b : PathBudget) (n : Nat) : (b.admitLength n).1 = fits b.maxPathLength n := by
  unfold admitLength fits
  split <;> simp_all

theorem admitExpansion_fst_of_none {b : PathBudget} (h : b.maxPathCount = none) : b.admitExpansion.1 = true := by
  simp [admitExpansion, h]

theorem admitComplete_fst_of_none {b : PathBudget} (h : b.maxCompletePathCount = none) (n : Nat) :
    (b.admitComplete n).1 = true := by
  simp [admitComplete, h]

end PathBudget

end CfgLib
