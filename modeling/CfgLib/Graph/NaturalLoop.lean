import CfgLib.Graph.Traverse
import CfgLib.Lib.NaturalLoops
import Mathlib.Data.Finset.Basic

/-!
# Natural loops

`graph/structure.rs`: the blocks around back edges to a header that dominates them.
-/

namespace CfgLib

open CfgLib.Lib Relation

/-- A header, the blocks of the loop and those among them that jump back. -/
structure NaturalLoop where
  header : Nat
  body : Finset Nat
  latches : Finset Nat
  /-- 0 for an outermost loop. -/
  depth : Nat

namespace NaturalLoop

/-- The loop is one of the graph: the header dominates the latches, and the body is what
reaches one of them without passing the header. -/
abbrev IsLoopOf (l : NaturalLoop) (v : RootedView) : Prop :=
  IsLoop (v.Adjacent .outgoing) v.root l.header (· ∈ l.latches) (· ∈ l.body)

/-- The loop has all back edges to its header, as loops that share a header are merged. -/
structure IsMergedLoopOf (l : NaturalLoop) (v : RootedView) : Prop where
  loop : l.IsLoopOf v
  all : ∀ a, v.Adjacent .outgoing a l.header → ReflTransGen (v.Adjacent .outgoing) v.root a →
    Dominates (v.Adjacent .outgoing) v.root l.header a → a ∈ l.latches

end NaturalLoop

end CfgLib
