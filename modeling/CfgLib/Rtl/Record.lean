import CfgLib.Graph.View
import Mathlib.Data.List.Nodup

/-!
# Sealed instruction records

`ir/rtl/statement.rs` and `ir/rtl/view.rs`: the parts of a record and a function of
such records.  The fields that are propositions are the contract that a consumer
checks when it seals a record.
-/

namespace CfgLib.Rtl

/-- A contiguous range of bits, counted from the least significant one. -/
structure BitSlice where
  offset : Nat
  width : Nat
  deriving DecidableEq

/-- The range that covers a whole root of type `width`. -/
def BitSlice.whole (width : Nat) : BitSlice := ⟨0, width⟩

def BitSlice.last (slice : BitSlice) : Nat := slice.offset + slice.width

structure Place (ρ : Type) where
  root : ρ
  slice : BitSlice

/-- Where a read takes its bits from; indices, keys and results are value handles. -/
inductive Selection (ρ : Type) where
  | direct (place : Place ρ)
  | finiteIndexed (index : Nat) (candidates : List (Place ρ))
  | sparseIndexed (bank : ρ) (key : Nat) (slice : BitSlice)

/-- What one span of a written root receives. -/
inductive Action where
  | preservePreState
  | takeInput (value offset : Nat)
  | nondeterministic

structure SpanAction where
  span : BitSlice
  action : Action

inductive WriteTarget (ρ : Type) where
  | root (root : ρ) (plan : List SpanAction)
  | finiteIndexed (index : Nat) (candidates : List (Place ρ)) (value : Nat)
  | sparseIndexed (bank : ρ) (key : Nat) (slice : BitSlice) (value : Nat)

/-- The control boundary that ends an instruction. -/
inductive Control where
  | advance
  | jump (target : Nat)
  | branch (condition taken : Nat) (notTaken : Option Nat)
  | call (target : Nat)
  | return (target : Nat)
  | dispatch (scrutinee : Nat)
  | terminating

def Control.isCall : Control → Bool
  | .call _ => true
  | _ => false

structure ValueRange where
  first : Nat
  len : Nat

def ValueRange.values (range : ValueRange) : List Nat :=
  (List.range range.len).map fun i => range.first + i

inductive Statement (ρ ω : Type) where
  | read (result : Nat) (source : Selection ρ)
  | constant (result : Nat) (words : List (BitVec 64)) (width : Nat)
  | apply (results : ValueRange) (operator : ω) (args : List Nat)
  | nondet (result width : Nat)
  | effect (results : ValueRange) (args : List Nat)
  | raise (guard : Option Nat) (payload : List Nat) (binds : List (ρ × Nat))
  | write (target : WriteTarget ρ)

variable {ρ ω : Type}

def Statement.results : Statement ρ ω → List Nat
  | .read result _ | .constant result _ _ | .nondet result _ => [result]
  | .apply results _ _ | .effect results _ => results.values
  | .raise _ _ _ | .write _ => []

def Selection.roots : Selection ρ → List ρ
  | .direct place => [place.root]
  | .finiteIndexed _ candidates => candidates.map (·.root)
  | .sparseIndexed bank _ _ => [bank]

def WriteTarget.roots : WriteTarget ρ → List ρ
  | .root written _ => [written]
  | .finiteIndexed _ candidates _ => candidates.map (·.root)
  | .sparseIndexed bank _ _ _ => [bank]

def Statement.roots : Statement ρ ω → List ρ
  | .read _ source => source.roots
  | .write target => target.roots
  | .raise _ _ binds => binds.map Prod.fst
  | .constant _ _ _ | .apply _ _ _ | .nondet _ _ | .effect _ _ => []

def Place.Inside (rootWidth : ρ → Nat) (place : Place ρ) : Prop :=
  place.slice.last ≤ rootWidth place.root

/-- The places a read chooses from lie in their roots and have the type of its result. -/
def Selection.Typed (rootWidth : ρ → Nat) (width : Nat) : Selection ρ → Prop
  | .direct place => place.Inside rootWidth ∧ place.slice.width = width
  | .finiteIndexed _ candidates =>
    ∀ place ∈ candidates, place.Inside rootWidth ∧ place.slice.width = width
  | .sparseIndexed _ _ slice => slice.width = width

/-- A plan covers its whole root and nothing past it, and candidates lie in their roots. -/
def WriteTarget.Covers (rootWidth : ρ → Nat) : WriteTarget ρ → Prop
  | .root written plan =>
    (∀ part ∈ plan, part.span.last ≤ rootWidth written) ∧
      ∀ k < rootWidth written, ∃ part ∈ plan, part.span.offset ≤ k ∧ k < part.span.last
  | .finiteIndexed _ candidates _ => ∀ place ∈ candidates, place.Inside rootWidth
  | .sparseIndexed _ _ _ _ => True

def Statement.Typed (rootWidth : ρ → Nat) (width : Nat → Nat) : Statement ρ ω → Prop
  | .read result source => source.Typed rootWidth (width result)
  | .constant result _ declared => declared = width result
  | .write target => target.Covers rootWidth
  | .apply _ _ _ | .nondet _ _ | .effect _ _ | .raise _ _ _ => True

/-- One sealed record: each value has one definition and every statement is well typed. -/
structure Record (ρ ω : Type) (rootWidth : ρ → Nat) where
  statements : List (Statement ρ ω)
  control : Control
  width : Nat → Nat
  fresh : (statements.flatMap Statement.results).Nodup
  typed : ∀ statement ∈ statements, statement.Typed rootWidth width

/-- A function as a graph of blocks of instructions, each with a sealed record; an
instruction stands at one place of the function. -/
structure FunctionView (ρ ω : Type) (rootWidth : ρ → Nat) where
  view : RootedView
  instructions : Nat → List Nat
  record : Nat → Record ρ ω rootWidth
  lawful : view.Lawful
  root_mem : view.root ∈ view.nodeIds
  once : (view.nodeIds.flatMap instructions).Nodup

end CfgLib.Rtl
