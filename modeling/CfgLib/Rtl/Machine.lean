import CfgLib.Rtl.Resolution
import Mathlib.Logic.Relation

/-!
# The register-transfer machine

`ir/rtl.rs`: reads of a record observe the state before it, its writes collect into
one delta that commits at its boundary, and a raised outcome ends the run.
-/

namespace CfgLib.Rtl

open Relation Function

/-- A bit vector, by its bits from the least significant one. -/
abbrev Value := Nat → Bool

def Value.IsNumber (v : Value) (n : Nat) : Prop := ∀ k, v k = n.testBit k

def Value.cut (v : Value) (slice : BitSlice) : Value :=
  fun k => decide (k < slice.width) && v (slice.offset + k)

def Value.put (v : Value) (slice : BitSlice) (bits : Value) : Value :=
  fun k => if slice.offset ≤ k ∧ k < slice.last then bits (k - slice.offset) else v k

def Represents (words : List Word) (v : Value) : Prop := ∀ k, bitAt words k = v k

/-- What operators compute: over the operands with their types and the types of the
results, the possible results. -/
abbrev Semantics (ω : Type) := ω → List (Value × Nat) → List Nat → List Value → Prop

variable {ρ ω : Type} [DecidableEq ρ] {rootWidth : ρ → Nat}

/-- The bits a span of a written root may receive. -/
def SpanAction.Gives (part : SpanAction) (before : Value) (values : Nat → Value) (v : Value) : Prop :=
  ∀ k, part.span.offset ≤ k → k < part.span.last →
    match part.action with
    | .preservePreState => v k = before k
    | .takeInput value first => v k = values value (first + (k - part.span.offset))
    | .nondeterministic => True

def SameOff (results : List Nat) (values values' : Nat → Value) : Prop :=
  ∀ handle ∉ results, values' handle = values handle

/-- One statement, over the state before the instruction: the values computed so far and
the state with the writes so far. -/
inductive StatementStep (eval : Semantics ω) (width : Nat → Nat) (state : ρ → Value)
    (values : Nat → Value) (delta : ρ → Value) :
    Statement ρ ω → (Nat → Value) → (ρ → Value) → Prop
  | read {result : Nat} {place : Place ρ} :
      StatementStep eval width state values delta (.read result (.direct place))
        (update values result ((state place.root).cut place.slice)) delta
  | readIndexed {result index k : Nat} {candidates : List (Place ρ)} {place : Place ρ} :
      candidates[k]? = some place → (values index).IsNumber k →
      StatementStep eval width state values delta (.read result (.finiteIndexed index candidates))
        (update values result ((state place.root).cut place.slice)) delta
  | readSparse {result key : Nat} {bank : ρ} {slice : BitSlice} (v : Value) :
      StatementStep eval width state values delta (.read result (.sparseIndexed bank key slice))
        (update values result v) delta
  | constant {result declared : Nat} {words : List Word} :
      StatementStep eval width state values delta (.constant result words declared)
        (update values result (Value.cut (bitAt words) ⟨0, declared⟩)) delta
  | apply {results : ValueRange} {operator : ω} {args : List Nat} {values' : Nat → Value} :
      eval operator (args.map fun arg => (values arg, width arg)) (results.values.map width)
        (results.values.map values') → SameOff results.values values values' →
      StatementStep eval width state values delta (.apply results operator args) values' delta
  | nondet {result declared : Nat} (v : Value) :
      StatementStep eval width state values delta (.nondet result declared)
        (update values result v) delta
  | effect {results : ValueRange} {args : List Nat} {values' : Nat → Value} :
      SameOff results.values values values' →
      StatementStep eval width state values delta (.effect results args) values' delta
  | pass {guard : Nat} {payload : List Nat} {binds : List (ρ × Nat)} : values guard 0 = false →
      StatementStep eval width state values delta (.raise (some guard) payload binds) values delta
  | write {root : ρ} {plan : List SpanAction} {v : Value} :
      (∀ part ∈ plan, part.Gives (state root) values v) →
      StatementStep eval width state values delta (.write (.root root plan)) values
        (update delta root v)
  | writeIndexed {index k value : Nat} {candidates : List (Place ρ)} {place : Place ρ} :
      candidates[k]? = some place → (values index).IsNumber k →
      StatementStep eval width state values delta
        (.write (.finiteIndexed index candidates value)) values
        (update delta place.root ((delta place.root).put place.slice (values value)))
  | writeSparse {bank : ρ} {key value : Nat} {slice : BitSlice} (v : Value) :
      StatementStep eval width state values delta (.write (.sparseIndexed bank key slice value))
        values (update delta bank v)

/-- A point of a run: `done` instructions of the block and `position` statements of the
next one have run, over the state before that instruction. -/
structure Point (ρ : Type) where
  block : Nat
  done : Nat
  position : Nat
  state : ρ → Value
  values : Nat → Value
  delta : ρ → Value

/-- One step of a run.  A call changes any root arbitrarily. -/
inductive Step (eval : Semantics ω) (f : FunctionView ρ ω rootWidth) : Point ρ → Point ρ → Prop
  | statement {p : Point ρ} {inst : Nat} {statement : Statement ρ ω} {values' : Nat → Value}
      {delta' : ρ → Value} : (f.instructions p.block)[p.done]? = some inst →
      (f.record inst).statements[p.position]? = some statement →
      StatementStep eval (f.record inst).width p.state p.values p.delta statement values' delta' →
      Step eval f p { p with position := p.position + 1, values := values', delta := delta' }
  | commit {p : Point ρ} {inst : Nat} {after : ρ → Value} :
      (f.instructions p.block)[p.done]? = some inst →
      p.position = (f.record inst).statements.length → (f.record inst).control ≠ .terminating →
      ((f.record inst).control.isCall = false → after = p.delta) →
      Step eval f p ⟨p.block, p.done + 1, 0, after, p.values, after⟩
  | transfer {p : Point ρ} {successor : Nat} : p.done = (f.instructions p.block).length →
      p.position = 0 → successor ∈ f.view.successors p.block →
      Step eval f p ⟨successor, 0, 0, p.state, p.values, p.state⟩

def entryPoint (f : FunctionView ρ ω rootWidth) (state : ρ → Value) (values : Nat → Value) :
    Point ρ := ⟨f.view.root, 0, 0, state, values, state⟩

/-- A root of type `width` with the value `v` holds exactly the given words. -/
def HoldsWords (width : Nat) (words : List Word) (v : Value) : Prop :=
  ∀ k < width, bitAt words k = v k

def Statement.index : Statement ρ ω → Option Nat
  | .read _ (.finiteIndexed index _) | .write (.finiteIndexed index _ _) => some index
  | _ => none

end CfgLib.Rtl
