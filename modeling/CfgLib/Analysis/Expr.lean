import CfgLib.Cfg.Trace
import CfgLib.Dataflow.Instruction
import Mathlib.Order.Defs.LinearOrder

/-!
# Expression trees of a block

`analysis/expr.rs`, `analysis/expr/node.rs`: the definitions of a block that are read
once are put into the expressions that read them.  The recovery never looks into
the trees it builds, so it is written over what builds them, and runs that build
different trees correspond.
-/

namespace CfgLib

open Lib List

/-- A node in an expression tree over variables, operators and constants. -/
inductive ExprNode (ν ω κ : Type)
  | leaf (read : ν)
  | op (operator : ω) (operands : List (ExprNode ν ω κ))
  | const (value : κ)
  /-- An instruction that cannot be decomposed further. -/
  | opaqueInst (block instIdx : Nat)

/-- Instructions that can be decomposed into expression operators. -/
structure ExprInstr (ι ν ω κ : Type) extends InstrInfo ι ν where
  asExpr : ι → Option (ω × List ν)
  asConst : ι → Option κ
  /-- Each operand is one of the reads. -/
  operands_used : ∀ a operator operands, asExpr a = some (operator, operands) → ∀ x ∈ operands, x ∈ uses a

/-- The trees recovered for a block: one for each definition that no later expression absorbed. -/
structure BlockExprTrees (ν ω κ : Type) where
  block : Nat
  roots : List (ν × ExprNode ν ω κ)

/-- What a recovery builds trees with.  A tree other than a leaf stands for an instruction, by its
index, and the variable that the instruction defines with it. -/
structure TreeBuilder (ν ω κ τ : Type) where
  leaf : ν → τ
  op : Option ν → Nat → ω → List τ → τ
  const : Option ν → Nat → κ → τ
  opaqueInst : ν → Nat → τ

def ExprNode.builder {ν ω κ : Type} (block : Nat) : TreeBuilder ν ω κ (ExprNode ν ω κ) where
  leaf := .leaf
  op _ _ := .op
  const _ _ := .const
  opaqueInst _ := .opaqueInst block

/-- A block-local definition that no later expression has absorbed yet, with each variable it reads
and how many times the block had defined it when the read happened. -/
structure Pending (ν τ : Type) where
  expression : τ
  reads : List (ν × Nat)

/-- The state of recovering one block. -/
structure Recovery (ν τ : Type) where
  /-- The latest definition of each variable, until something absorbs it; one entry a variable. -/
  pending : List (ν × Pending ν τ)
  /-- Definitions that a later one of the same variable overwrote before anything absorbed them. -/
  overwritten : List (ν × τ)
  definitionCount : ν → Nat

namespace Recovery

variable {ι ν ω κ τ : Type}

def new : Recovery ν τ := ⟨[], [], fun _ => 0⟩

def generation (s : Recovery ν τ) (x : ν) : Nat := s.definitionCount x

def readsOf (s : Recovery ν τ) (xs : List ν) : List (ν × Nat) := xs.map fun x => (x, s.generation x)

/-- Every root: what nothing absorbed. -/
def entries (s : Recovery ν τ) : List (ν × τ) := s.overwritten ++ s.pending.map fun e => (e.1, e.2.expression)

variable [LinearOrder ν]

def get (s : Recovery ν τ) (x : ν) : Option (Pending ν τ) := (s.pending.find? fun e => e.1 = x).map (·.2)

def remove (s : Recovery ν τ) (x : ν) : Recovery ν τ :=
  ⟨s.pending.filter fun e => e.1 ≠ x, s.overwritten, s.definitionCount⟩

def insert (s : Recovery ν τ) (x : ν) (definition : Pending ν τ) : Recovery ν τ :=
  ⟨(x, definition) :: (s.remove x).pending, s.overwritten, s.definitionCount⟩

/-- A variable's only read may take its pending definition when nothing that definition read has been
redefined since. -/
def absorbable (s : Recovery ν τ) (useCount : ν → Nat) (x : ν) : Bool :=
  useCount x == 1 && (s.get x).any fun definition =>
    definition.reads.all fun r => s.generation r.1 == r.2

def operand (B : TreeBuilder ν ω κ τ) (useCount : ν → Nat) (s : Recovery ν τ) (reads : List (ν × Nat)) (x : ν) :
    τ × Recovery ν τ × List (ν × Nat) :=
  match if s.absorbable useCount x then s.get x else none with
  | some definition => (definition.expression, s.remove x, reads ++ definition.reads)
  | none => (B.leaf x, s, reads ++ [(x, s.generation x)])

def operands (B : TreeBuilder ν ω κ τ) (useCount : ν → Nat) :
    List ν → Recovery ν τ → List (ν × Nat) → List τ × Recovery ν τ × List (ν × Nat)
  | [], s, reads => ([], s, reads)
  | x :: xs, s, reads =>
    let (tree, s, reads) := s.operand B useCount reads x
    let (trees, s, reads) := operands B useCount xs s reads
    (tree :: trees, s, reads)

/-- What a variable held before can no longer be absorbed. -/
def redefine (s : Recovery ν τ) (x : ν) : Recovery ν τ where
  pending := (s.remove x).pending
  overwritten := s.overwritten ++ (s.get x).toList.map fun definition => (x, definition.expression)
  definitionCount y := if y = x then s.definitionCount y + 1 else s.definitionCount y

def redefineAll (s : Recovery ν τ) (defs : List ν) : Recovery ν τ := defs.foldl redefine s

/-- The definition of an expression's first output, if it has any. -/
def define (s : Recovery ν τ) (destination : Option ν) (definition : Pending ν τ) : Recovery ν τ :=
  match destination with
  | some x => s.insert x definition
  | none => s

/-- An opaque instruction defines every output as itself. -/
def defineOpaque (B : TreeBuilder ν ω κ τ) (instIdx : Nat) (reads : List (ν × Nat)) (s : Recovery ν τ)
    (defs : List ν) : Recovery ν τ :=
  defs.foldl (fun s x => s.insert x ⟨B.opaqueInst x instIdx, reads⟩) s

def take (I : ExprInstr ι ν ω κ) (B : TreeBuilder ν ω κ τ) (useCount : ν → Nat) (s : Recovery ν τ)
    (entry : ι × Nat) : Recovery ν τ :=
  let (a, instIdx) := entry
  let defs := I.defs a
  match I.asConst a with
  | some value => (s.redefineAll defs).define defs.head? ⟨B.const defs.head? instIdx value, []⟩
  | none =>
    match I.asExpr a with
    | some (operator, operandVariables) =>
      let (operands, s, reads) := s.operands B useCount operandVariables []
      (s.redefineAll defs).define defs.head? ⟨B.op defs.head? instIdx operator operands, reads⟩
    | none => (s.redefineAll defs).defineOpaque B instIdx (s.readsOf (I.uses a)) defs

/-- Every definition nothing absorbed, ordered by variable and, for one variable, by definition. -/
def intoRoots (s : Recovery ν τ) : List (ν × τ) := s.entries.mergeSort fun e e' => e.1 ≤ e'.1

end Recovery

section

variable {ι ν ω κ τ : Type} [LinearOrder ν]

/-- How often the instructions read a variable. -/
def useCount (I : ExprInstr ι ν ω κ) (insts : List ι) (x : ν) : Nat := (insts.flatMap I.uses).count x

def recoveryAt (I : ExprInstr ι ν ω κ) (B : TreeBuilder ν ω κ τ) (insts : List ι) (n : Nat) : Recovery ν τ :=
  (insts.zipIdx.take n).foldl (Recovery.take I B (useCount I insts)) .new

def recoverWith (I : ExprInstr ι ν ω κ) (B : TreeBuilder ν ω κ τ) (insts : List ι) : List (ν × τ) :=
  (insts.zipIdx.foldl (Recovery.take I B (useCount I insts)) .new).intoRoots

def recoverBlockExpressions {π : Type} (I : ExprInstr ι ν ω κ) (c : Cfg ι π) (block : Nat) :
    BlockExprTrees ν ω κ where
  block := block
  roots := recoverWith I (ExprNode.builder block) (c.instructions block)

end

/-! ## Corresponding runs -/

section

variable {ι ν ω κ τ τ' : Type}

structure TreeBuilder.Hom (B : TreeBuilder ν ω κ τ) (B' : TreeBuilder ν ω κ τ') (f : τ → τ') : Prop where
  leaf : ∀ x, f (B.leaf x) = B'.leaf x
  op : ∀ x i operator operands, f (B.op x i operator operands) = B'.op x i operator (operands.map f)
  const : ∀ x i value, f (B.const x i value) = B'.const x i value
  opaqueInst : ∀ x i, f (B.opaqueInst x i) = B'.opaqueInst x i

def Pending.map (f : τ → τ') (p : Pending ν τ) : Pending ν τ' := ⟨f p.expression, p.reads⟩

def Recovery.map (f : τ → τ') (s : Recovery ν τ) : Recovery ν τ' where
  pending := s.pending.map fun e => (e.1, e.2.map f)
  overwritten := s.overwritten.map fun e => (e.1, f e.2)
  definitionCount := s.definitionCount

namespace Recovery

variable {B : TreeBuilder ν ω κ τ} {B' : TreeBuilder ν ω κ τ'} {f : τ → τ'} (s : Recovery ν τ)

theorem entries_map : (s.map f).entries = s.entries.map fun e => (e.1, f e.2) := by
  simp [entries, map, Pending.map]

variable [LinearOrder ν]

theorem get_map (x : ν) : (s.map f).get x = (s.get x).map (Pending.map f) := by
  simp [get, map, find?_map, Function.comp_def]

theorem remove_map (x : ν) : (s.map f).remove x = (s.remove x).map f := by
  simp [remove, map, filter_map, Function.comp_def]

theorem insert_map (x : ν) (definition : Pending ν τ) :
    (s.map f).insert x (definition.map f) = (s.insert x definition).map f := by
  simp [insert, remove, map, filter_map, Function.comp_def]

theorem absorbable_map (useCount : ν → Nat) (x : ν) :
    (s.map f).absorbable useCount x = s.absorbable useCount x := by
  unfold absorbable
  rw [get_map]
  cases s.get x <;> rfl

theorem operand_map (h : B.Hom B' f) (useCount : ν → Nat) (reads : List (ν × Nat)) (x : ν) :
    (s.map f).operand B' useCount reads x =
      (f (s.operand B useCount reads x).1, (s.operand B useCount reads x).2.1.map f,
        (s.operand B useCount reads x).2.2) := by
  unfold operand
  rw [absorbable_map, get_map]
  cases s.absorbable useCount x with
  | false =>
    simp only [Bool.false_eq_true, if_false, h.leaf]
    rfl
  | true =>
    cases s.get x with
    | none =>
      simp only [if_true, Option.map_none, h.leaf]
      rfl
    | some definition =>
      simp only [if_true, Option.map_some, remove_map]
      rfl

theorem operands_map (h : B.Hom B' f) (useCount : ν → Nat) (xs : List ν) (s : Recovery ν τ) (reads : List (ν × Nat)) :
    (s.map f).operands B' useCount xs reads =
      ((s.operands B useCount xs reads).1.map f, (s.operands B useCount xs reads).2.1.map f,
        (s.operands B useCount xs reads).2.2) := by
  induction xs generalizing s reads with
  | nil => rfl
  | cons x xs ih =>
    simp only [operands, operand_map s h, ih, map_cons]

theorem redefine_map (x : ν) : (s.map f).redefine x = (s.redefine x).map f := by
  unfold redefine
  rw [get_map, remove_map]
  cases s.get x <;> simp [map, Pending.map]

theorem redefineAll_map (defs : List ν) (s : Recovery ν τ) : (s.map f).redefineAll defs = (s.redefineAll defs).map f := by
  unfold redefineAll
  induction defs generalizing s with
  | nil => rfl
  | cons x defs ih => rw [foldl_cons, foldl_cons, redefine_map, ih]

theorem define_map (destination : Option ν) (definition : Pending ν τ) :
    (s.map f).define destination (definition.map f) = (s.define destination definition).map f := by
  cases destination with
  | none => rfl
  | some x => exact insert_map s x definition

theorem defineOpaque_map (h : B.Hom B' f) (instIdx : Nat) (reads : List (ν × Nat)) (defs : List ν)
    (s : Recovery ν τ) :
    (s.map f).defineOpaque B' instIdx reads defs = (s.defineOpaque B instIdx reads defs).map f := by
  unfold defineOpaque
  induction defs generalizing s with
  | nil => rfl
  | cons x defs ih =>
    rw [foldl_cons, foldl_cons, ← ih, ← insert_map]
    simp only [Pending.map, h.opaqueInst]

theorem take_map (h : B.Hom B' f) (I : ExprInstr ι ν ω κ) (useCount : ν → Nat) (entry : ι × Nat) :
    (s.map f).take I B' useCount entry = (s.take I B useCount entry).map f := by
  obtain ⟨a, instIdx⟩ := entry
  simp only [take]
  split
  · rw [redefineAll_map, ← define_map]
    simp only [Pending.map, h.const]
  · split
    · rw [operands_map h]
      simp only [redefineAll_map, ← define_map, Pending.map, h.op]
    · rw [redefineAll_map, ← defineOpaque_map h]
      rfl

end Recovery

section

variable [LinearOrder ν] {B : TreeBuilder ν ω κ τ} {B' : TreeBuilder ν ω κ τ'} {f : τ → τ'}

theorem foldl_take_map (h : B.Hom B' f) (I : ExprInstr ι ν ω κ) (useCount : ν → Nat) (entries : List (ι × Nat))
    (s : Recovery ν τ) : entries.foldl (Recovery.take I B' useCount) (s.map f) =
      (entries.foldl (Recovery.take I B useCount) s).map f := by
  induction entries generalizing s with
  | nil => rfl
  | cons entry entries ih => rw [foldl_cons, foldl_cons, Recovery.take_map s h, ih]

theorem recoveryAt_map (h : B.Hom B' f) (I : ExprInstr ι ν ω κ) (insts : List ι) (n : Nat) :
    recoveryAt I B' insts n = (recoveryAt I B insts n).map f :=
  foldl_take_map h I (useCount I insts) (insts.zipIdx.take n) .new

theorem recoverWith_map (h : B.Hom B' f) (I : ExprInstr ι ν ω κ) (insts : List ι) :
    recoverWith I B' insts = (recoverWith I B insts).map fun e => (e.1, f e.2) := by
  have hsort : ∀ l : List (ν × τ), ((l.mergeSort fun e e' => e.1 ≤ e'.1).map fun e => (e.1, f e.2)) =
      (l.map fun e => (e.1, f e.2)).mergeSort fun e e' => e.1 ≤ e'.1 :=
    fun _ => map_mergeSort fun _ _ _ _ => rfl
  unfold recoverWith Recovery.intoRoots
  rw [show (Recovery.new : Recovery ν τ') = Recovery.new.map f from rfl, foldl_take_map h, Recovery.entries_map,
    hsort]

theorem recoverWith_perm (I : ExprInstr ι ν ω κ) (B : TreeBuilder ν ω κ τ) (insts : List ι) :
    (recoverWith I B insts).Perm (recoveryAt I B insts insts.length).entries := by
  unfold recoverWith recoveryAt
  rw [take_of_length_le (by rw [length_zipIdx])]
  exact mergeSort_perm _ _

end

end

end CfgLib
