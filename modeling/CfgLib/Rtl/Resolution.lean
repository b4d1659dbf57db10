import CfgLib.Graph.Postorder
import CfgLib.Rtl.Record
import CfgLib.Rtl.Words
import Mathlib.Data.List.Dedup
import Mathlib.Data.List.Sort

/-!
# Selection resolution

`ir/rtl/facts/resolution.rs` with `roots.rs`, `state.rs` and `transfer.rs`: the
constants of the roots are followed across blocks, and a selection whose index is a
constant below the number of candidates is reported.
-/

namespace CfgLib.Rtl

open List

/-! ## The table of roots -/

def RootTable.collect {ρ ω : Type} [LinearOrder ρ] {rootWidth : ρ → Nat}
    (f : FunctionView ρ ω rootWidth) : List ρ :=
  ((f.view.nodeIds.flatMap fun block => (f.instructions block).flatMap fun inst =>
    (f.record inst).statements.flatMap Statement.roots).insertionSort (· ≤ ·)).dedup

/-- The dense index of a root that the table lists; another root panics in the source. -/
def indexOfNamed {ρ : Type} [DecidableEq ρ] (roots : List ρ) (root : ρ) : Nat := roots.idxOf root

def indexOf {ρ : Type} [DecidableEq ρ] (roots : List ρ) (root : ρ) : Option Nat :=
  if root ∈ roots then some (indexOfNamed roots root) else none

/-! ## The constants that are tracked -/

/-- The roots with a known value, in ascending order of index. -/
structure ConstState where
  entries : List (Nat × List Word)
  ascending : entries.Pairwise fun a b => a.1 < b.1

namespace ConstState

def empty : ConstState := ⟨[], List.Pairwise.nil⟩

def get (s : ConstState) (root : Nat) : Option (List Word) :=
  (s.entries.find? fun entry => entry.1 == root).map (·.2)

/-- Replace the entry of a root, or put a new one in its place. -/
def setEntry (root : Nat) (value : List Word) : List (Nat × List Word) → List (Nat × List Word)
  | [] => [(root, value)]
  | entry :: rest =>
    if entry.1 < root then entry :: setEntry root value rest
    else if entry.1 = root then (root, value) :: rest
    else (root, value) :: entry :: rest

theorem mem_setEntry {root : Nat} {value : List Word} {entries : List (Nat × List Word)}
    {entry : Nat × List Word} (h : entry ∈ setEntry root value entries) :
    entry = (root, value) ∨ entry ∈ entries := by
  induction entries with
  | nil => exact Or.inl (mem_singleton.mp h)
  | cons head rest ih =>
    unfold setEntry at h
    split at h
    · rcases mem_cons.mp h with rfl | h
      · exact Or.inr mem_cons_self
      · exact (ih h).imp_right (mem_cons_of_mem _)
    · split at h
      · exact (mem_cons.mp h).imp_right (mem_cons_of_mem _)
      · exact mem_cons.mp h

theorem ascending_setEntry (root : Nat) (value : List Word) {entries : List (Nat × List Word)}
    (h : entries.Pairwise fun a b => a.1 < b.1) :
    (setEntry root value entries).Pairwise fun a b => a.1 < b.1 := by
  induction entries with
  | nil => exact pairwise_singleton _ _
  | cons head rest ih =>
    obtain ⟨hhead, hrest⟩ := pairwise_cons.mp h
    unfold setEntry
    split
    · next hlt =>
      refine pairwise_cons.mpr ⟨fun entry hentry => ?_, ih hrest⟩
      rcases mem_setEntry hentry with rfl | hentry
      · exact hlt
      · exact hhead entry hentry
    · split
      · next heq =>
        refine pairwise_cons.mpr ⟨fun entry hentry => ?_, hrest⟩
        rw [← heq]
        exact hhead entry hentry
      · next hnot hne =>
        refine pairwise_cons.mpr ⟨fun entry hentry => ?_, h⟩
        rcases mem_cons.mp hentry with rfl | hentry
        · change root < entry.1
          omega
        · have := hhead entry hentry
          change root < entry.1
          omega

def set (s : ConstState) (root : Nat) (value : List Word) : ConstState :=
  ⟨setEntry root value s.entries, ascending_setEntry root value s.ascending⟩

def remove (s : ConstState) (root : Nat) : ConstState :=
  ⟨s.entries.filter fun entry => entry.1 ≠ root, s.ascending.filter _⟩

/-- Keep the values that `other` also holds; the flag is whether one was forgotten. -/
def intersect (s other : ConstState) : ConstState × Bool :=
  let kept := s.entries.filter fun entry => other.get entry.1 = some entry.2
  (⟨kept, s.ascending.filter _⟩, kept.length ≠ s.entries.length)

end ConstState

/-- The constants among the values of one record: where the words of each start. -/
structure ValueConsts where
  slots : Nat → Option Nat
  pool : List Word

namespace ValueConsts

def empty : ValueConsts := ⟨fun _ => none, []⟩

def contains (values : ValueConsts) (handle : Nat) : Bool := (values.slots handle).isSome

def get (values : ValueConsts) (handle width : Nat) : Option (List Word) :=
  (values.slots handle).map fun start => (values.pool.drop start).take (wordsFor width)

/-- Make a value the constant with the given words, which go to the end of the pool. -/
def insert (values : ValueConsts) (handle : Nat) (words : List Word) : ValueConsts :=
  ⟨Function.update values.slots handle (some values.pool.length), values.pool ++ words⟩

end ValueConsts

/-! ## One record -/

/-- A selection whose index is a constant. -/
structure ResolvedSelection where
  inst : Nat
  statement : Nat
  candidate : Nat
  deriving DecidableEq

/-- The constant evaluation of operators: over the words and types of the operands and the
types of the results, the words of the results, one result after the other. -/
structure Fold (ω : Type) where
  fold : ω → List (List Word × Nat) → List Nat → Option (List Word)
  length_fold : ∀ operator args results out, fold operator args results = some out →
    out.length = (results.map wordsFor).sum

/-- The constants of the record in hand, its writes with their new values (`none` when
unknown), and the report. -/
structure Staging where
  values : ValueConsts
  pending : List (Nat × Option (List Word))
  report : List ResolvedSelection

variable {ρ ω : Type} [DecidableEq ρ] {rootWidth : ρ → Nat}

def constantIndex (values : ValueConsts) (width : Nat → Nat) (index candidates : Nat) :
    Option Nat :=
  ((values.get index (width index)).bind toUsize).filter fun chosen => chosen < candidates

def note (s : Staging) (inst statement : Nat) : Option Nat → Staging
  | some candidate => { s with report := s.report ++ [⟨inst, statement, candidate⟩] }
  | none => s

/-- Make `result` the constant that a place of a known root holds. -/
def readPlace (roots : List ρ) (state : ConstState) (values : ValueConsts) (result : Nat)
    (place : Place ρ) : ValueConsts :=
  match state.get (indexOfNamed roots place.root) with
  | none => values
  | some root => values.insert result
      (copyBits (zeros place.slice.width) 0 root place.slice.offset place.slice.width)

def insertResults (out : List Word) : ValueConsts → Nat → List (Nat × Nat) → ValueConsts
  | values, _, [] => values
  | values, start, (result, width) :: rest =>
    insertResults out (values.insert result ((out.drop start).take (wordsFor width)))
      (start + wordsFor width) rest

/-- Evaluate an operator when every operand is a constant. -/
def applyOperator (fold : Fold ω) (width : Nat → Nat) (values : ValueConsts) (results : ValueRange)
    (operator : ω) (args : List Nat) : ValueConsts :=
  if args.all values.contains then
    let operands := args.filterMap fun arg =>
      (values.get arg (width arg)).map fun words => (words, width arg)
    match fold.fold operator operands (results.values.map width) with
    | none => values
    | some out => insertResults out values 0 (results.values.map fun result => (result, width result))
  else values

def assembleSpan (before : Option (List Word)) (values : ValueConsts) (width : Nat → Nat)
    (words : List Word) (part : SpanAction) : Option (List Word) :=
  match part.action with
  | .preservePreState => before.map fun before =>
      copyBits words part.span.offset before part.span.offset part.span.width
  | .takeInput value first => (values.get value (width value)).map fun input =>
      copyBits words part.span.offset input first part.span.width
  | .nondeterministic => none

/-- The new value of a root after a write with a plan, when every span has a known one. -/
def assemble (roots : List ρ) (rootWidth : ρ → Nat) (width : Nat → Nat) (state : ConstState)
    (values : ValueConsts) (root : ρ) (plan : List SpanAction) : Option (List Word) :=
  plan.foldlM (assembleSpan (state.get (indexOfNamed roots root)) values width)
    (zeros (rootWidth root))

/-- The value of a root once the writes staged so far have taken effect. -/
def staged (state : ConstState) (pending : List (Nat × Option (List Word))) (root : Nat) :
    Option (List Word) :=
  match pending.reverse.find? fun write => write.1 == root with
  | some (_, value) => value
  | none => state.get root

def spliceBase (rootWidth : ρ → Nat) (before : Option (List Word)) (place : Place ρ) :
    Option (List Word) :=
  match before with
  | some before => some before
  | none =>
    if place.slice = BitSlice.whole (rootWidth place.root) then some (zeros (rootWidth place.root))
    else none

/-- The new value of the root of `place` after a write of a constant into it. -/
def splice (roots : List ρ) (rootWidth : ρ → Nat) (width : Nat → Nat) (state : ConstState)
    (s : Staging) (place : Place ρ) (value : Nat) : Option (List Word) := do
  let input ← s.values.get value (width value)
  let words ← spliceBase rootWidth
    (staged state s.pending (indexOfNamed roots place.root)) place
  some (copyBits words place.slice.offset input 0 place.slice.width)

def stageRoot (s : Staging) (root : Nat) (value : Option (List Word)) : Staging :=
  { s with pending := s.pending ++ [(root, value)] }

def stageWrite (roots : List ρ) (rootWidth : ρ → Nat) (width : Nat → Nat) (state : ConstState)
    (inst position : Nat) (s : Staging) : WriteTarget ρ → Staging
  | .root root plan =>
    stageRoot s (indexOfNamed roots root) (assemble roots rootWidth width state s.values root plan)
  | .finiteIndexed index candidates value =>
    match (constantIndex s.values width index candidates.length).bind (candidates[·]?) with
    | some place =>
      stageRoot (note s inst position (constantIndex s.values width index candidates.length))
        (indexOfNamed roots place.root) (splice roots rootWidth width state s place value)
    | none => candidates.foldl (fun s place => stageRoot s (indexOfNamed roots place.root) none) s
  | .sparseIndexed bank _ _ _ => stageRoot s (indexOfNamed roots bank) none

def runStatement (roots : List ρ) (fold : Fold ω) (rootWidth : ρ → Nat) (width : Nat → Nat)
    (state : ConstState) (inst position : Nat) (s : Staging) : Statement ρ ω → Staging
  | .read result (.direct place) => { s with values := readPlace roots state s.values result place }
  | .read result (.finiteIndexed index candidates) =>
    let chosen := constantIndex s.values width index candidates.length
    let s := note s inst position chosen
    match chosen.bind (candidates[·]?) with
    | some place => { s with values := readPlace roots state s.values result place }
    | none => s
  | .read _ (.sparseIndexed _ _ _) => s
  | .constant result words declared =>
    { s with values := s.values.insert result (copyBits (zeros declared) 0 words 0 declared) }
  | .apply results operator args =>
    { s with values := applyOperator fold width s.values results operator args }
  | .write target => stageWrite roots rootWidth width state inst position s target
  | .nondet _ _ | .effect _ _ | .raise _ _ _ => s

def commit (state : ConstState) (pending : List (Nat × Option (List Word))) : ConstState :=
  pending.foldl (fun state write =>
    match write.2 with
    | some value => state.set write.1 value
    | none => state.remove write.1) state

def runStatements (roots : List ρ) (fold : Fold ω) (rootWidth : ρ → Nat) (width : Nat → Nat)
    (state : ConstState) (inst : Nat) : Nat → List (Statement ρ ω) → Staging → Staging
  | _, [], s => s
  | position, statement :: rest, s =>
    runStatements roots fold rootWidth width state inst (position + 1) rest
      (runStatement roots fold rootWidth width state inst position s statement)

def runRecord (roots : List ρ) (fold : Fold ω) (inst : Nat) (record : Record ρ ω rootWidth)
    (state : ConstState) : ConstState × List ResolvedSelection :=
  let s := runStatements roots fold rootWidth record.width state inst 0 record.statements
    ⟨.empty, [], []⟩
  (if record.control.isCall then .empty else commit state s.pending, s.report)

def runInstructions (roots : List ρ) (fold : Fold ω) (f : FunctionView ρ ω rootWidth) :
    List Nat → ConstState → ConstState × List ResolvedSelection
  | [], state => (state, [])
  | inst :: rest, state =>
    let first := runRecord roots fold inst (f.record inst) state
    let later := runInstructions roots fold f rest first.1
    (later.1, first.2 ++ later.2)

def runBlock (roots : List ρ) (fold : Fold ω) (f : FunctionView ρ ω rootWidth) (block : Nat)
    (state : ConstState) : ConstState × List ResolvedSelection :=
  runInstructions roots fold f (f.instructions block) state

/-! ## The fixpoint -/

/-- One entry constant; a root that the function does not name is ignored. -/
def setConstant (roots : List ρ) (rootWidth : ρ → Nat) (state : ConstState)
    (constant : ρ × List Word) : ConstState :=
  match indexOf roots constant.1 with
  | some index => state.set index (normalized constant.2 (rootWidth constant.1))
  | none => state

def entryState (roots : List ρ) (rootWidth : ρ → Nat) (entry : List (ρ × List Word)) : ConstState :=
  entry.foldl (setConstant roots rootWidth) .empty

/-- Merge the state that leaves a block into the one that enters its successor. -/
def join (incoming : Option ConstState) (leaving : ConstState) : ConstState × Bool :=
  match incoming with
  | none => (leaving, true)
  | some state => state.intersect leaving

/-- The states that enter the blocks, the blocks to run again, and whether a sweep has
changed a state. -/
structure Facts where
  incoming : Nat → Option ConstState
  dirty : Nat → Bool
  changed : Bool

def joinInto (leaving : ConstState) (s : Facts) (successor : Nat) : Facts :=
  let joined := join (s.incoming successor) leaving
  let incoming := Function.update s.incoming successor (some joined.1)
  if joined.2 then ⟨incoming, Function.update s.dirty successor true, true⟩
  else { s with incoming := incoming }

/-- Run a block with new facts; such a block has an entry state. -/
def visitBlock (roots : List ρ) (fold : Fold ω) (f : FunctionView ρ ω rootWidth) (s : Facts)
    (block : Nat) : Facts :=
  if s.dirty block then
    match s.incoming block with
    | none => s
    | some state =>
      (f.view.successors block).foldl (joinInto (runBlock roots fold f block state).1)
        { s with dirty := Function.update s.dirty block false }
  else s

def sweep (roots : List ρ) (fold : Fold ω) (f : FunctionView ρ ω rootWidth) (order : List Nat)
    (s : Facts) : Facts :=
  order.foldl (visitBlock roots fold f) { s with changed := false }

/-- Sweep until nothing changes; `none` is too little fuel. -/
def solve (roots : List ρ) (fold : Fold ω) (f : FunctionView ρ ω rootWidth) (order : List Nat) :
    Nat → Facts → Option Facts
  | 0, _ => none
  | fuel + 1, s =>
    let s := sweep roots fold f order s
    if s.changed then solve roots fold f order fuel s else some s

def startFacts (root : Nat) (state : ConstState) : Facts where
  incoming := Function.update (fun _ => none) root (some state)
  dirty := Function.update (fun _ => false) root true
  changed := true

def blockReport (roots : List ρ) (fold : Fold ω) (f : FunctionView ρ ω rootWidth) (s : Facts)
    (block : Nat) : List ResolvedSelection :=
  match s.incoming block with
  | some state => (runBlock roots fold f block state).2
  | none => []

/-- The states that enter the blocks and the resolved selections, sorted by instruction and
statement. -/
def SelectionResolution.compute (fuel : Nat) (fold : Fold ω) (f : FunctionView ρ ω rootWidth)
    (roots : List ρ) (entry : List (ρ × List Word)) : Option (Facts × List ResolvedSelection) := do
  let order ← reversePostorder f.view.toGraphView f.view.root .outgoing
  let facts ← solve roots fold f order fuel
    (startFacts f.view.root (entryState roots rootWidth entry))
  some (facts, (order.flatMap (blockReport roots fold f facts)).insertionSort fun a b =>
    a.inst < b.inst ∨ (a.inst = b.inst ∧ a.statement ≤ b.statement))

end CfgLib.Rtl
