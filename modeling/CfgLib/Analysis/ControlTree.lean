import CfgLib.Dataflow.Instruction

/-!
# Control trees

`analysis/control_tree/node.rs`: the structured form of a graph, whose leaves name
spans of instructions.  A body of statements is a list of nodes, and the cases of a
switch and the handlers of a try carry bodies of their own, so the nodes are a mutual
family where the source has an arena.
-/

namespace CfgLib

structure ProgramPoint where
  block : Nat
  instIdx : Nat
  deriving DecidableEq

/-- A half-open range of the instructions of one block. -/
structure BlockSpan where
  block : Nat
  start : Nat
  stop : Nat

inductive LoopKind where
  | endless
  | while (condition : List BlockSpan) (exitOnTrue : Bool)
  | doWhile (latch : BlockSpan) (continueOnTrue : Bool)

mutual

inductive ControlNode where
  | block (span : BlockSpan)
  | sequence (body : ControlBody)
  | ifThenElse (condition : BlockSpan) (thenBody elseBody : ControlBody)
  | loop (header : Nat) (kind : LoopKind) (body : ControlBody)
  | switch (condition : BlockSpan) (cases : SwitchCases) (defaultBody : ControlBody) (defaultEdge : Option Nat)
  | break (label : Option Nat)
  | continue (label : Option Nat)
  | return (span : BlockSpan)
  | label (block : Nat) (body : ControlBody)
  | goto (target : Nat)
  | tryCatch (tryBody : ControlBody) (handlers : CatchHandlers) (finallyBody : ControlBody)
  | guarded (predicate : ProgramPoint) (whenTrue : Bool) (body : ControlBody)

inductive ControlBody where
  | nil
  | cons (node : ControlNode) (rest : ControlBody)

inductive SwitchCases where
  | nil
  | cons (block : Nat) (edges : List Nat) (body : ControlBody) (rest : SwitchCases)

inductive CatchHandlers where
  | nil
  | cons (handler : HandlerRef) (entry : Nat) (kind : HandlerKind) (body : ControlBody) (rest : CatchHandlers)

end

def ControlBody.ofList : List ControlNode → ControlBody
  | [] => .nil
  | node :: nodes => .cons node (ofList nodes)

variable {ι ν π σ : Type}

def BlockSpan.instructions (c : Cfg ι π) (span : BlockSpan) : List (Nat × ι) :=
  (List.range' span.start (span.stop - span.start)).filterMap fun i =>
    ((c.instructions span.block)[i]?).map fun instruction => (i, instruction)

/-- Instructions whose execution is predicated on a variable and a polarity. -/
structure Predicated (ι ν : Type) extends InstrInfo ι ν where
  predicate : ι → Option (ν × Bool)

/-! ## Labels -/

mutual

def ControlNode.hasLabel (target : Nat) : ControlNode → Bool
  | .block _ | .break _ | .continue _ | .return _ | .goto _ => false
  | .sequence body | .loop _ _ body | .guarded _ _ body => body.hasLabel target
  | .ifThenElse _ thenBody elseBody => thenBody.hasLabel target || elseBody.hasLabel target
  | .switch _ cases defaultBody _ => cases.hasLabel target || defaultBody.hasLabel target
  | .label block body => block = target || body.hasLabel target
  | .tryCatch tryBody handlers finallyBody =>
    tryBody.hasLabel target || handlers.hasLabel target || finallyBody.hasLabel target

def ControlBody.hasLabel (target : Nat) : ControlBody → Bool
  | .nil => false
  | .cons node rest => node.hasLabel target || rest.hasLabel target

def SwitchCases.hasLabel (target : Nat) : SwitchCases → Bool
  | .nil => false
  | .cons _ _ body rest => body.hasLabel target || rest.hasLabel target

def CatchHandlers.hasLabel (target : Nat) : CatchHandlers → Bool
  | .nil => false
  | .cons _ _ _ body rest => body.hasLabel target || rest.hasLabel target

end

theorem ControlNode.hasLabel_sequence (target : Nat) (body : ControlBody) :
    (ControlNode.sequence body).hasLabel target = body.hasLabel target := by
  rw [ControlNode.hasLabel]

theorem ControlBody.hasLabel_singleton (target : Nat) (node : ControlNode) :
    (ControlBody.ofList [node]).hasLabel target = node.hasLabel target := by
  rw [ControlBody.ofList, ControlBody.ofList, ControlBody.hasLabel, ControlBody.hasLabel, Bool.or_false]

/-! ## Machines -/

/-- What instructions do to a store, and how the store decides where control goes. -/
structure Machine (P : Predicated ι ν) (σ : Type) where
  /-- Whether a variable is true. -/
  test : ν → σ → Bool
  /-- The store after an instruction, or the store that an unwind carries. -/
  run : ι → σ → Except σ σ
  /-- Whether the branch at a block's end takes its true edge. -/
  takesTrue : Nat → σ → Bool
  /-- The edge that the dispatch at a block's end takes. -/
  selects : Nat → σ → Nat
  catches : HandlerRef → σ → Bool
  frame : ∀ a s s' v, run a s = .ok s' → v ∉ P.defs a → test v s' = test v s

/-- How a statement ends. -/
inductive Outcome where
  | normal
  | broke (label : Option Nat)
  | continued (label : Option Nat)
  | returned
  | jumped (target : Nat)
  | raised
  /-- The bound on iterations ran out. -/
  | exhausted
  deriving DecidableEq

/-- What is left when a statement ends: the store, the instructions that ran, each with
the store it ran in, and how it ended. -/
structure Execution (σ : Type) where
  store : σ
  effects : List (ProgramPoint × σ)
  outcome : Outcome

namespace Execution

def skip (s : σ) : Execution σ := ⟨s, [], .normal⟩

/-- One more instruction that ran before. -/
def prepend (effect : ProgramPoint × σ) (e : Execution σ) : Execution σ :=
  ⟨e.store, effect :: e.effects, e.outcome⟩

/-- Run on from a statement that ended normally. -/
def andThen (e : Execution σ) (next : σ → Execution σ) : Execution σ :=
  if e.outcome = .normal then ⟨(next e.store).store, e.effects ++ (next e.store).effects, (next e.store).outcome⟩
  else e

@[simp] theorem andThen_skip_left (s : σ) (next : σ → Execution σ) : (skip s).andThen next = next s := rfl

@[simp] theorem andThen_skip_right (e : Execution σ) : e.andThen skip = e := by
  obtain ⟨store, effects, outcome⟩ := e
  unfold andThen
  split
  · next h =>
    cases h
    simp [skip]
  · rfl

theorem andThen_assoc (e : Execution σ) (next last : σ → Execution σ) :
    (e.andThen next).andThen last = e.andThen fun s => (next s).andThen last := by
  unfold andThen
  by_cases h : e.outcome = .normal
  · by_cases h' : (next e.store).outcome = .normal
    · simp [h, h']
    · simp [h, h']
  · simp [h]

theorem andThen_prepend (effect : ProgramPoint × σ) (e : Execution σ) (next : σ → Execution σ) :
    (e.prepend effect).andThen next = (e.andThen next).prepend effect := by
  unfold andThen
  change (if e.outcome = .normal then _ else _) = _
  split
  · rfl
  · rfl

/-- Code whose last instruction is a return: it returns when that instruction ran. -/
def returning (code : Execution σ × Bool) : Execution σ :=
  if code.2 = true ∧ code.1.outcome = .normal then ⟨code.1.store, code.1.effects, .returned⟩ else code.1

end Execution

/-! ## Execution of code -/

section Code

variable {P : Predicated ι ν} (M : Machine P σ)

/-- Whether an instruction runs in a store: inside a guarded region always, elsewhere when
its own predicate holds. -/
def Machine.executes (inside : Bool) (a : ι) (s : σ) : Bool :=
  inside || (P.predicate a).elim true fun p => M.test p.1 s = p.2

/-- Run code of a block, and whether its last instruction ran; `ran` is the answer for no
code. -/
def Machine.runCode (block : Nat) (inside : Bool) : List (Nat × ι) → Bool → σ → Execution σ × Bool
  | [], ran, s => (.skip s, ran)
  | (i, a) :: rest, _, s =>
    if M.executes inside a s then
      match M.run a s with
      | .ok s' =>
        ((runCode block inside rest true s').1.prepend (⟨block, i⟩, s), (runCode block inside rest true s').2)
      | .error s' => (⟨s', [(⟨block, i⟩, s)], .raised⟩, true)
    else runCode block inside rest false s

variable (c : Cfg ι π)

def Machine.runSpan (inside : Bool) (span : BlockSpan) (s : σ) : Execution σ × Bool :=
  M.runCode span.block inside (span.instructions c) true s

def Machine.runSpans (inside : Bool) : List BlockSpan → σ → Execution σ
  | [], s => .skip s
  | span :: rest, s => (M.runSpan c inside span s).1.andThen (runSpans inside rest)

/-- Whether the guard of a region holds, read off its first instruction. -/
def Machine.guardHolds (point : ProgramPoint) (whenTrue : Bool) (s : σ) : Bool :=
  (((c.instructions point.block)[point.instIdx]?).bind P.predicate).elim false fun p => M.test p.1 s = whenTrue

/-- What comes before an iteration: the loop's test, and whether it ends the loop. -/
def Machine.beforeBody (inside : Bool) : LoopKind → σ → Execution σ × Bool
  | .endless, s | .doWhile _ _, s => (.skip s, false)
  | .while condition exitOnTrue, s =>
    let e := M.runSpans c inside condition s
    (e, condition.getLast?.any fun span => M.takesTrue span.block e.store = exitOnTrue)

/-- What comes after an iteration: the latch's test, and whether it ends the loop. -/
def Machine.afterBody (inside : Bool) : LoopKind → σ → Execution σ × Bool
  | .endless, s | .while _ _, s => (.skip s, false)
  | .doWhile latch continueOnTrue, s =>
    let e := (M.runSpan c inside latch s).1
    (e, M.takesTrue latch.block e.store ≠ continueOnTrue)

def Machine.runLoop (header : Nat) (kind : LoopKind) (inside : Bool)
    (body : Option Nat → σ → Execution σ) : Nat → Option Nat → σ → Execution σ
  | 0, _, s => ⟨s, [], .exhausted⟩
  | rounds + 1, entry, s =>
    let before := if entry.isSome then (Execution.skip s, false) else M.beforeBody c inside kind s
    before.1.andThen fun s =>
      if before.2 then .skip s
      else
        let e := body entry s
        if e.outcome = .broke none ∨ e.outcome = .broke (some header) then ⟨e.store, e.effects, .normal⟩
        else if e.outcome = .normal ∨ e.outcome = .continued none ∨ e.outcome = .continued (some header) then
          Execution.andThen ⟨e.store, e.effects, .normal⟩ fun s =>
            let after := M.afterBody c inside kind s
            after.1.andThen fun s =>
              if after.2 then .skip s else runLoop header kind inside body rounds none s
        else e

/-! ## Execution of trees -/

/-- The end of a try: its finally body runs whatever the outcome, and passes it on. -/
def Machine.runFinally (finallyBody : σ → Execution σ) (e : Execution σ) : Execution σ :=
  if e.outcome = .exhausted then e
  else
    let f := finallyBody e.store
    ⟨f.store, e.effects ++ f.effects, if f.outcome = .normal then e.outcome else f.outcome⟩

/-- Go on with what `next` answers for the store of a statement that was left by an unwind. -/
def Machine.orRaised (e : Execution σ) (next : σ → Option (Execution σ)) : Execution σ :=
  if e.outcome = .raised then
    ((next e.store).map fun h => ⟨h.store, e.effects ++ h.effects, h.outcome⟩).getD e
  else e

mutual

/-- Run a node; with a label as the entry, run on from the label inside the node.
`inside` tells that a guarded region is being executed, and `fuel` bounds every loop. -/
def Machine.runNode (inside : Bool) (fuel : Nat) : ControlNode → Option Nat → σ → Execution σ
  | .block span, _, s => (M.runSpan c inside span s).1
  -- a return that does not run returns nothing
  | .return span, _, s => .returning (M.runSpan c inside span s)
  | .break label, _, s => ⟨s, [], .broke label⟩
  | .continue label, _, s => ⟨s, [], .continued label⟩
  | .goto target, _, s => ⟨s, [], .jumped target⟩
  | .sequence body, entry, s => runBody inside fuel body entry s
  | .ifThenElse condition thenBody elseBody, none, s =>
    (M.runSpan c inside condition s).1.andThen fun s =>
      if M.takesTrue condition.block s then runBody inside fuel thenBody none s
      else runBody inside fuel elseBody none s
  | .ifThenElse _ thenBody elseBody, some target, s =>
    if thenBody.hasLabel target then runBody inside fuel thenBody (some target) s
    else runBody inside fuel elseBody (some target) s
  | .loop header kind body, entry, s =>
    M.runLoop c header kind inside (fun entry s => runBody inside fuel body entry s) fuel entry s
  | .switch condition cases defaultBody _, none, s =>
    (M.runSpan c inside condition s).1.andThen fun s =>
      (runCase inside fuel cases (M.selects condition.block s) s).getD (runBody inside fuel defaultBody none s)
  | .switch _ cases defaultBody _, some target, s =>
    (enterCase inside fuel cases target s).getD (runBody inside fuel defaultBody (some target) s)
  | .label _ body, none, s => runBody inside fuel body none s
  | .label block body, some target, s =>
    if block = target then runBody inside fuel body none s else runBody inside fuel body (some target) s
  | .tryCatch tryBody handlers finallyBody, none, s =>
    Machine.runFinally (fun s => runBody inside fuel finallyBody none s)
      (Machine.orRaised (runBody inside fuel tryBody none s) fun s => runHandler inside fuel handlers s)
  | .tryCatch tryBody handlers finallyBody, some target, s =>
    if tryBody.hasLabel target then
      Machine.runFinally (fun s => runBody inside fuel finallyBody none s)
        (Machine.orRaised (runBody inside fuel tryBody (some target) s) fun s => runHandler inside fuel handlers s)
    else
      ((enterHandler inside fuel handlers target s).map
        (Machine.runFinally fun s => runBody inside fuel finallyBody none s)).getD
          (runBody inside fuel finallyBody (some target) s)
  | .guarded predicate whenTrue body, none, s =>
    if M.guardHolds c predicate whenTrue s then runBody true fuel body none s else .skip s
  | .guarded _ _ body, some target, s => runBody true fuel body (some target) s

def Machine.runBody (inside : Bool) (fuel : Nat) : ControlBody → Option Nat → σ → Execution σ
  | .nil, _, s => .skip s
  | .cons node rest, none, s => (runNode inside fuel node none s).andThen fun s => runBody inside fuel rest none s
  | .cons node rest, some target, s =>
    if node.hasLabel target then
      (runNode inside fuel node (some target) s).andThen fun s => runBody inside fuel rest none s
    else runBody inside fuel rest (some target) s

def Machine.runCase (inside : Bool) (fuel : Nat) : SwitchCases → Nat → σ → Option (Execution σ)
  | .nil, _, _ => none
  | .cons _ edges body rest, edge, s =>
    if edge ∈ edges then some (runBody inside fuel body none s) else runCase inside fuel rest edge s

def Machine.enterCase (inside : Bool) (fuel : Nat) : SwitchCases → Nat → σ → Option (Execution σ)
  | .nil, _, _ => none
  | .cons _ _ body rest, target, s =>
    if body.hasLabel target then some (runBody inside fuel body (some target) s)
    else enterCase inside fuel rest target s

def Machine.runHandler (inside : Bool) (fuel : Nat) : CatchHandlers → σ → Option (Execution σ)
  | .nil, _ => none
  | .cons handler _ _ body rest, s =>
    if M.catches handler s then some (runBody inside fuel body none s) else runHandler inside fuel rest s

def Machine.enterHandler (inside : Bool) (fuel : Nat) : CatchHandlers → Nat → σ → Option (Execution σ)
  | .nil, _, _ => none
  | .cons _ _ _ body rest, target, s =>
    if body.hasLabel target then some (runBody inside fuel body (some target) s)
    else enterHandler inside fuel rest target s

end

theorem Machine.runNode_sequence (inside : Bool) (fuel : Nat) (body : ControlBody) (entry : Option Nat) (s : σ) :
    M.runNode c inside fuel (.sequence body) entry s = M.runBody c inside fuel body entry s := by
  rw [Machine.runNode]

theorem Machine.runBody_cons (inside : Bool) (fuel : Nat) (node : ControlNode) (rest : ControlBody) (s : σ) :
    M.runBody c inside fuel (.cons node rest) none s =
      (M.runNode c inside fuel node none s).andThen fun s => M.runBody c inside fuel rest none s := by
  rw [Machine.runBody]

theorem Machine.runBody_cons_entry (inside : Bool) (fuel : Nat) (node : ControlNode) (rest : ControlBody)
    (target : Nat) (s : σ) : M.runBody c inside fuel (.cons node rest) (some target) s =
      if node.hasLabel target then
        (M.runNode c inside fuel node (some target) s).andThen fun s => M.runBody c inside fuel rest none s
      else M.runBody c inside fuel rest (some target) s := rfl

/-- Run a whole tree: a goto goes on from its label, wherever it stands.  `fuel` bounds
the gotos and every loop. -/
def Machine.runTree (root : ControlNode) : Nat → Option Nat → σ → Execution σ
  | 0, _, s => ⟨s, [], .exhausted⟩
  | fuel + 1, entry, s =>
    let e := M.runNode c false fuel root entry s
    match e.outcome with
    | .jumped target =>
      if root.hasLabel target then Execution.andThen ⟨e.store, e.effects, .normal⟩ (runTree root fuel (some target))
      else e
    | _ => e

end Code

end CfgLib
