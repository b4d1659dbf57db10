import CfgLib.Graph.Open.Marks
import CfgLib.Graph.Search
import CfgLib.Lib.Replay

/-!
# Post-order folds

`graph/open/fold.rs`: a fold computes each node's answer from its children's.
The loop keeps one frame per open node, one stack for the children of all of
them, and takes marks back by truncating a log.  It is the recursive fold that
passes the marks down as a set.
-/

namespace CfgLib

open CfgLib.Lib List

/-- How far the marks written inside one folded node's subtree reach. -/
inductive MarkScope where
  | shared
  | isolated
  deriving DecidableEq, Repr

/-- What entering a node decides. -/
inductive FoldEnter (V A : Type) where
  | leaf (value : Option V)
  | fold (accumulator : A) (marks : MarkScope)

/-- A fold, whose hooks may change the state they share. -/
structure OpenFold (σ N K V A : Type) where
  successors : N → σ → List N × σ
  mark : N → σ → Option K × σ
  enter : N → σ → FoldEnter V A × σ
  /-- The accumulator after a child, and whether to stop the node's children there. -/
  absorb : A → N → Option V → σ → (A × Bool) × σ
  finish : N → A → σ → Option V × σ

/-! ## The marks and their log -/

/-- The live marks, with the order they were set in, the newest first. -/
structure UndoMarks (K : Type) where
  set : Marks K
  log : List K

namespace UndoMarks

variable {K : Type} [DecidableEq K]

def new : UndoMarks K := ⟨.new, []⟩

def contains (u : UndoMarks K) (key : K) : Bool := u.set.contains key

def len (u : UndoMarks K) : Nat := u.log.length

def insert (u : UndoMarks K) (key : K) : UndoMarks K := ⟨(u.set.insert key).2, key :: u.log⟩

def popMarks (len : Nat) (set : Marks K) : List K → UndoMarks K
  | [] => ⟨set, []⟩
  | key :: log => if len < (key :: log).length then popMarks len (set.remove key) log else ⟨set, key :: log⟩

/-- Take back every mark set after the first `len`. -/
def truncate (u : UndoMarks K) (len : Nat) : UndoMarks K := popMarks len u.set u.log

/-- Set a node's mark, where it has one. -/
def insertKey (u : UndoMarks K) : Option K → UndoMarks K
  | some key => u.insert key
  | none => u

/-- Take marks back at a node that sandboxes them. -/
def restore (u : UndoMarks K) : Option Nat → UndoMarks K
  | some len => u.truncate len
  | none => u

structure Sound (u : UndoMarks K) : Prop where
  holds : u.set.Holds u.log.toFinset
  nodup : u.log.Nodup

theorem sound_new : (new : UndoMarks K).Sound := ⟨Marks.holds_new, nodup_nil⟩

variable {u : UndoMarks K}

theorem Sound.contains (h : u.Sound) (key : K) : u.contains key = decide (key ∈ u.log.toFinset) := by
  rw [Bool.eq_iff_iff, decide_eq_true_iff]
  exact h.holds.1 key

theorem Sound.insert (h : u.Sound) {key : K} (hnew : u.contains key = false) :
    (u.insert key).Sound := by
  rw [h.contains, decide_eq_false_iff_not, mem_toFinset] at hnew
  refine ⟨?_, nodup_cons.mpr ⟨hnew, h.nodup⟩⟩
  have := h.holds.insert key
  rwa [← toFinset_cons] at this

theorem Sound.truncate (h : u.Sound) {log : List K} (hlog : log <:+ u.log) :
    (u.truncate log.length).log = log ∧ (u.truncate log.length).Sound := by
  obtain ⟨set, full⟩ := u
  unfold UndoMarks.truncate
  dsimp only at hlog ⊢
  induction full generalizing set with
  | nil =>
    rw [suffix_nil] at hlog
    subst hlog
    exact ⟨rfl, h⟩
  | cons key full ih =>
    have hnodup := nodup_cons.mp h.nodup
    rcases suffix_cons_iff.mp hlog with rfl | hlog
    · rw [popMarks, if_neg (Nat.lt_irrefl _)]
      exact ⟨rfl, h⟩
    · rw [popMarks, if_pos (show log.length < (key :: full).length from Nat.lt_succ_of_le hlog.length_le)]
      refine ih _ ⟨?_, hnodup.2⟩ hlog
      have := h.holds.remove key
      rwa [toFinset_cons, Finset.erase_insert (fun hin => hnodup.1 (mem_toFinset.mp hin))] at this

end UndoMarks

/-! ## The loop -/

/-- The marks an isolated node restores, as lengths of the log. -/
structure Sandbox where
  /-- The marks at the node's entry, before its own key. -/
  entry : Nat
  /-- The same marks and the node's own key. -/
  withKey : Nat

structure FoldFrame (N A : Type) where
  node : N
  accumulator : A
  /-- Where this node's children start on the shared stack. -/
  base : Nat
  sandbox : Option Sandbox
  broke : Bool

/-- The state of a walk; the heads of the two stacks are their tops. -/
structure FoldWalk (σ N K V A : Type) where
  stack : List (FoldFrame N A)
  pending : List N
  marks : UndoMarks K
  result : Option V
  captured : σ

namespace FoldWalk

variable {σ N K V A : Type} [DecidableEq K]

/-- Open a frame for a node, whose own key is already the last mark set. -/
def pushFrame (f : OpenFold σ N K V A) (w : FoldWalk σ N K V A) (node : N) (accumulator : A) (scope : MarkScope)
    (entryMarks : Nat) : FoldWalk σ N K V A :=
  let (children, s) := f.successors node w.captured
  { w with
    pending := children ++ w.pending
    stack := ⟨node, accumulator, w.pending.length,
      if scope = .isolated then some ⟨entryMarks, w.marks.len⟩ else none, false⟩ :: w.stack
    captured := s }

/-- Hand a child's answer to the frame on top. -/
def absorbTop (f : OpenFold σ N K V A) (w : FoldWalk σ N K V A) (child : N) (value : Option V) :
    FoldWalk σ N K V A :=
  match w.stack with
  | [] => w
  | parent :: rest =>
    let ((accumulator, brk), s) := f.absorb parent.accumulator child value w.captured
    { w with stack := { parent with accumulator, broke := parent.broke || brk } :: rest, captured := s }

def popFrame (f : OpenFold σ N K V A) (w : FoldWalk σ N K V A) (frame : FoldFrame N A)
    (below : List (FoldFrame N A)) : FoldWalk σ N K V A :=
  let (value, s) := f.finish frame.node frame.accumulator w.captured
  let w : FoldWalk σ N K V A :=
    { w with
      stack := below
      pending := w.pending.drop (w.pending.length - frame.base)
      marks := w.marks.restore (frame.sandbox.map (·.entry))
      captured := s }
  match below with
  | [] => { w with result := value }
  | _ :: _ => w.absorbTop f frame.node value

def visitChild (f : OpenFold σ N K V A) (maxDepth : Option Nat) (w : FoldWalk σ N K V A) (child : N) :
    FoldWalk σ N K V A :=
  let refusedByDepth := !mayExpand maxDepth (w.stack.length - 1)
  let (key, s) := f.mark child w.captured
  let w := { w with captured := s }
  if refusedByDepth || key.any w.marks.contains then w.absorbTop f child none
  else
    let entryMarks := w.marks.len
    let w := { w with marks := w.marks.insertKey key }
    match f.enter child w.captured with
    | (.leaf value, s) => { w with captured := s }.absorbTop f child value
    | (.fold accumulator scope, s) => { w with captured := s }.pushFrame f child accumulator scope entryMarks

def turn (f : OpenFold σ N K V A) (maxDepth : Option Nat) (w : FoldWalk σ N K V A) :
    Option (FoldWalk σ N K V A) :=
  match w.stack with
  | [] => none
  | frame :: below =>
    match if frame.broke || w.pending.length ≤ frame.base then none else w.pending.head? with
    | none => some (w.popFrame f frame below)
    | some child =>
      -- an isolated parent resets what its children start from
      some (visitChild f maxDepth
        { w with
          pending := w.pending.tail
          marks := w.marks.restore (frame.sandbox.map (·.withKey)) } child)

end FoldWalk

/-- Fold the space reachable from `root`; `none` is a walk that has not ended after `fuel` turns. -/
def openFoldPostOrder {σ N K V A : Type} [DecidableEq K] (fuel : Nat) (f : OpenFold σ N K V A) (root : N)
    (maxDepth : Option Nat) (captured : σ) : Option (Option V × σ) :=
  let (key, s) := f.mark root captured
  let marks : UndoMarks K := UndoMarks.new.insertKey key
  match f.enter root s with
  | (.leaf value, s) => some (value, s)
  | (.fold accumulator scope, s) =>
    let start := FoldWalk.pushFrame f ⟨[], [], marks, none, s⟩ root accumulator scope 0
    let w := iterate (FoldWalk.turn f maxDepth) fuel start
    if (FoldWalk.turn f maxDepth w).isNone then some (w.result, w.captured) else none

/-! ## The recursive fold -/

section Recursion

variable {σ N K V A : Type} [DecidableEq K]

def addKey (key : Option K) (marks : Finset K) : Finset K :=
  match key with
  | some key => insert key marks
  | none => marks

/-- Fold children into an accumulator until one breaks.  Under an isolated node each starts from
the marks `own`, under a shared one from those the one before it left. -/
def absorbChildren (f : OpenFold σ N K V A) (visit : N → Finset K → σ → Option (Option V × Finset K × σ))
    (own : Option (Finset K)) : List N → A → Finset K → σ → Option (A × Finset K × σ)
  | [], accumulator, marks, s => some (accumulator, marks, s)
  | child :: children, accumulator, marks, s =>
    match visit child (own.getD marks) s with
    | none => none
    | some (value, marks, s) =>
      let ((accumulator, brk), s) := f.absorb accumulator child value s
      if brk then some (accumulator, marks, s) else absorbChildren f visit own children accumulator marks s

/-- The answer of a node reached under the marks `entry`, which are `own` with its key, and the
marks it leaves. -/
def answer (f : OpenFold σ N K V A) (visit : N → Finset K → σ → Option (Option V × Finset K × σ)) (node : N)
    (entry own : Finset K) (s : σ) : Option (Option V × Finset K × σ) :=
  match f.enter node s with
  | (.leaf value, s) => some (value, own, s)
  | (.fold accumulator scope, s) =>
    let (children, s) := f.successors node s
    match absorbChildren f visit (if scope = .isolated then some own else none) children accumulator own s with
    | none => none
    | some (accumulator, marks, s) =>
      let (value, s) := f.finish node accumulator s
      some (value, if scope = .isolated then entry else marks, s)

/-- Fold a child of a node at `depth`: refused when it is marked or too deep. -/
def visitRecursively (f : OpenFold σ N K V A) (maxDepth : Option Nat) :
    Nat → Nat → N → Finset K → σ → Option (Option V × Finset K × σ)
  | 0, _, _, _, _ => none
  | fuel + 1, depth, child, marks, s =>
    let (key, s) := f.mark child s
    if !mayExpand maxDepth depth || key.any (· ∈ marks) then some (none, marks, s)
    else answer f (visitRecursively f maxDepth fuel (depth + 1)) child marks (addKey key marks) s

/-- The recursive fold; `none` is a recursion deeper than `fuel`. -/
def foldRecursively (fuel : Nat) (f : OpenFold σ N K V A) (root : N) (maxDepth : Option Nat) (s : σ) :
    Option (Option V × σ) :=
  let (key, s) := f.mark root s
  match answer f (visitRecursively f maxDepth fuel 0) root ∅ (addKey key ∅) s with
  | some (value, _, s) => some (value, s)
  | none => none

end Recursion

/-! ## The loop follows the recursion -/

namespace FoldWalk

variable {σ N K V A : Type} [DecidableEq K] {f : OpenFold σ N K V A} {maxDepth : Option Nat}

/-- The sandbox of a node entered under `entry` marks, whose log with its key is `log`. -/
def sandboxOf (scope : MarkScope) (entry : Nat) (log : List K) : Option Sandbox :=
  if scope = .isolated then some ⟨entry, log.length⟩ else none

/-- The marks the children of a node start from, when the node fixes them. -/
def ownOf (scope : MarkScope) (log : List K) : Option (Finset K) :=
  if scope = .isolated then some log.toFinset else none

/-- The loop folds a child as the recursion does, whatever lies below. -/
def Follows (f : OpenFold σ N K V A) (maxDepth : Option Nat)
    (visit : N → Finset K → σ → Option (Option V × Finset K × σ)) (depth : Nat) : Prop :=
  ∀ child s value marks s' (frame : FoldFrame N A) below pending (u : UndoMarks K) result,
    visit child u.log.toFinset s = some (value, marks, s') → below.length = depth → u.Sound →
      ∃ k u', u'.Sound ∧ u'.log.toFinset = marks ∧ u.log <:+ u'.log ∧
        Steps (turn f maxDepth) k (visitChild f maxDepth ⟨frame :: below, pending, u, result, s⟩ child)
          (absorbTop f ⟨frame :: below, pending, u', result, s'⟩ child value)

variable {acc : A} {log : List K} {rest : List N} {node : N} {result : Option V} {u : UndoMarks K} {s : σ}

theorem reset_marks (scope : MarkScope) (entry : Nat) (hu : u.Sound) (hlog : log <:+ u.log) :
    let u₁ := u.restore ((sandboxOf scope entry log).map (·.withKey))
    u₁.Sound ∧ log <:+ u₁.log ∧ u₁.log.toFinset = (ownOf scope log).getD u.log.toFinset := by
  cases scope with
  | shared => exact ⟨hu, hlog, rfl⟩
  | isolated =>
    obtain ⟨heq, hsound⟩ := hu.truncate hlog
    exact ⟨hsound, ⟨[], heq.symm⟩, congrArg List.toFinset heq⟩

variable {below : List (FoldFrame N A)}

variable {brk : Bool} {entry : List K} {children left : List N} {depth fuel : Nat} {box : Option Sandbox}
   {value : Option V} {s' : σ}

theorem turn_child {child : N} :
    turn f maxDepth ⟨⟨node, acc, rest.length, box, false⟩ :: below, child :: children ++ rest, u, result, s⟩ =
      some (visitChild f maxDepth ⟨⟨node, acc, rest.length, box, false⟩ :: below, children ++ rest,
        u.restore (box.map (·.withKey)), result, s⟩ child) := by
  have hlt : ¬ children.length + rest.length + 1 ≤ rest.length := by omega
  simp [turn, hlt]

theorem turn_done (h : brk = true ∨ left = []) :
    turn f maxDepth ⟨⟨node, acc, rest.length, box, brk⟩ :: below, left ++ rest, u, result, s⟩ =
      some (popFrame f ⟨⟨node, acc, rest.length, box, brk⟩ :: below, left ++ rest, u, result, s⟩
        ⟨node, acc, rest.length, box, brk⟩ below) := by
  rcases h with rfl | rfl <;> simp [turn]

omit [DecidableEq K] in
theorem absorbChildren_none {visit : N → Finset K → σ → Option (Option V × Finset K × σ)} {own : Option (Finset K)}
    {child : N} {children : List N} {acc : A} {marks : Finset K} {s : σ} (hv : visit child (own.getD marks) s = none) :
    absorbChildren f visit own (child :: children) acc marks s = none := by
  simp [absorbChildren, hv]

omit [DecidableEq K] in
theorem absorbChildren_some {visit : N → Finset K → σ → Option (Option V × Finset K × σ)} {own : Option (Finset K)}
    {child : N} {children : List N} {acc accumulator : A} {marks marks₁ : Finset K} {s s₁ s₂ : σ} {value : Option V}
    {brk : Bool} (hv : visit child (own.getD marks) s = some (value, marks₁, s₁))
    (habsorb : f.absorb acc child value s₁ = ((accumulator, brk), s₂)) :
    absorbChildren f visit own (child :: children) acc marks s =
      if brk then some (accumulator, marks₁, s₂)
      else absorbChildren f visit own children accumulator marks₁ s₂ := by
  simp [absorbChildren, hv, habsorb]

omit [DecidableEq K] in
theorem answer_fold {visit : N → Finset K → σ → Option (Option V × Finset K × σ)} {node : N} {acc : A}
    {scope : MarkScope} {children : List N} {entry own : Finset K} {s s₁ s₂ : σ}
    (henter : f.enter node s = (.fold acc scope, s₁)) (hsuccessors : f.successors node s₁ = (children, s₂)) :
    answer f visit node entry own s =
      (absorbChildren f visit (if scope = .isolated then some own else none) children acc own s₂).map fun r =>
        ((f.finish node r.1 r.2.2).1, if scope = .isolated then entry else r.2.1, (f.finish node r.1 r.2.2).2) := by
  simp only [answer, henter, hsuccessors]
  cases absorbChildren f visit (if scope = .isolated then some own else none) children acc own s₂ <;> rfl

omit [DecidableEq K] in
theorem absorbTop_eq {node child : N} {acc accumulator : A} {base : Nat} {box : Option Sandbox} {brk : Bool}
    {below : List (FoldFrame N A)} {pending : List N} {u : UndoMarks K} {result value : Option V} {s s' : σ}
    (habsorb : f.absorb acc child value s = ((accumulator, brk), s')) :
    absorbTop f ⟨⟨node, acc, base, box, false⟩ :: below, pending, u, result, s⟩ child value =
      ⟨⟨node, accumulator, base, box, brk⟩ :: below, pending, u, result, s'⟩ := by
  simp [absorbTop, habsorb]

variable {scope : MarkScope}

theorem steps_children {visit : N → Finset K → σ → Option (Option V × Finset K × σ)}
    (hvisit : Follows f maxDepth visit depth) (node : N) (rest : List N) (entry : Nat)
    (result : Option V) (hdepth : below.length = depth)
    (children : List N) : ∀ {acc acc' : A} {s s' : σ} {u : UndoMarks K} {marks : Finset K}, u.Sound →
      log <:+ u.log → absorbChildren f visit (ownOf scope log) children acc u.log.toFinset s = some (acc', marks, s') →
      ∃ k u' left brk, u'.Sound ∧ u'.log.toFinset = marks ∧ log <:+ u'.log ∧ (brk = true ∨ left = []) ∧
        Steps (turn f maxDepth) k
          ⟨⟨node, acc, rest.length, sandboxOf scope entry log, false⟩ :: below, children ++ rest, u, result, s⟩
          ⟨⟨node, acc', rest.length, sandboxOf scope entry log, brk⟩ :: below, left ++ rest, u', result, s'⟩ := by
  induction children with
  | nil =>
    intro acc acc' s s' u marks hu hlog h
    cases h
    exact ⟨0, u, [], false, hu, rfl, hlog, Or.inr rfl, .zero _⟩
  | cons child children ih =>
    intro acc acc' s s' u marks hu hlog h
    obtain ⟨hu₁, hlog₁, hown⟩ := reset_marks scope entry hu hlog
    cases hv : visit child ((ownOf scope log).getD u.log.toFinset) s with
    | none =>
      rw [absorbChildren_none hv] at h
      cases h
    | some r =>
      obtain ⟨value, marks₁, s₁⟩ := r
      obtain ⟨⟨⟨accumulator, brk⟩, s₂⟩, habsorb⟩ : ∃ r, f.absorb acc child value s₁ = r := ⟨_, rfl⟩
      rw [absorbChildren_some hv habsorb] at h
      rw [← hown] at hv
      obtain ⟨k, u', hu', hmarks, hsuffix, hsteps⟩ := hvisit child s value marks₁ s₁
        ⟨node, acc, rest.length, sandboxOf scope entry log, false⟩ below (children ++ rest) _ result hv hdepth hu₁
      have hlog' := hlog₁.trans hsuffix
      rw [absorbTop_eq habsorb] at hsteps
      have hfirst : Steps (turn f maxDepth) (k + 1) _ _ := .succ turn_child hsteps
      cases brk with
      | true =>
        cases h
        exact ⟨k + 1, u', children, true, hu', hmarks, hlog', Or.inl rfl, hfirst⟩
      | false =>
        rw [← hmarks, if_neg Bool.false_ne_true] at h
        obtain ⟨l, u'', left, brk, hu'', hmarks', hlog'', hdone, hrest⟩ := ih hu' hlog' h
        exact ⟨k + 1 + l, u'', left, brk, hu'', hmarks', hlog'', hdone, hfirst.trans hrest⟩

theorem turn_close {frame : FoldFrame N A}
    (hdone : brk = true ∨ left = []) (hfinish : f.finish node acc s = (value, s')) :
    turn f maxDepth ⟨⟨node, acc, rest.length, sandboxOf scope entry.length log, brk⟩ :: frame :: below, left ++ rest,
        u, result, s⟩ =
      some (absorbTop f ⟨frame :: below, rest, u.restore ((sandboxOf scope entry.length log).map (·.entry)), result,
        s'⟩ node value) := by
  rw [turn_done hdone]
  simp [popFrame, hfinish]

theorem leave_marks (scope : MarkScope) (log : List K) (hu : u.Sound) (hentry : entry <:+ u.log) :
    let u₁ := u.restore ((sandboxOf scope entry.length log).map (·.entry))
    u₁.Sound ∧ entry <:+ u₁.log ∧
      u₁.log.toFinset = if scope = .isolated then entry.toFinset else u.log.toFinset := by
  cases scope with
  | shared => exact ⟨hu, hentry, rfl⟩
  | isolated =>
    obtain ⟨heq, hsound⟩ := hu.truncate hentry
    exact ⟨hsound, ⟨[], heq.symm⟩, congrArg List.toFinset heq⟩

theorem insertKey_spec {key : Option K} (hu : u.Sound) (hkey : key.any u.contains = false) :
    (u.insertKey key).Sound ∧ u.log <:+ (u.insertKey key).log ∧
      (u.insertKey key).log.toFinset = addKey key u.log.toFinset := by
  cases key with
  | none => exact ⟨hu, suffix_rfl, rfl⟩
  | some key => exact ⟨hu.insert hkey, suffix_cons key _, toFinset_cons⟩

/-- What the loop and the recursion do with a child: both answer at once, or both open it. -/
theorem visit_cases (hu : u.Sound) (hdepth : below.length = depth) (child : N) (s : σ) :
    (∃ value s' u', u'.Sound ∧ u.log <:+ u'.log ∧
      (∀ fuel, visitRecursively f maxDepth (fuel + 1) depth child u.log.toFinset s =
        some (value, u'.log.toFinset, s')) ∧
      ∀ frame pending result, visitChild f maxDepth ⟨frame :: below, pending, u, result, s⟩ child =
        absorbTop f ⟨frame :: below, pending, u', result, s'⟩ child value) ∨
    ∃ acc scope children s' u', u'.Sound ∧ u.log <:+ u'.log ∧
      (∀ fuel, visitRecursively f maxDepth (fuel + 1) depth child u.log.toFinset s =
        (absorbChildren f (visitRecursively f maxDepth fuel (depth + 1)) (ownOf scope u'.log) children acc
          u'.log.toFinset s').map fun r => ((f.finish child r.1 r.2.2).1,
            if scope = .isolated then u.log.toFinset else r.2.1, (f.finish child r.1 r.2.2).2)) ∧
      ∀ frame pending result, visitChild f maxDepth ⟨frame :: below, pending, u, result, s⟩ child =
        ⟨⟨child, acc, pending.length, sandboxOf scope u.log.length u'.log, false⟩ :: frame :: below,
          children ++ pending, u', result, s'⟩ := by
  obtain ⟨⟨key, s₁⟩, hmark⟩ : ∃ r, f.mark child s = r := ⟨_, rfl⟩
  have hrefused : key.any u.contains = key.any (· ∈ u.log.toFinset) := congrArg (key.any ·) (funext hu.contains)
  have hlength : ∀ frame : FoldFrame N A, (frame :: below).length - 1 = depth := fun frame => by
    rw [length_cons, hdepth, Nat.add_sub_cancel]
  by_cases hrefuse : (!mayExpand maxDepth depth || key.any u.contains) = true
  · refine Or.inl ⟨none, s₁, u, hu, suffix_rfl, fun fuel => ?_, fun frame pending result => ?_⟩
    · rw [hrefused] at hrefuse
      simp only [visitRecursively, hmark]
      rw [if_pos hrefuse]
    · simp only [visitChild, hmark, hlength]
      rw [if_pos hrefuse]
  · obtain ⟨hu₁, hsuffix, hmarks⟩ := insertKey_spec hu (by
      rw [Bool.or_eq_true, not_or] at hrefuse
      exact Bool.eq_false_iff.mpr hrefuse.2)
    have hanswer : ∀ fuel, visitRecursively f maxDepth (fuel + 1) depth child u.log.toFinset s =
        answer f (visitRecursively f maxDepth fuel (depth + 1)) child u.log.toFinset
          (u.insertKey key).log.toFinset s₁ := by
      intro fuel
      rw [hrefused] at hrefuse
      simp only [visitRecursively, hmark]
      rw [if_neg hrefuse, hmarks]
    obtain ⟨⟨entered, s₂⟩, henter⟩ : ∃ r, f.enter child s₁ = r := ⟨_, rfl⟩
    cases entered with
    | leaf value =>
      refine Or.inl ⟨value, s₂, u.insertKey key, hu₁, hsuffix, fun fuel => ?_, fun frame pending result => ?_⟩
      · rw [hanswer]
        simp only [answer, henter]
      · simp only [visitChild, hmark, hlength]
        rw [if_neg hrefuse]
        simp only [henter]
    | fold acc scope =>
      obtain ⟨⟨children, s₃⟩, hsuccessors⟩ : ∃ r, f.successors child s₂ = r := ⟨_, rfl⟩
      refine Or.inr ⟨acc, scope, children, s₃, u.insertKey key, hu₁, hsuffix, fun fuel => ?_,
        fun frame pending result => ?_⟩
      · rw [hanswer, answer_fold henter hsuccessors]
        rfl
      · simp only [visitChild, hmark, hlength]
        rw [if_neg hrefuse]
        simp only [henter, pushFrame, hsuccessors]
        rfl

/-- The loop folds a child as the recursion does, by induction on the depth of the recursion. -/
theorem follows (fuel : Nat) : ∀ depth, Follows f maxDepth (visitRecursively f maxDepth fuel depth) depth := by
  induction fuel with
  | zero =>
    intro depth child s value marks s' frame below pending u result h
    cases h
  | succ fuel ih =>
    intro depth child s value marks s' frame below pending u result h hdepth hu
    rcases visit_cases (f := f) hu hdepth child s with
      ⟨value', s'', u', hu', hsuffix, hrecursion, hloop⟩ |
      ⟨acc, scope, children, s₁, u₁, hu₁, hsuffix, hrecursion, hloop⟩
    · rw [hrecursion] at h
      cases h
      exact ⟨0, u', hu', rfl, hsuffix, by rw [hloop]; exact .zero _⟩
    · rw [hrecursion, Option.map_eq_some_iff] at h
      obtain ⟨⟨acc', marks', s₂⟩, habsorbed, heq⟩ := h
      have hbelow : (frame :: below).length = depth + 1 := by rw [length_cons, hdepth]
      obtain ⟨k, u', left, brk, hu', hmarks', hlog', hdone, hsteps⟩ := steps_children (ih (depth + 1))
        child pending u.log.length result hbelow children hu₁ suffix_rfl habsorbed
      obtain ⟨hu'', hsuffix', hleft⟩ := leave_marks scope u₁.log hu' (hsuffix.trans hlog')
      obtain ⟨⟨value', s₃⟩, hfinish⟩ : ∃ r, f.finish child acc' s₂ = r := ⟨_, rfl⟩
      dsimp only at heq
      rw [hfinish] at heq
      cases heq
      refine ⟨k + 1, _, hu'', ?_, hsuffix', ?_⟩
      · rw [hleft, hmarks']
      · rw [hloop]
        exact hsteps.trans (.single (turn_close hdone hfinish))

/-! ## The recursion ends where the loop does -/

omit [DecidableEq K] in
theorem absorbChildren_mono {visit visit' : N → Finset K → σ → Option (Option V × Finset K × σ)}
    (hvisit : ∀ child marks s r, visit child marks s = some r → visit' child marks s = some r)
    {own : Option (Finset K)} (children : List N) : ∀ {acc : A} {marks : Finset K} {s : σ} {r : A × Finset K × σ},
      absorbChildren f visit own children acc marks s = some r →
        absorbChildren f visit' own children acc marks s = some r := by
  induction children with
  | nil => exact fun h => h
  | cons child children ih =>
    intro acc marks s r h
    cases hv : visit child (own.getD marks) s with
    | none =>
      rw [absorbChildren_none hv] at h
      cases h
    | some answered =>
      obtain ⟨value, marks₁, s₁⟩ := answered
      obtain ⟨⟨⟨accumulator, brk⟩, s₂⟩, habsorb⟩ : ∃ r, f.absorb acc child value s₁ = r := ⟨_, rfl⟩
      rw [absorbChildren_some hv habsorb] at h
      rw [absorbChildren_some (hvisit _ _ _ _ hv) habsorb]
      cases brk with
      | true => exact h
      | false => exact ih h

omit [DecidableEq K] in
theorem answer_mono {visit visit' : N → Finset K → σ → Option (Option V × Finset K × σ)}
    (hvisit : ∀ child marks s r, visit child marks s = some r → visit' child marks s = some r) {node : N}
    {entry own : Finset K} {s : σ} {r : Option V × Finset K × σ} (h : answer f visit node entry own s = some r) :
    answer f visit' node entry own s = some r := by
  obtain ⟨⟨entered, s₁⟩, henter⟩ : ∃ r, f.enter node s = r := ⟨_, rfl⟩
  cases entered with
  | leaf value =>
    simp only [answer, henter] at h ⊢
    exact h
  | fold accumulator scope =>
    obtain ⟨⟨children, s₂⟩, hsuccessors⟩ : ∃ r, f.successors node s₁ = r := ⟨_, rfl⟩
    rw [answer_fold henter hsuccessors, Option.map_eq_some_iff] at h ⊢
    obtain ⟨r₁, habsorbed, heq⟩ := h
    exact ⟨r₁, absorbChildren_mono hvisit children habsorbed, heq⟩

theorem visitRecursively_mono {more : Nat} (hle : fuel ≤ more) : ∀ {depth child marks} {s : σ}
    {r : Option V × Finset K × σ}, visitRecursively f maxDepth fuel depth child marks s = some r →
      visitRecursively f maxDepth more depth child marks s = some r := by
  induction fuel generalizing more with
  | zero => exact fun h => nomatch h
  | succ fuel ih =>
    intro depth child marks s r h
    obtain ⟨more, rfl⟩ : ∃ m, more = m + 1 := ⟨more - 1, by omega⟩
    obtain ⟨⟨key, s₁⟩, hmark⟩ : ∃ r, f.mark child s = r := ⟨_, rfl⟩
    simp only [visitRecursively, hmark] at h ⊢
    by_cases hrefuse : (!mayExpand maxDepth depth || key.any (· ∈ marks)) = true
    · rw [if_pos hrefuse] at h ⊢
      exact h
    · rw [if_neg hrefuse] at h ⊢
      exact answer_mono (fun _ _ _ _ => ih (Nat.le_of_succ_le_succ hle)) h

/-- Where the loop ends, the recursion over the children of the frame on top does, by induction on
the turns that are left. -/
theorem ends_children (n : Nat) : ∀ {depth : Nat} {node : N} (rest : List N) {scope : MarkScope} {entry : Nat}
    {log : List K} {below : List (FoldFrame N A)} {result : Option V} (children : List N) {acc : A} {s : σ}
    {u : UndoMarks K} {t : FoldWalk σ N K V A}, below.length = depth → u.Sound → log <:+ u.log →
      Steps (turn f maxDepth) n
        ⟨⟨node, acc, rest.length, sandboxOf scope entry log, false⟩ :: below, children ++ rest, u, result, s⟩ t →
      turn f maxDepth t = none → ∃ fuel r,
        absorbChildren f (visitRecursively f maxDepth fuel depth) (ownOf scope log) children acc u.log.toFinset s =
          some r := by
  induction n using Nat.strong_induction_on with
  | _ n ih =>
    intro depth node rest scope entry log below result children acc s u t hdepth hu hlog hsteps ht
    cases children with
    | nil => exact ⟨0, _, rfl⟩
    | cons child children =>
      obtain ⟨hu₁, hlog₁, hown⟩ := reset_marks scope entry hu hlog
      obtain ⟨hpos, hsteps₁⟩ := (Steps.single turn_child).split hsteps ht
      generalize u.restore ((sandboxOf scope entry log).map (·.withKey)) = u₁ at hu₁ hlog₁ hown hsteps₁
      have hchild : ∃ fuel r, visitRecursively f maxDepth fuel depth child u₁.log.toFinset s = some r := by
        rcases visit_cases (f := f) hu₁ hdepth child s with
          ⟨value, s', u', -, -, hrecursion, -⟩ | ⟨acc', scope', children', s', u', hu', -, hrecursion, hloop⟩
        · exact ⟨1, _, hrecursion 0⟩
        · rw [hloop] at hsteps₁
          have hbelow : (⟨node, acc, rest.length, sandboxOf scope entry log, false⟩ :: below : List (FoldFrame N A)).length =
              depth + 1 := by rw [length_cons, hdepth]
          obtain ⟨fuel, r, habsorbed⟩ := ih (n - 1) (by omega) (children ++ rest) children' hbelow hu' suffix_rfl hsteps₁ ht
          exact ⟨fuel + 1, _, by rw [hrecursion, habsorbed]; rfl⟩
      obtain ⟨fuel, ⟨value, marks, s₁⟩, hvisit⟩ := hchild
      obtain ⟨⟨⟨accumulator, brk⟩, s₂⟩, habsorb⟩ : ∃ r, f.absorb acc child value s₁ = r := ⟨_, rfl⟩
      obtain ⟨k, u', hu', hmarks, hsuffix, hk⟩ := follows fuel depth child s value marks s₁
        ⟨node, acc, rest.length, sandboxOf scope entry log, false⟩ below (children ++ rest) u₁ result hvisit hdepth hu₁
      obtain ⟨hle, hsteps₂⟩ := hk.split hsteps₁ ht
      rw [absorbTop_eq habsorb] at hsteps₂
      rw [hown] at hvisit
      cases brk with
      | true => exact ⟨fuel, _, by rw [absorbChildren_some hvisit habsorb]; rfl⟩
      | false =>
        obtain ⟨fuel', r, habsorbed⟩ := ih (n - 1 - k) (by omega) rest children hdepth hu' (hlog₁.trans hsuffix) hsteps₂ ht
        refine ⟨max fuel fuel', r, ?_⟩
        rw [absorbChildren_some (visitRecursively_mono (Nat.le_max_left _ _) hvisit) habsorb,
          if_neg Bool.false_ne_true, ← hmarks]
        exact absorbChildren_mono (fun _ _ _ _ => visitRecursively_mono (Nat.le_max_right _ _)) children habsorbed

theorem root_steps {root : N} {acc' : A} {s'' : σ} {marks : Finset K} (hu : u.Sound)
    (habsorbed : absorbChildren f (visitRecursively f maxDepth fuel 0) (ownOf scope u.log) children acc u.log.toFinset s =
      some (acc', marks, s')) (hfinish : f.finish root acc' s' = (value, s'')) :
    ∃ k t, Steps (turn f maxDepth) k ⟨[⟨root, acc, 0, sandboxOf scope 0 u.log, false⟩], children, u, none, s⟩ t ∧
      turn f maxDepth t = none ∧ t.result = value ∧ t.captured = s'' := by
  obtain ⟨k, u', left, brk, -, -, -, hdone, hsteps⟩ := steps_children (follows fuel 0) root [] 0 none
    (show ([] : List (FoldFrame N A)).length = 0 from rfl) children hu suffix_rfl habsorbed
  rw [append_nil] at hsteps
  refine ⟨k + 1, _, hsteps.trans (.single (turn_done hdone)), ?_, ?_, ?_⟩ <;> simp [popFrame, hfinish, turn]

end FoldWalk

/-- The loop ends exactly where the recursion does, with the same answer and the same state. -/
theorem openFoldPostOrder_iff {σ N K V A : Type} [DecidableEq K] (f : OpenFold σ N K V A) (root : N)
    (maxDepth : Option Nat) (s : σ) (r : Option V × σ) :
    (∃ fuel, openFoldPostOrder fuel f root maxDepth s = some r) ↔
      ∃ fuel, foldRecursively fuel f root maxDepth s = some r := by
  obtain ⟨⟨key, s₁⟩, hmark⟩ : ∃ r, f.mark root s = r := ⟨_, rfl⟩
  obtain ⟨⟨entered, s₂⟩, henter⟩ : ∃ r, f.enter root s₁ = r := ⟨_, rfl⟩
  have hnone : key.any (UndoMarks.new : UndoMarks K).contains = false := by
    cases key <;> simp [UndoMarks.new, UndoMarks.contains, Marks.new, Marks.contains]
  obtain ⟨hu, -, hmarks⟩ := FoldWalk.insertKey_spec UndoMarks.sound_new hnone
  cases entered with
  | leaf value => simp only [openFoldPostOrder, foldRecursively, answer, hmark, henter]
  | fold acc scope =>
    obtain ⟨⟨children, s₃⟩, hsuccessors⟩ : ∃ r, f.successors root s₂ = r := ⟨_, rfl⟩
    have hloop : ∀ fuel, openFoldPostOrder fuel f root maxDepth s =
        let w := iterate (FoldWalk.turn f maxDepth) fuel
          ⟨[⟨root, acc, 0, FoldWalk.sandboxOf scope 0 (UndoMarks.new.insertKey key).log, false⟩], children,
            UndoMarks.new.insertKey key, none, s₃⟩
        if (FoldWalk.turn f maxDepth w).isNone then some (w.result, w.captured) else none := by
      intro fuel
      simp only [openFoldPostOrder, hmark, henter, FoldWalk.pushFrame, hsuccessors, append_nil]
      rfl
    have hrecursion : ∀ fuel, foldRecursively fuel f root maxDepth s =
        (absorbChildren f (visitRecursively f maxDepth fuel 0)
          (FoldWalk.ownOf scope (UndoMarks.new.insertKey key).log) children acc
          (UndoMarks.new.insertKey key).log.toFinset s₃).map fun r => f.finish root r.1 r.2.2 := by
      intro fuel
      simp only [foldRecursively, hmark]
      rw [FoldWalk.answer_fold henter hsuccessors, FoldWalk.ownOf,
        show addKey key ∅ = (UndoMarks.new.insertKey key).log.toFinset from hmarks.symm]
      generalize absorbChildren f (visitRecursively f maxDepth fuel 0) _ children acc _ s₃ = absorbed
      cases absorbed <;> rfl
    constructor
    · rintro ⟨fuel, h⟩
      rw [hloop] at h
      dsimp only at h
      split at h
      · next hexit =>
        rw [Option.isNone_iff_eq_none] at hexit
        obtain ⟨n, hn⟩ := @steps_iterate _ (FoldWalk.turn f maxDepth) fuel
          ⟨[⟨root, acc, 0, FoldWalk.sandboxOf scope 0 (UndoMarks.new.insertKey key).log, false⟩], children,
            UndoMarks.new.insertKey key, none, s₃⟩
        obtain ⟨fuel', r', habsorbed⟩ := FoldWalk.ends_children n [] children
          (show ([] : List (FoldFrame N A)).length = 0 from rfl) hu suffix_rfl (by rw [append_nil]; exact hn) hexit
        obtain ⟨k, t, hk, ht, hresult, hcaptured⟩ := FoldWalk.root_steps hu habsorbed rfl
        refine ⟨fuel', ?_⟩
        rw [hrecursion, habsorbed, ← h, hk.iterate_of_exit ht hexit, hresult, hcaptured]
        rfl
      · cases h
    · rintro ⟨fuel, h⟩
      rw [hrecursion, Option.map_eq_some_iff] at h
      obtain ⟨r', habsorbed, hfinish⟩ := h
      obtain ⟨k, t, hk, ht, hresult, hcaptured⟩ := FoldWalk.root_steps hu habsorbed hfinish
      refine ⟨k, ?_⟩
      rw [hloop, hk.iterate_eq ht (Nat.le_refl k)]
      dsimp only
      rw [ht, hresult, hcaptured]
      rfl

/-! ## The calls of a fold -/

/-- A call that a walk makes of the hooks that decide its answer. -/
inductive FoldCall (N V A : Type) where
  | enter (node : N)
  | absorb (accumulator : A) (child : N) (value : Option V)
  | finish (node : N) (accumulator : A)

def OpenFold.recorded {σ N K V A : Type} (f : OpenFold σ N K V A) :
    OpenFold (σ × List (FoldCall N V A)) N K V A where
  successors node s := ((f.successors node s.1).1, (f.successors node s.1).2, s.2)
  mark node s := ((f.mark node s.1).1, (f.mark node s.1).2, s.2)
  enter node s := ((f.enter node s.1).1, (f.enter node s.1).2, s.2 ++ [.enter node])
  absorb accumulator child value s := ((f.absorb accumulator child value s.1).1,
    (f.absorb accumulator child value s.1).2, s.2 ++ [.absorb accumulator child value])
  finish node accumulator s := ((f.finish node accumulator s.1).1, (f.finish node accumulator s.1).2,
    s.2 ++ [.finish node accumulator])

/-- The loop ends exactly where the recursion does, with the same answer, the same state of the fold
and the same calls in the same order. -/
theorem openFoldPostOrder_recursive {σ N K V A : Type} [DecidableEq K] (f : OpenFold σ N K V A) (root : N)
    (maxDepth : Option Nat) (s : σ) :
    (∀ value s', (∃ fuel, openFoldPostOrder fuel f root maxDepth s = some (value, s')) ↔
      ∃ fuel, foldRecursively fuel f root maxDepth s = some (value, s')) ∧ ∀ value s' calls,
      (∃ fuel, openFoldPostOrder fuel f.recorded root maxDepth (s, []) = some (value, s', calls)) ↔
        ∃ fuel, foldRecursively fuel f.recorded root maxDepth (s, []) = some (value, s', calls) :=
  ⟨fun _ _ => openFoldPostOrder_iff f root maxDepth s _,
    fun _ _ _ => openFoldPostOrder_iff f.recorded root maxDepth (s, []) _⟩

end CfgLib
