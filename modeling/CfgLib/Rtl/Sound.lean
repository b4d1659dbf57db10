import CfgLib.Rtl.Fixpoint
import CfgLib.Rtl.Transfer
import Mathlib.Data.List.Pairwise

/-!
# Selection resolution is sound

The states of the fixpoint hold whenever a run enters a block, and a reported
selection has the reported position as its index whenever a run comes to it.
-/

namespace CfgLib.Rtl

open CfgLib.Lib Relation

variable {ρ ω : Type} [DecidableEq ρ] {rootWidth : ρ → Nat} {roots : List ρ} {fold : Fold ω}
  {eval : Semantics ω} {f : FunctionView ρ ω rootWidth}

/-! ## Prefixes of a block -/

def stateAfter (roots : List ρ) (fold : Fold ω) (f : FunctionView ρ ω rootWidth) (block done : Nat)
    (state : ConstState) : ConstState :=
  (runInstructions roots fold f ((f.instructions block).take done) state).1

def stagingAfter (roots : List ρ) (fold : Fold ω) (f : FunctionView ρ ω rootWidth)
    (inst position : Nat) (state : ConstState) : Staging :=
  runStatements roots fold rootWidth (f.record inst).width state inst 0
    ((f.record inst).statements.take position) ⟨.empty, [], []⟩

theorem runInstructions_append (l l' : List Nat) (state : ConstState) :
    (runInstructions roots fold f (l ++ l') state).1 =
      (runInstructions roots fold f l' (runInstructions roots fold f l state).1).1 := by
  induction l generalizing state with
  | nil => rfl
  | cons inst rest ih => exact ih _

variable {entry state : ConstState} {facts : Facts} {order : List Nat} {inst : Nat} {p : Point ρ}

theorem stateAfter_succ {block done : Nat} (h : (f.instructions block)[done]? = some inst) (state : ConstState) :
    stateAfter roots fold f block (done + 1) state =
      (runRecord roots fold inst (f.record inst) (stateAfter roots fold f block done state)).1 := by
  unfold stateAfter
  rw [List.take_add_one, h, Option.toList_some, runInstructions_append]
  rfl

theorem stateAfter_length (block : Nat) (state : ConstState) :
    stateAfter roots fold f block (f.instructions block).length state =
      (runBlock roots fold f block state).1 := by
  unfold stateAfter runBlock
  rw [List.take_length]

theorem stagingAfter_succ {position : Nat} {statement : Statement ρ ω}
    (h : (f.record inst).statements[position]? = some statement) (state : ConstState) :
    stagingAfter roots fold f inst (position + 1) state =
      runStatement roots fold rootWidth (f.record inst).width state inst position
        (stagingAfter roots fold f inst position state) statement := by
  unfold stagingAfter
  have hlt := (List.getElem?_eq_some_iff.mp h).1
  rw [List.take_add_one, h, Option.toList_some, runStatements_append, List.length_take,
    Nat.min_eq_left hlt.le, Nat.zero_add]
  rfl

theorem mem_report_runInstructions {l : List Nat} {r : ResolvedSelection}
    (hr : r ∈ (runInstructions roots fold f l state).2) :
    ∃ j inst, l[j]? = some inst ∧ r ∈ (runRecord roots fold inst (f.record inst)
      (runInstructions roots fold f (l.take j) state).1).2 := by
  induction l generalizing state with
  | nil => cases hr
  | cons inst rest ih =>
    rcases List.mem_append.mp hr with hr | hr
    · exact ⟨0, inst, rfl, hr⟩
    · obtain ⟨j, later, hj, hmem⟩ := ih hr
      exact ⟨j + 1, later, hj, hmem⟩

/-- A reported selection of a block: the instruction and statement it names, and the
staging in which its index is a constant. -/
theorem mem_report_runBlock {block : Nat} {r : ResolvedSelection} (hr : r ∈ (runBlock roots fold f block state).2) :
    ∃ done statement, (f.instructions block)[done]? = some r.inst ∧
      (f.record r.inst).statements[r.statement]? = some statement ∧
      (stagingAfter roots fold f r.inst r.statement
        (stateAfter roots fold f block done state)).Resolves (f.record r.inst).width statement
          r.candidate := by
  obtain ⟨done, inst, hinst, hmem⟩ := mem_report_runInstructions hr
  rcases mem_report_runStatements hmem with hempty | ⟨j, statement, hj, rfl, hposition, hres⟩
  · cases hempty
  · rw [Nat.zero_add] at hposition
    subst hposition
    exact ⟨done, statement, hinst, hj, hres⟩

/-! ## Following a run -/

/-- The constants hold at a point of a run. -/
structure Follows (roots : List ρ) (fold : Fold ω) (f : FunctionView ρ ω rootWidth) (facts : Facts)
    (order : List Nat) (p : Point ρ) (entry : ConstState) : Prop where
  mem : p.block ∈ order
  incoming : facts.incoming p.block = some entry
  known : KnownBy rootWidth roots (stateAfter roots fold f p.block p.done entry).get p.state
  tracks : ∀ inst, (f.instructions p.block)[p.done]? = some inst →
    (stagingAfter roots fold f inst p.position
      (stateAfter roots fold f p.block p.done entry)).Tracks rootWidth roots (f.record inst).width
        (stateAfter roots fold f p.block p.done entry) p.values p.delta
        (((f.record inst).statements.take p.position).flatMap Statement.results)

theorem tracks_start {before : ρ → Value}
    (h : KnownBy rootWidth roots state.get before) (inst : Nat) (values : Nat → Value) :
    (stagingAfter roots fold f inst 0 state).Tracks rootWidth roots (f.record inst).width state
      values before (((f.record inst).statements.take 0).flatMap Statement.results) :=
  ⟨ValueConsts.hold_empty _ values, h⟩

theorem Follows.statement (hexact : fold.Exact eval) (h : Follows roots fold f facts order p entry)
    {statement : Statement ρ ω} {values' : Nat → Value} {delta' : ρ → Value}
    (hroots : ∀ root ∈ statement.roots, root ∈ roots) (hinst : (f.instructions p.block)[p.done]? = some inst)
    (hstatement : (f.record inst).statements[p.position]? = some statement)
    (hstep : StatementStep eval (f.record inst).width p.state p.values p.delta statement values' delta') :
    Follows roots fold f facts order
      { p with position := p.position + 1, values := values', delta := delta' } entry := by
  refine ⟨h.mem, h.incoming, h.known, ?_⟩
  intro other hother
  rw [hinst] at hother
  cases hother
  have hmem := List.mem_of_getElem? hstatement
  -- each value has one definition
  have hsplit : ((f.record inst).statements.take (p.position + 1)).flatMap Statement.results =
      ((f.record inst).statements.take p.position).flatMap Statement.results ++
        statement.results := by
    rw [List.take_add_one, hstatement, Option.toList_some, List.flatMap_append,
      List.flatMap_singleton]
  have hnodup : (((f.record inst).statements.take (p.position + 1)).flatMap
      Statement.results).Nodup := by
    have hall := (f.record inst).fresh
    rw [← List.take_append_drop (p.position + 1) (f.record inst).statements,
      List.flatMap_append] at hall
    exact (List.nodup_append.mp hall).1
  rw [hsplit] at hnodup
  obtain ⟨_, hresults, hdisjoint⟩ := List.nodup_append.mp hnodup
  change (stagingAfter roots fold f inst (p.position + 1) _).Tracks _ _ _ _ values' delta' _
  rw [stagingAfter_succ hstatement, hsplit]
  refine runStatement_tracks hexact h.known (h.tracks inst hinst)
    ((f.record inst).typed statement hmem) hroots hresults ?_ hstep
  intro result hresult hold
  exact hdisjoint result hold result hresult rfl

theorem Follows.commit (h : Follows roots fold f facts order p entry) {after : ρ → Value}
    (hinst : (f.instructions p.block)[p.done]? = some inst) (hposition : p.position = (f.record inst).statements.length)
    (hafter : (f.record inst).control.isCall = false → after = p.delta) :
    Follows roots fold f facts order ⟨p.block, p.done + 1, 0, after, p.values, after⟩ entry := by
  have hknown : KnownBy rootWidth roots
      (stateAfter roots fold f p.block (p.done + 1) entry).get after := by
    rw [stateAfter_succ hinst]
    unfold runRecord
    cases hcall : (f.record inst).control.isCall with
    | true =>
      intro root _ words hwords
      cases hwords
    | false =>
      have htracks := h.tracks inst hinst
      rw [hafter hcall]
      refine htracks.delta.mono fun r value hvalue => ?_
      unfold stagingAfter
      rw [hposition, List.take_length, ← get_commit]
      exact hvalue
  exact ⟨h.mem, h.incoming, hknown, fun other _ => tracks_start hknown other p.values⟩

theorem Follows.transfer {start : ConstState} (h : Follows roots fold f facts order p entry)
    (hsolved : Solving roots fold f start facts) (hdone : ∀ b ∈ order, facts.dirty b = false)
    (hclosed : ∀ b ∈ order, ∀ t ∈ f.view.successors b, t ∈ order) {successor : Nat}
    (hend : p.done = (f.instructions p.block).length) (hsuccessor : successor ∈ f.view.successors p.block) :
    ∃ next, Follows roots fold f facts order ⟨successor, 0, 0, p.state, p.values, p.state⟩ next := by
  obtain ⟨next, hnext, hle⟩ :=
    hsolved.clean p.block entry (hdone _ h.mem) h.incoming successor hsuccessor
  have hknown : KnownBy rootWidth roots (stateAfter roots fold f successor 0 next).get p.state := by
    refine h.known.mono fun r value hvalue => ?_
    rw [hend, stateAfter_length]
    exact hle r value hvalue
  exact ⟨next, hclosed _ h.mem _ hsuccessor, hnext, hknown,
    fun other _ => tracks_start hknown other p.values⟩

omit [DecidableEq ρ] in
theorem place_unique {block block' done done' inst : Nat} (hblock : block ∈ f.view.nodeIds)
    (hblock' : block' ∈ f.view.nodeIds) (h : (f.instructions block)[done]? = some inst)
    (h' : (f.instructions block')[done']? = some inst) : block = block' ∧ done = done' := by
  obtain ⟨hnodup, hdisjoint⟩ := List.nodup_flatMap.mp f.once
  have heq : block = block' := by
    by_contra hne
    have hsymm : Std.Symm (Function.onFun List.Disjoint f.instructions) :=
      ⟨fun _ _ hxy => List.Disjoint.symm hxy⟩
    have hdis := hdisjoint.forall hblock hblock' hne
    exact hdis (List.mem_of_getElem? h) (List.mem_of_getElem? h')
  subst heq
  have hlt := (List.getElem?_eq_some_iff.mp h).1
  exact ⟨rfl, (List.getElem?_inj hlt (hnodup block hblock)).mp (h.trans h'.symm)⟩

theorem setConstant_known {known : ConstState} {state : ρ → Value}
    (h : KnownBy rootWidth roots known.get state) {constant : ρ × List Word}
    (hholds : HoldsWords (rootWidth constant.1) constant.2 (state constant.1)) :
    KnownBy rootWidth roots (setConstant roots rootWidth known constant).get state := by
  unfold setConstant
  cases hindex : indexOf roots constant.1 with
  | none => exact h
  | some index =>
    unfold indexOf at hindex
    split at hindex
    · cases hindex
      rw [← Function.update_eq_self constant.1 state]
      refine h.update (ConstState.get_set known _ _) fun words hwords => ?_
      cases hwords
      refine ⟨(length_copyBits ..).trans (length_zeros _), fun k hk => ?_⟩
      rw [bitAt_normalized, decide_eq_true hk, Bool.true_and]
      exact hholds k hk
    · cases hindex

theorem entryState_known {entry : List (ρ × List Word)} {state : ρ → Value}
    (hentry : ∀ constant ∈ entry, HoldsWords (rootWidth constant.1) constant.2 (state constant.1)) :
    KnownBy rootWidth roots (entryState roots rootWidth entry).get state := by
  have hfold : ∀ (l : List (ρ × List Word)) (known : ConstState),
      KnownBy rootWidth roots known.get state →
      (∀ constant ∈ l, HoldsWords (rootWidth constant.1) constant.2 (state constant.1)) →
      KnownBy rootWidth roots (l.foldl (setConstant roots rootWidth) known).get state := by
    intro l
    induction l with
    | nil => exact fun known h _ => h
    | cons constant rest ih =>
      intro known h hholds
      exact ih _ (setConstant_known h (hholds constant List.mem_cons_self))
        fun c hc => hholds c (List.mem_cons_of_mem _ hc)
  exact hfold entry .empty (fun root _ words hwords => by cases hwords) hentry

end CfgLib.Rtl

namespace CfgLib.Rtl

open CfgLib.Lib Relation

variable {ρ ω : Type} [LinearOrder ρ] {rootWidth : ρ → Nat}

theorem mem_collect {f : FunctionView ρ ω rootWidth} {block inst : Nat}
    {statement : Statement ρ ω} {root : ρ} (hblock : block ∈ f.view.nodeIds)
    (hinst : inst ∈ f.instructions block) (hstatement : statement ∈ (f.record inst).statements)
    (hroot : root ∈ statement.roots) : root ∈ RootTable.collect f := by
  unfold RootTable.collect
  rw [List.mem_dedup, List.mem_insertionSort, List.mem_flatMap]
  exact ⟨block, hblock, List.mem_flatMap.mpr ⟨inst, hinst,
    List.mem_flatMap.mpr ⟨statement, hstatement, hroot⟩⟩⟩

/-- The folder of a dialect whose only operator copies its operand. -/
def copyFold : Fold Unit where
  fold _ operands results :=
    match operands, results with
    | [(words, width)], [result] =>
      if width = result ∧ words.length = wordsFor width then some words else none
    | _, _ => none
  length_fold := by
    intro operator operands results out h
    split at h
    · split at h
      · next hsame =>
        cases h
        simp [hsame.2, hsame.1]
      · cases h
    · cases h

def copyEval : Semantics Unit := fun _ args _ results => results = args.map Prod.fst

theorem copyFold_exact : copyFold.Exact copyEval := by
  intro operator operands widths out args results hfold hargs heval
  cases heval
  simp only [copyFold] at hfold
  split at hfold
  · split at hfold
    · next hsame =>
      cases hfold
      cases hargs with
      | cons hfirst hrest =>
        cases hrest
        simp only [pieces, List.map_cons, List.map_nil, List.forall₂_cons]
        refine ⟨?_, .nil⟩
        rw [← hsame.1, ← hsame.2, List.take_length]
        exact hfirst.1
    · cases hfold
  · cases hfold

/-- Root 0 has three bits and the other roots eight. -/
def sampleWidth (root : Nat) : Nat := if root = 0 then 3 else 8

def setIndex : Record Nat Unit sampleWidth where
  statements := [.constant 0 [1] 3, .apply ⟨1, 1⟩ () [0],
    .write (.root 0 [⟨⟨0, 3⟩, .takeInput 1 0⟩])]
  control := .advance
  width _ := 3
  fresh := by decide
  typed := by
    intro statement hmem
    simp only [List.mem_cons, List.not_mem_nil, or_false] at hmem
    rcases hmem with rfl | rfl | rfl
    · rfl
    · trivial
    · refine ⟨?_, fun k hk => ⟨_, List.mem_cons_self, Nat.zero_le k, hk⟩⟩
      intro part hpart
      cases List.mem_singleton.mp hpart
      exact le_refl 3

/-- Reads root 0 and then the root it selects among two. -/
def readSelected : Record Nat Unit sampleWidth where
  statements := [.read 2 (.direct ⟨0, ⟨0, 3⟩⟩),
    .read 3 (.finiteIndexed 2 [⟨1, ⟨0, 8⟩⟩, ⟨2, ⟨0, 8⟩⟩])]
  control := .advance
  width value := if value = 2 then 3 else 8
  fresh := by decide
  typed := by
    intro statement hmem
    simp only [List.mem_cons, List.not_mem_nil, or_false] at hmem
    rcases hmem with rfl | rfl
    · simp [Statement.Typed, Selection.Typed, Place.Inside, BitSlice.last, sampleWidth]
    · simp [Statement.Typed, Selection.Typed, Place.Inside, BitSlice.last, sampleWidth]

def sampleFunction : FunctionView Nat Unit sampleWidth where
  view := ⟨GraphView.ofEdges 2 [0, 1] [(0, 1), (1, 1)], 0⟩
  instructions block := [block]
  record inst := if inst = 0 then setIndex else readSelected
  lawful := GraphView.lawful_ofEdges (by decide) (by decide) (by decide)
  root_mem := by decide
  once := by decide

end CfgLib.Rtl
