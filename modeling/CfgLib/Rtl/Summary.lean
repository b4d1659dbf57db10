import CfgLib.Rtl.Resolution
import Mathlib.Data.Finset.Basic

/-!
# What blocks read and write

`ir/rtl/facts/summary.rs`: the roots that each block reads before it overwrites
them, can write, and overwrites.  The reads of a record see the state before it, and
a call reads and writes every root after the writes of its own record.
-/

namespace CfgLib.Rtl

open List

/-- A function as a graph of blocks of instructions; blocks may share instructions. -/
structure BlockView (ρ ω : Type) (rootWidth : ρ → Nat) where
  view : RootedView
  instructions : Nat → List Nat
  record : Nat → Record ρ ω rootWidth
  lawful : view.Lawful
  root_mem : view.root ∈ view.nodeIds

variable {ρ ω : Type} {rootWidth : ρ → Nat}

def FunctionView.blocks (f : FunctionView ρ ω rootWidth) : BlockView ρ ω rootWidth :=
  ⟨f.view, f.instructions, f.record, f.lawful, f.root_mem⟩

def BlockView.code (f : BlockView ρ ω rootWidth) (block : Nat) : List (Record ρ ω rootWidth) :=
  (f.instructions block).map f.record

def BlockView.rootTable [LinearOrder ρ] (f : BlockView ρ ω rootWidth) : List ρ :=
  ((f.view.nodeIds.flatMap fun block => (f.instructions block).flatMap fun inst =>
    (f.record inst).statements.flatMap Statement.roots).insertionSort (· ≤ ·)).dedup

/-! ## What a record does to a root -/

def Action.preserves : Action → Bool
  | .preservePreState => true
  | .takeInput _ _ | .nondeterministic => false

/-- A write overwrites its root completely when its plan keeps no bit. -/
def WriteTarget.kills : WriteTarget ρ → Bool
  | .root _ plan => !plan.any fun part => part.action.preserves
  | .finiteIndexed _ _ _ | .sparseIndexed _ _ _ _ => false

/-- A statement reads a root, directly or as a candidate, or by a write that keeps bits of it. -/
def Statement.Reads (root : ρ) : Statement ρ ω → Prop
  | .read _ source => root ∈ source.roots
  | .write target => root ∈ target.roots ∧ target.kills = false
  | .constant _ _ _ | .apply _ _ _ | .nondet _ _ | .effect _ _ | .raise _ _ _ => False

def Statement.Writes (root : ρ) : Statement ρ ω → Prop
  | .write target => root ∈ target.roots
  | .read _ _ | .constant _ _ _ | .apply _ _ _ | .nondet _ _ | .effect _ _ | .raise _ _ _ => False

def Statement.Overwrites (root : ρ) : Statement ρ ω → Prop
  | .write target => root ∈ target.roots ∧ target.kills = true
  | .read _ _ | .constant _ _ _ | .apply _ _ _ | .nondet _ _ | .effect _ _ | .raise _ _ _ => False

namespace Record

/-- The completed record has overwritten the root. -/
def Overwrites (record : Record ρ ω rootWidth) (root : ρ) : Prop :=
  ∃ statement ∈ record.statements, statement.Overwrites root

/-- The record reads the root as it was before the record; a call reads what its own record left. -/
def Reads (record : Record ρ ω rootWidth) (root : ρ) : Prop :=
  (∃ statement ∈ record.statements, statement.Reads root) ∨
    (record.control.isCall ∧ ¬ record.Overwrites root)

def Writes (record : Record ρ ω rootWidth) (root : ρ) : Prop :=
  (∃ statement ∈ record.statements, statement.Writes root) ∨ record.control.isCall

theorem Overwrites.writes {record : Record ρ ω rootWidth} {root : ρ} (h : record.Overwrites root) :
    record.Writes root := by
  obtain ⟨statement, hmem, hover⟩ := h
  refine Or.inl ⟨statement, hmem, ?_⟩
  cases statement with
  | write target => exact hover.1
  | read _ _ | constant _ _ _ | apply _ _ _ | nondet _ _ | effect _ _ | raise _ _ _ => exact hover

end Record

def Exposes (records : List (Record ρ ω rootWidth)) (root : ρ) : Prop :=
  ∃ before record after, records = before ++ record :: after ∧ record.Reads root ∧
    ∀ earlier ∈ before, ¬ earlier.Overwrites root

theorem not_exposes_nil (root : ρ) : ¬ Exposes ([] : List (Record ρ ω rootWidth)) root := by
  rintro ⟨before, record, after, heq, _⟩
  simp at heq

theorem exposes_append {records records' : List (Record ρ ω rootWidth)} {root : ρ} :
    Exposes (records ++ records') root ↔ Exposes records root ∨
      ((∀ record ∈ records, ¬ record.Overwrites root) ∧ Exposes records' root) := by
  constructor
  · rintro ⟨before, record, after, heq, hreads, hbefore⟩
    rcases append_eq_append_iff.mp heq with ⟨m, hm, hm'⟩ | ⟨m, hm, hm'⟩
    · exact Or.inr ⟨fun earlier he => hbefore earlier (by rw [hm]; exact mem_append_left m he),
        m, record, after, hm', hreads,
        fun earlier he => hbefore earlier (by rw [hm]; exact mem_append_right _ he)⟩
    · cases m with
      | nil =>
        refine Or.inr ⟨fun earlier he => hbefore earlier (by simpa [hm] using he), [], record, after,
          by simpa using hm'.symm, hreads, fun _ he => absurd he not_mem_nil⟩
      | cons x m =>
        obtain ⟨rfl, rfl⟩ := List.cons.inj hm'
        exact Or.inl ⟨before, record, m, hm, hreads, hbefore⟩
  · rintro (⟨before, record, after, rfl, hreads, hbefore⟩ | ⟨hnone, before, record, after, rfl, hreads, hbefore⟩)
    · exact ⟨before, record, after ++ records', by simp, hreads, hbefore⟩
    · refine ⟨records ++ before, record, after, by simp, hreads, fun earlier he => ?_⟩
      exact (mem_append.mp he).elim (hnone earlier) (hbefore earlier)

theorem exposes_singleton {record : Record ρ ω rootWidth} {root : ρ} :
    Exposes [record] root ↔ record.Reads root := by
  constructor
  · rintro ⟨before, record', after, heq, hreads, _⟩
    have hmem : record' ∈ [record] := by
      rw [heq]
      simp
    rwa [← mem_singleton.mp hmem]
  · exact fun h => ⟨[], record, [], rfl, h, fun _ he => absurd he not_mem_nil⟩

/-! ## The summary of a block -/

/-- The root sets of one block, as dense indices. -/
structure BlockSummary where
  readsBeforeWrite : Finset Nat
  writes : Finset Nat
  kills : Finset Nat

namespace BlockSummary

def new : BlockSummary := ⟨∅, ∅, ∅⟩

def read (s : BlockSummary) (index : Nat) : BlockSummary :=
  if index ∈ s.kills then s else { s with readsBeforeWrite := insert index s.readsBeforeWrite }

/-- Record a write of root `index`, which may change it. -/
def mayWrite (s : BlockSummary) (index : Nat) : BlockSummary :=
  { s with writes := insert index s.writes }

variable [DecidableEq ρ] (roots : List ρ)

/-- Record that a write touches one root; a kill goes to the pending ones. -/
def writeRoot (kills : Bool) (s : BlockSummary × List Nat) (root : ρ) : BlockSummary × List Nat :=
  let index := indexOfNamed roots root
  let summary := s.1.mayWrite index
  if kills then (summary, s.2 ++ [index]) else (summary.read index, s.2)

def write (target : WriteTarget ρ) (s : BlockSummary × List Nat) : BlockSummary × List Nat :=
  target.roots.foldl (writeRoot roots target.kills) s

def statement (s : BlockSummary × List Nat) : Statement ρ ω → BlockSummary × List Nat
  | .read _ source =>
    (source.roots.foldl (fun summary root => summary.read (indexOfNamed roots root)) s.1, s.2)
  | .write target => write roots target s
  | .constant _ _ _ | .apply _ _ _ | .nondet _ _ | .effect _ _ | .raise _ _ _ => s

/-- Every root is read and written by the unknown callee. -/
def call (s : BlockSummary) : BlockSummary :=
  (List.range roots.length).foldl (fun s index => (s.read index).mayWrite index) s

/-- Record one instruction; its kills take effect after it. -/
def instruction (s : BlockSummary) (record : Record ρ ω rootWidth) : BlockSummary :=
  let (summary, pending) := record.statements.foldl (statement roots) (s, [])
  let summary := { summary with kills := pending.foldl (fun kills index => insert index kills) summary.kills }
  if record.control.isCall then summary.call roots else summary

end BlockSummary

def BlockSummaries.compute [DecidableEq ρ] (f : BlockView ρ ω rootWidth) (roots : List ρ) (block : Nat) :
    BlockSummary :=
  if block ∈ f.view.nodeIds then (f.code block).foldl (BlockSummary.instruction roots) .new else .new

/-! ## What the summary says -/

namespace BlockSummary

variable [DecidableEq ρ] {roots : List ρ} {root : ρ}

/-- How a part of a record changes what a summary and the pending kills say of one root. -/
structure Effect (roots : List ρ) (root : ρ) (s s' : BlockSummary × List Nat) (reads writes kills : Prop) :
    Prop where
  kills_eq : s'.1.kills = s.1.kills
  reads_iff : indexOfNamed roots root ∈ s'.1.readsBeforeWrite ↔
    indexOfNamed roots root ∈ s.1.readsBeforeWrite ∨ (reads ∧ indexOfNamed roots root ∉ s.1.kills)
  writes_iff : indexOfNamed roots root ∈ s'.1.writes ↔ indexOfNamed roots root ∈ s.1.writes ∨ writes
  pending_iff : indexOfNamed roots root ∈ s'.2 ↔ indexOfNamed roots root ∈ s.2 ∨ kills

theorem Effect.refl (s : BlockSummary × List Nat) : Effect roots root s s False False False :=
  ⟨rfl, by simp, by simp, by simp⟩

theorem Effect.trans {s s' s'' : BlockSummary × List Nat} {reads writes kills reads' writes' kills' : Prop}
    (h : Effect roots root s s' reads writes kills) (h' : Effect roots root s' s'' reads' writes' kills') :
    Effect roots root s s'' (reads ∨ reads') (writes ∨ writes') (kills ∨ kills') := by
  refine ⟨h'.kills_eq.trans h.kills_eq, ?_, ?_, ?_⟩
  · rw [h'.reads_iff, h.reads_iff, h.kills_eq, or_and_right, or_assoc]
  · rw [h'.writes_iff, h.writes_iff, or_assoc]
  · rw [h'.pending_iff, h.pending_iff, or_assoc]

theorem Effect.congr {s s' : BlockSummary × List Nat} {reads writes kills reads' writes' kills' : Prop}
    (h : Effect roots root s s' reads writes kills) (hreads : reads ↔ reads') (hwrites : writes ↔ writes')
    (hkills : kills ↔ kills') : Effect roots root s s' reads' writes' kills' := by
  rwa [propext hreads, propext hwrites, propext hkills] at h

theorem Effect.foldl {α : Type} {step : BlockSummary × List Nat → α → BlockSummary × List Nat}
    {reads writes kills : α → Prop} (l : List α)
    (hstep : ∀ s, ∀ a ∈ l, Effect roots root s (step s a) (reads a) (writes a) (kills a))
    (s : BlockSummary × List Nat) : Effect roots root s (l.foldl step s) (∃ a ∈ l, reads a)
      (∃ a ∈ l, writes a) (∃ a ∈ l, kills a) := by
  induction l generalizing s with
  | nil => exact (Effect.refl s).congr (by simp) (by simp) (by simp)
  | cons a l ih =>
    refine ((hstep s a mem_cons_self).trans
      (ih (fun s b hb => hstep s b (mem_cons_of_mem a hb)) (step s a))).congr ?_ ?_ ?_ <;>
      simp only [mem_cons, exists_eq_or_imp]

theorem effect_read (s : BlockSummary × List Nat) (index : Nat) :
    Effect roots root s (s.1.read index, s.2) (index = indexOfNamed roots root) False False := by
  unfold read
  split
  · next hkill =>
    refine ⟨rfl, ?_, by simp, by simp⟩
    exact ⟨Or.inl, fun h => h.resolve_right fun hc => hc.2 (hc.1 ▸ hkill)⟩
  · next hkill =>
    refine ⟨rfl, ?_, by simp, by simp⟩
    rw [Finset.mem_insert]
    constructor
    · rintro (he | hr)
      · exact Or.inr ⟨he.symm, he ▸ hkill⟩
      · exact Or.inl hr
    · rintro (hr | he)
      · exact Or.inr hr
      · exact Or.inl he.1.symm

theorem effect_mayWrite (s : BlockSummary × List Nat) (index : Nat) :
    Effect roots root s (s.1.mayWrite index, s.2) False (index = indexOfNamed roots root) False := by
  refine ⟨rfl, by simp [mayWrite], ?_, by simp⟩
  rw [mayWrite, Finset.mem_insert, or_comm, eq_comm]

theorem effect_pending (s : BlockSummary × List Nat) (index : Nat) :
    Effect roots root s (s.1, s.2 ++ [index]) False False (index = indexOfNamed roots root) := by
  refine ⟨rfl, by simp, by simp, ?_⟩
  rw [mem_append, mem_singleton, @eq_comm _ index]

theorem indexOfNamed_le (a : ρ) : indexOfNamed roots a ≤ roots.length := idxOf_le_length

theorem indexOfNamed_inj (hroot : root ∈ roots) {a : ρ} :
    indexOfNamed roots a = indexOfNamed roots root ↔ a = root :=
  eq_comm.trans ((idxOf_inj hroot).trans eq_comm)

theorem effect_writeRoot (hroot : root ∈ roots) (kills : Bool) (s : BlockSummary × List Nat) (a : ρ) :
    Effect roots root s (writeRoot roots kills s a) (a = root ∧ kills = false) (a = root)
      (a = root ∧ kills = true) := by
  have hwrite : Effect roots root s (s.1.mayWrite (indexOfNamed roots a), s.2) False _ False :=
    effect_mayWrite s (indexOfNamed roots a)
  unfold writeRoot
  dsimp only
  split
  · next hk => refine (hwrite.trans (effect_pending _ _)).congr ?_ ?_ ?_ <;> simp [hk, indexOfNamed_inj hroot]
  · next hk =>
    refine (hwrite.trans (effect_read _ (indexOfNamed roots a))).congr ?_ ?_ ?_ <;> simp [hk, indexOfNamed_inj hroot]

theorem effect_statement (hroot : root ∈ roots) (s : BlockSummary × List Nat) (st : Statement ρ ω) :
    Effect roots root s (statement roots s st) (st.Reads root) (st.Writes root) (st.Overwrites root) := by
  cases st with
  | constant _ _ _ | apply _ _ _ | nondet _ _ | effect _ _ | raise _ _ _ => exact Effect.refl s
  | read result source =>
    have hpair : statement roots s (.read result source : Statement ρ ω) =
        source.roots.foldl (fun s a => (s.1.read (indexOfNamed roots a), s.2)) s := by
      unfold statement
      dsimp only
      generalize source.roots = l
      induction l generalizing s with
      | nil => rfl
      | cons a l ih => exact ih (s.1.read (indexOfNamed roots a), s.2)
    have hread : ∀ (s : BlockSummary × List Nat), ∀ a ∈ source.roots,
        Effect roots root s (s.1.read (indexOfNamed roots a), s.2)
          (indexOfNamed roots a = indexOfNamed roots root) False False :=
      fun s a _ => effect_read s (indexOfNamed roots a)
    rw [hpair]
    refine (Effect.foldl source.roots hread s).congr ?_ ?_ ?_
    · simp only [indexOfNamed_inj hroot, exists_eq_right]
      exact Iff.rfl
    · simp [Statement.Writes]
    · simp [Statement.Overwrites]
  | write target =>
    refine (Effect.foldl target.roots (fun s a _ => effect_writeRoot hroot target.kills s a) s).congr ?_ ?_ ?_
    · simp [Statement.Reads]
    · simp [Statement.Writes]
    · simp [Statement.Overwrites]

theorem effect_call (hroot : root ∈ roots) (s : BlockSummary) :
    Effect roots root (s, []) (s.call roots, []) True True False := by
  have hpair : (s.call roots, ([] : List Nat)) = (List.range roots.length).foldl
      (fun s index => ((s.1.read index).mayWrite index, s.2)) (s, []) := by
    unfold call
    generalize List.range roots.length = l
    induction l generalizing s with
    | nil => rfl
    | cons index l ih => exact ih ((s.read index).mayWrite index)
  have hmem : ∃ index ∈ List.range roots.length, index = indexOfNamed roots root :=
    ⟨_, mem_range.mpr (idxOf_lt_length_iff.mpr hroot), rfl⟩
  rw [hpair]
  refine (Effect.foldl (List.range roots.length) (fun s index _ =>
    (effect_read s index).trans (effect_mayWrite _ index)) _).congr ?_ ?_ ?_
  · simpa using hmem
  · simpa using hmem
  · simp

theorem mem_foldl_insert (pending : List Nat) (kills : Finset Nat) (i : Nat) :
    i ∈ pending.foldl (fun kills index => insert index kills) kills ↔ i ∈ kills ∨ i ∈ pending := by
  induction pending generalizing kills with
  | nil => simp
  | cons index pending ih => rw [foldl_cons, ih, Finset.mem_insert, mem_cons, or_assoc, or_left_comm]

structure Summarizes (roots : List ρ) (root : ρ) (records : List (Record ρ ω rootWidth)) (s : BlockSummary) : Prop where
  reads_iff : indexOfNamed roots root ∈ s.readsBeforeWrite ↔ Exposes records root
  writes_iff : indexOfNamed roots root ∈ s.writes ↔ ∃ record ∈ records, record.Writes root
  kills_iff : indexOfNamed roots root ∈ s.kills ↔ ∃ record ∈ records, record.Overwrites root

theorem summarizes_new : Summarizes roots root ([] : List (Record ρ ω rootWidth)) .new := by
  refine ⟨?_, by simp [new], by simp [new]⟩
  simp [new, not_exposes_nil]

theorem Summarizes.instruction (hroot : root ∈ roots) {records : List (Record ρ ω rootWidth)} {s : BlockSummary}
    (h : Summarizes roots root records s) (record : Record ρ ω rootWidth) :
    Summarizes roots root (records ++ [record]) (s.instruction roots record) := by
  have hnotKilled : indexOfNamed roots root ∉ s.kills ↔ ∀ r ∈ records, ¬ r.Overwrites root := by
    rw [h.kills_iff]
    simp
  have hstatements := Effect.foldl record.statements
    (fun s st _ => effect_statement hroot s st) ((s, []) : BlockSummary × List Nat)
  unfold BlockSummary.instruction
  generalize record.statements.foldl (statement roots) (s, []) = r at hstatements
  obtain ⟨summary, pending⟩ := r
  obtain ⟨hkills, hreads, hwrites, hpending⟩ := hstatements
  dsimp only at hkills hreads hwrites hpending ⊢
  -- the state between the statements and the control of the record
  have hkilled : indexOfNamed roots root ∈ pending.foldl (fun kills index => insert index kills) summary.kills ↔
      ∃ r ∈ records ++ [record], r.Overwrites root := by
    rw [mem_foldl_insert, hkills, h.kills_iff, hpending]
    simp [Record.Overwrites, or_and_right, exists_or]
  have hexposes : Exposes (records ++ [record]) root ↔ indexOfNamed roots root ∈ s.readsBeforeWrite ∨
      (record.Reads root ∧ indexOfNamed roots root ∉ s.kills) := by
    rw [exposes_append, exposes_singleton, h.reads_iff, hnotKilled, and_comm]
  have hwrote : (∃ r ∈ records ++ [record], r.Writes root) ↔
      indexOfNamed roots root ∈ s.writes ∨ record.Writes root := by
    rw [h.writes_iff]
    simp [or_and_right, exists_or]
  split
  · next hcall =>
    obtain ⟨hkills', hreads', hwrites', _⟩ := effect_call hroot
      ({ summary with kills := pending.foldl (fun kills index => insert index kills) summary.kills } :
        BlockSummary)
    dsimp only at hkills' hreads' hwrites'
    refine ⟨?_, ?_, by rw [hkills', hkilled]⟩
    · rw [hreads', hkilled, hreads, hexposes]
      have hover : (¬ ∃ r ∈ records ++ [record], r.Overwrites root) ↔
          indexOfNamed roots root ∉ s.kills ∧ ¬ record.Overwrites root := by
        rw [hnotKilled]
        simp only [mem_append, mem_singleton, not_exists, not_and, or_imp, forall_and, forall_eq]
      have hcallReads : record.Reads root ↔
          (∃ statement ∈ record.statements, statement.Reads root) ∨ ¬ record.Overwrites root := by
        simp only [Record.Reads, hcall, true_and]
      rw [hover, hcallReads, or_and_right, or_assoc, true_and, and_comm (b := ¬ record.Overwrites root)]
    · rw [hwrites', hwrote]
      simp [Record.Writes, hcall]
  · next hcall =>
    refine ⟨?_, ?_, hkilled⟩
    · rw [hreads, hexposes]
      simp [Record.Reads, hcall]
    · rw [hwrites, hwrote]
      simp [Record.Writes, hcall]

/-- The exposed roots are indices of the table, or one past it. -/
def Within (count : Nat) (s : BlockSummary) : Prop := ∀ i ∈ s.readsBeforeWrite, i ≤ count

theorem Within.read {count index : Nat} {s : BlockSummary} (h : Within count s) (hle : index ≤ count) :
    Within count (s.read index) := by
  unfold BlockSummary.read
  split
  · exact h
  · intro i hi
    rcases Finset.mem_insert.mp hi with rfl | hi
    · exact hle
    · exact h i hi

theorem Within.instruction {s : BlockSummary} (h : Within roots.length s) (record : Record ρ ω rootWidth) :
    Within roots.length (s.instruction roots record) := by
  have hstatement : ∀ r : BlockSummary × List Nat, Within roots.length r.1 →
      ∀ st ∈ record.statements, Within roots.length (statement roots r st).1 := by
    intro r hr st _
    cases st with
    | constant _ _ _ | apply _ _ _ | nondet _ _ | effect _ _ | raise _ _ _ => exact hr
    | read _ source => exact List.foldlRecOn source.roots _ hr fun s hs a _ => hs.read (indexOfNamed_le a)
    | write target =>
      refine List.foldlRecOn target.roots (motive := fun r : BlockSummary × List Nat => Within roots.length r.1)
        _ hr fun r hr a _ => ?_
      unfold writeRoot
      dsimp only
      split
      · exact hr
      · exact Within.read (s := r.1.mayWrite _) hr (indexOfNamed_le a)
  have hrun : Within roots.length (record.statements.foldl (statement roots) (s, [])).1 :=
    List.foldlRecOn record.statements (motive := fun r : BlockSummary × List Nat => Within roots.length r.1)
      _ h hstatement
  unfold BlockSummary.instruction
  generalize record.statements.foldl (statement roots) (s, []) = r at hrun
  dsimp only
  split
  · refine List.foldlRecOn _ _ hrun fun s hs index hindex => ?_
    exact Within.read (s := s) hs (Nat.le_of_lt (mem_range.mp hindex))
  · exact hrun

end BlockSummary

theorem BlockSummaries.compute_within [DecidableEq ρ] (f : BlockView ρ ω rootWidth) (roots : List ρ)
    (block : Nat) : (BlockSummaries.compute f roots block).Within roots.length := by
  unfold BlockSummaries.compute
  split
  · exact List.foldlRecOn _ _ (fun i hi => absurd hi (Finset.notMem_empty i))
      fun s hs record _ => BlockSummary.Within.instruction hs record
  · exact fun i hi => absurd hi (Finset.notMem_empty i)

/-- The summary of a live block says what its records do to each root of the table. -/
theorem BlockSummaries.compute_spec [DecidableEq ρ] {roots : List ρ} {root : ρ} (hroot : root ∈ roots)
    (f : BlockView ρ ω rootWidth) {block : Nat} (hblock : block ∈ f.view.nodeIds) :
    BlockSummary.Summarizes roots root (f.code block) (BlockSummaries.compute f roots block) := by
  unfold BlockSummaries.compute
  rw [if_pos hblock]
  have hrun : ∀ (l records : List (Record ρ ω rootWidth)) (s : BlockSummary),
      BlockSummary.Summarizes roots root records s →
      BlockSummary.Summarizes roots root (records ++ l) (l.foldl (BlockSummary.instruction roots) s) := by
    intro l
    induction l with
    | nil => exact fun records s h => by simpa using h
    | cons record l ih =>
      intro records s h
      have h' := ih (records ++ [record]) _ (h.instruction hroot record)
      rwa [append_assoc] at h'
  exact hrun (f.code block) [] .new BlockSummary.summarizes_new

end CfgLib.Rtl
