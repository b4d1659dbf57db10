import CfgLib.Graph.View
import CfgLib.Lib.Loop
import Mathlib.Logic.Function.Basic

/-!
# The worklist behind every fixpoint solver

`dataflow/worklist.rs`: a deduplicating queue of dense indices, popped lowest
first.  The queue is a bit row in words of 64, and a cursor skips the words that
hold nothing.
-/

namespace CfgLib.Dataflow

open CfgLib.Lib

/-- A deduplicating queue of the indices below a bound. -/
structure Worklist where
  /-- The bit row. -/
  queued : Nat → Bool
  /-- The number of words of the row. -/
  words : Nat
  /-- Words below this index hold no queued node. -/
  cursor : Nat

namespace Worklist

/-- An empty worklist for the indices below `bound`. -/
def new (bound : Nat) : Worklist := ⟨fun _ => false, (bound + 63) / 64, 0⟩

/-- Queue `index` unless it is already queued. -/
def insert (w : Worklist) (index : Nat) : Worklist :=
  { w with queued := Function.update w.queued index true, cursor := min w.cursor (index / 64) }

/-- A worklist of `indices`, duplicates queued once. -/
def of (bound : Nat) (indices : List Nat) : Worklist := indices.foldl insert (new bound)

def live (g : GraphView) : Worklist := of g.nodeBound g.nodeIds

/-- The seeds, each of which must be a live node; `none` is the panic otherwise. -/
def seeded (g : GraphView) (seeds : List Nat) : Option Worklist :=
  if seeds.all fun n => n < g.nodeBound && (live g).queued n then some (of g.nodeBound seeds)
  else none

def firstInWord (w : Worklist) (word : Nat) : Option Nat :=
  ((List.range 64).find? fun bit => w.queued (word * 64 + bit)).map (word * 64 + ·)

def scan (w : Worklist) : Nat → Nat → Nat × Option Nat
  | 0, cursor => (cursor, none)
  | fuel + 1, cursor =>
    match w.firstInWord cursor with
    | some index => (cursor, some index)
    | none => w.scan fuel (cursor + 1)

/-- Remove and return the lowest queued index. -/
def popFirst (w : Worklist) : Worklist × Option Nat :=
  match w.scan (w.words - w.cursor) w.cursor with
  | (cursor, some index) =>
    ({ w with queued := Function.update w.queued index false, cursor := cursor }, some index)
  | (cursor, none) => ({ w with cursor := cursor }, none)

/-- Queued indices lie in the row, none of them below the cursor. -/
structure WF (bound : Nat) (w : Worklist) : Prop where
  words_eq : w.words = (bound + 63) / 64
  lt : ∀ i, w.queued i → i < bound
  cursor_le : ∀ i, w.queued i → w.cursor ≤ i / 64

theorem wf_new (bound : Nat) : (new bound).WF bound :=
  ⟨rfl, by simp [new], by simp [new]⟩

variable {bound i index word : Nat} {w : Worklist}

theorem WF.insert (h : w.WF bound) (hlt : index < bound) : (w.insert index).WF bound := by
  refine ⟨h.words_eq, ?_, ?_⟩
  · intro i hi
    by_cases he : i = index
    · rw [he]
      exact hlt
    · exact h.lt i (by simpa [Worklist.insert, Function.update_of_ne he] using hi)
  · intro i hi
    by_cases he : i = index
    · subst he
      exact Nat.min_le_right _ _
    · have := h.cursor_le i (by simpa [Worklist.insert, Function.update_of_ne he] using hi)
      exact Nat.le_trans (Nat.min_le_left _ _) this

theorem insert_queued (w : Worklist) (index i : Nat) :
    (w.insert index).queued i ↔ w.queued i ∨ i = index := by
  by_cases he : i = index
  · simp [insert, he]
  · simp [insert, he]

theorem foldl_insert (indices : List Nat) :
    ∀ w : Worklist, w.WF bound → (∀ i ∈ indices, i < bound) → (indices.foldl insert w).WF bound ∧
        ∀ i, (indices.foldl insert w).queued i ↔ w.queued i ∨ i ∈ indices := by
  induction indices with
  | nil => exact fun w h _ => ⟨h, by simp⟩
  | cons j indices ih =>
    intro w h hlt
    obtain ⟨h₁, h₂⟩ := ih (w.insert j) (h.insert (hlt j (by simp))) fun i hi => hlt i (by simp [hi])
    refine ⟨h₁, fun i => ?_⟩
    rw [List.foldl_cons, h₂, insert_queued, List.mem_cons]
    tauto

theorem wf_of {bound : Nat} {indices : List Nat} (hlt : ∀ i ∈ indices, i < bound) :
    (of bound indices).WF bound ∧ ∀ i, (of bound indices).queued i ↔ i ∈ indices := by
  obtain ⟨h₁, h₂⟩ := foldl_insert indices (new bound) (wf_new bound) hlt
  exact ⟨h₁, fun i => (h₂ i).trans (by simp [new])⟩

theorem of_congr {indices indices' : List Nat} (h : ∀ i, i ∈ indices ↔ i ∈ indices') :
    of bound indices = of bound indices' := by
  have hof : ∀ l : List Nat, of bound l = ⟨fun i => decide (i ∈ l), (bound + 63) / 64, 0⟩ := by
    intro l
    have hfold : ∀ (l : List Nat) (q : Nat → Bool), l.foldl insert ⟨q, (bound + 63) / 64, 0⟩ =
        ⟨fun i => q i || decide (i ∈ l), (bound + 63) / 64, 0⟩ := by
      intro l
      induction l with
      | nil => simp
      | cons j l ih =>
        intro q
        rw [List.foldl_cons, insert, Nat.zero_min, ih]
        congr 1
        funext i
        by_cases hi : i = j
        · simp [hi]
        · simp [hi]
    rw [of, new, hfold l fun _ => false]
    simp
  rw [hof, hof]
  simp only [h]

theorem wf_live {g : GraphView} (hg : g.Lawful) :
    (live g).WF g.nodeBound ∧ ∀ i, (live g).queued i ↔ i ∈ g.nodeIds :=
  wf_of hg.nodeIds_lt

theorem seeded_eq {g : GraphView} (hg : g.Lawful) {seeds : List Nat} (h : ∀ n ∈ seeds, n ∈ g.nodeIds) :
    seeded g seeds = some (of g.nodeBound seeds) := by
  rw [seeded, if_pos]
  rw [List.all_eq_true]
  intro n hn
  have hlive := ((wf_live hg).2 n).mpr (h n hn)
  simp [hlive, hg.nodeIds_lt n (h n hn)]

/-! ## Popping -/

theorem firstInWord_none (h : w.firstInWord word = none) (hi : i / 64 = word) : w.queued i = false := by
  rw [firstInWord, Option.map_eq_none_iff, List.find?_eq_none] at h
  have := h (i % 64) (List.mem_range.mpr (Nat.mod_lt _ (by omega)))
  rw [← hi, Nat.div_add_mod'] at this
  simpa using this

theorem firstInWord_some (h : w.firstInWord word = some index) :
    w.queued index ∧ index / 64 = word := by
  rw [firstInWord, Option.map_eq_some_iff] at h
  obtain ⟨bit, hbit, rfl⟩ := h
  have hlt := List.mem_range.mp (List.mem_of_find?_eq_some hbit)
  exact ⟨by simpa using List.find?_some hbit, by omega⟩

theorem firstInWord_le (h : w.firstInWord word = some index) (hi : w.queued i) (hword : i / 64 = word) : index ≤ i := by
  rw [firstInWord, Option.map_eq_some_iff] at h
  obtain ⟨bit, hbit, rfl⟩ := h
  by_contra hlt
  have hmod : word * 64 + i % 64 = i := by rw [← hword, Nat.div_add_mod']
  have hfirst := (List.find?_range_eq_some.mp hbit).2.2 (i % 64) (by omega)
  rw [hmod, hi] at hfirst
  cases hfirst

theorem scan_spec (w : Worklist) (fuel : Nat) : ∀ cursor, (∀ i, w.queued i → cursor ≤ i / 64) →
    (∀ i, w.queued i → (w.scan fuel cursor).1 ≤ i / 64) ∧ match (w.scan fuel cursor).2 with
      | some index => w.queued index
      | none => (w.scan fuel cursor).1 = cursor + fuel := by
  induction fuel with
  | zero => exact fun cursor h => ⟨h, rfl⟩
  | succ fuel ih =>
    intro cursor h
    cases hw : w.firstInWord cursor with
    | some index =>
      simp only [scan, hw]
      exact ⟨h, (firstInWord_some hw).1⟩
    | none =>
      have hnext : ∀ i, w.queued i → cursor + 1 ≤ i / 64 := by
        intro i hi
        have h₁ := h i hi
        by_contra hc
        rw [firstInWord_none hw (by omega : i / 64 = cursor)] at hi
        cases hi
      obtain ⟨h₁, h₂⟩ := ih (cursor + 1) hnext
      simp only [scan, hw]
      refine ⟨h₁, ?_⟩
      revert h₂
      cases (w.scan fuel (cursor + 1)).2 with
      | some index => exact id
      | none =>
        intro h₂
        dsimp only at h₂ ⊢
        omega

theorem popFirst_spec (h : w.WF bound) : w.popFirst.1.WF bound ∧ match w.popFirst.2 with
      | some index => w.queued index ∧ ∀ i, w.popFirst.1.queued i ↔ w.queued i ∧ i ≠ index
      | none => ∀ i, w.queued i = false := by
  obtain ⟨h₁, h₂⟩ := scan_spec w (w.words - w.cursor) w.cursor h.cursor_le
  unfold popFirst
  rcases hs : w.scan (w.words - w.cursor) w.cursor with ⟨cursor, result⟩
  rw [hs] at h₁ h₂
  cases result with
  | some index =>
    dsimp only at h₂ ⊢
    have hiff : ∀ i, Function.update w.queued index false i = true ↔ w.queued i ∧ i ≠ index := by
      intro i
      by_cases he : i = index
      · simp [he]
      · simp [he]
    refine ⟨⟨h.words_eq, fun i hi => h.lt i ((hiff i).mp hi).1,
      fun i hi => h₁ i ((hiff i).mp hi).1⟩, h₂, hiff⟩
  | none =>
    dsimp only at h₂ ⊢
    refine ⟨⟨h.words_eq, h.lt, h₁⟩, fun i => ?_⟩
    by_contra hi
    have hq : w.queued i = true := by simpa using hi
    have hlt := h.lt i hq
    have hge := h₁ i hq
    have hwords := h.words_eq
    dsimp only at hge
    omega

theorem popFirst_le {w₁ : Worklist} (h : w.WF bound)
    (hpop : w.popFirst = (w₁, some index)) (hi : w.queued i) : index ≤ i := by
  have hscan : ∀ fuel cursor, (∀ i, w.queued i → cursor ≤ i / 64) → (w.scan fuel cursor).2 = some index →
      index ≤ i := by
    intro fuel
    induction fuel with
    | zero =>
      intro cursor _ hs
      cases hs
    | succ fuel ih =>
      intro cursor hcursor hs
      cases hw : w.firstInWord cursor with
      | some first =>
        simp only [scan, hw, Option.some.injEq] at hs
        subst hs
        rcases Nat.lt_or_ge cursor (i / 64) with hlt | hge
        · have := (firstInWord_some hw).2
          omega
        · exact firstInWord_le hw hi (Nat.le_antisymm hge (hcursor i hi))
      | none =>
        simp only [scan, hw] at hs
        refine ih (cursor + 1) (fun j hj => ?_) hs
        by_contra hc
        have hword : j / 64 = cursor := Nat.le_antisymm (by omega) (hcursor j hj)
        rw [firstInWord_none hw hword] at hj
        cases hj
  refine hscan (w.words - w.cursor) w.cursor h.cursor_le ?_
  unfold popFirst at hpop
  rcases hs : w.scan (w.words - w.cursor) w.cursor with ⟨cursor, result⟩
  rw [hs] at hpop
  cases result with
  | none => cases hpop
  | some first =>
    cases hpop
    rfl

def size (bound : Nat) (w : Worklist) : Nat :=
  total (fun i => if w.queued i then 1 else 0) (List.range bound)

theorem size_lt {bound : Nat} {w w' : Worklist} (hsub : ∀ i, w'.queued i → w.queued i) {index : Nat}
    (hlt : index < bound) (hq : w.queued index) (hq' : w'.queued index = false) :
    w'.size bound < w.size bound := by
  refine total_drop (d := 1) ?_ (List.mem_range.mpr hlt) (by simp [hq, hq'])
  intro i _
  by_cases hi : w'.queued i
  · simp [hi, hsub i hi]
  · simp [hi]

end Worklist

end CfgLib.Dataflow
