import CfgLib.Graph.Postorder
import CfgLib.Lib.Cycles
import CfgLib.Rtl.Summary
import Mathlib.Data.Finset.Card
import Mathlib.Data.Finset.SDiff

/-!
# Whole-root liveness

`ir/rtl/facts/liveness.rs`: the roots live at the start and at the end of each
block, by a backward worklist over the summaries of the blocks.  The caller seeds
the roots that are live after an exit block.
-/

namespace CfgLib.Rtl

open CfgLib.Lib Relation List Function

variable {ρ ω : Type} {rootWidth : ρ → Nat}

/-! ## What liveness means -/

/-- A call of the caller's closure on the seed of one exit block. -/
inductive SeedCall (ρ : Type) where
  | insert (root : ρ)
  | insertAll

def SeedCall.Marks (root : ρ) : SeedCall ρ → Prop
  | .insert r => r = root
  | .insertAll => True

def Seeded (seed : Nat → List (SeedCall ρ)) (root : ρ) (block : Nat) : Prop :=
  ∃ call ∈ seed block, call.Marks root

/-- Some path from the start of the block reads the root before a completed record
overwrites it, or leaves it alone up to an exit where it is seeded. -/
def LiveAtStart (f : BlockView ρ ω rootWidth) (seed : Nat → List (SeedCall ρ)) (root : ρ) (block : Nat) :
    Prop :=
  ∃ last path, Walk f.view.Edge block last path ∧
    (Exposes (path.flatMap f.code) root ∨
      (f.view.successors last = [] ∧ Seeded seed root last ∧
        ∀ record ∈ path.flatMap f.code, ¬ record.Overwrites root))

def LiveAtEnd (f : BlockView ρ ω rootWidth) (seed : Nat → List (SeedCall ρ)) (root : ρ) (block : Nat) : Prop :=
  (f.view.successors block = [] ∧ Seeded seed root block) ∨
    ∃ successor, f.view.Edge block successor ∧ LiveAtStart f seed root successor

section Meaning

variable {f : BlockView ρ ω rootWidth} {seed : Nat → List (SeedCall ρ)} {root : ρ} {block : Nat}

theorem liveAtStart_of_exposes (h : Exposes (f.code block) root) : LiveAtStart f seed root block :=
  ⟨block, [block], .single, Or.inl (by simpa using h)⟩

theorem liveAtStart_of_end (hnone : ∀ record ∈ f.code block, ¬ record.Overwrites root)
    (h : LiveAtEnd f seed root block) : LiveAtStart f seed root block := by
  rcases h with ⟨hexit, hseed⟩ | ⟨successor, he, last, path, hw, hlive⟩
  · exact ⟨block, [block], .single, Or.inr ⟨hexit, hseed, by simpa using hnone⟩⟩
  · refine ⟨last, block :: path, hw.cons he, ?_⟩
    rw [flatMap_cons]
    rcases hlive with hlive | ⟨hexit, hseed, hlive⟩
    · exact Or.inl (exposes_append.mpr (Or.inr ⟨hnone, hlive⟩))
    · refine Or.inr ⟨hexit, hseed, fun record hr => ?_⟩
      exact (mem_append.mp hr).elim (hnone record) (hlive record)

end Meaning

/-! ## The solver -/

structure RootLiveness where
  liveIn : Nat → Finset Nat
  liveOut : Nat → Finset Nat

/-- The state of the solver; the head of the work list is popped next. -/
structure LivenessSearch where
  liveIn : Nat → Finset Nat
  liveOut : Nat → Finset Nat
  queued : Nat → Bool
  work : List Nat

/-- Mark what one call of the closure asks for; an unnamed root is ignored. -/
def ExitSeed.call [DecidableEq ρ] (roots : List ρ) (live : Finset Nat) : SeedCall ρ → Finset Nat
  | .insert root => ((indexOf roots root).map fun index => insert index live).getD live
  | .insertAll => (List.range roots.length).foldl (fun live index => insert index live) live

/-- Every live block, those the root reaches first and in postorder. -/
def solvingOrder (g : RootedView) : Option (List Nat) :=
  (depthFirstPostorder g.toGraphView g.root .outgoing).map fun order =>
    order ++ g.nodeIds.filter fun block => block ∉ order

namespace LivenessSearch

/-- Queue a block, unless it is queued. -/
def push (s : LivenessSearch) (block : Nat) : LivenessSearch :=
  if s.queued block then s
  else { s with queued := update s.queued block true, work := block :: s.work }

def step (g : GraphView) (summaries : Nat → BlockSummary) (s : LivenessSearch) : Option LivenessSearch :=
  match s.work with
  | [] => none
  | block :: rest =>
    let out := (g.successors block).foldl (fun live successor => live ∪ s.liveIn successor) (s.liveOut block)
    let row := s.liveIn block ∪ (summaries block).readsBeforeWrite ∪ (out \ (summaries block).kills)
    let visited : LivenessSearch :=
      ⟨update s.liveIn block row, update s.liveOut block out,
        update s.queued block false, rest⟩
    some (if row = s.liveIn block then visited else (g.predecessors block).foldl push visited)

def start [DecidableEq ρ] (g : GraphView) (roots : List ρ) (seed : Nat → List (SeedCall ρ)) (order : List Nat) :
    LivenessSearch where
  liveIn _ := ∅
  liveOut block :=
    if block ∈ g.nodeIds ∧ g.successors block = [] then (seed block).foldl (ExitSeed.call roots) ∅ else ∅
  queued block := block ∈ order
  work := order

end LivenessSearch

/-- Solve liveness with the given seeds after the exit blocks; `none` when the solver does not settle. -/
def RootLiveness.computeSeeded [DecidableEq ρ] (f : BlockView ρ ω rootWidth) (roots : List ρ)
    (summaries : Nat → BlockSummary) (seed : Nat → List (SeedCall ρ)) : Option RootLiveness := do
  let order ← solvingOrder f.view
  let bound := f.view.nodeBound
  let s := iterate (LivenessSearch.step f.view.toGraphView summaries)
    ((roots.length + 1) * bound * (bound + 1) + order.length)
    (.start f.view.toGraphView roots seed order)
  if s.work = [] then some ⟨s.liveIn, s.liveOut⟩ else none

/-! ## The solver is right -/

namespace LivenessSearch

theorem mem_union_foldl {l : List Nat} (sets : Nat → Finset Nat) (live : Finset Nat) (i : Nat) :
    i ∈ l.foldl (fun live successor => live ∪ sets successor) live ↔ i ∈ live ∨ ∃ x ∈ l, i ∈ sets x := by
  induction l generalizing live with
  | nil => simp
  | cons x l ih =>
    rw [foldl_cons, ih, Finset.mem_union, or_assoc]
    simp only [mem_cons, exists_eq_or_imp]

def idle (bound : Nat) (s : LivenessSearch) : Nat :=
  total (fun b => if s.queued b then 0 else 1) (List.range bound)

/-- The roots that may still turn out live, over all blocks. -/
def missing (bound count : Nat) (s : LivenessSearch) : Nat :=
  total (fun b => (Finset.range (count + 1) \ s.liveIn b).card) (List.range bound)

theorem foldl_push {bound : Nat} {l : List Nat} (hl : ∀ b ∈ l, b < bound) (s : LivenessSearch) :
    (l.foldl push s).liveIn = s.liveIn ∧ (l.foldl push s).liveOut = s.liveOut ∧
      (l.foldl push s).work.length + idle bound (l.foldl push s) ≤ s.work.length + idle bound s ∧
      (∀ b ∈ s.work, b ∈ (l.foldl push s).work) ∧
      (∀ b ∈ (l.foldl push s).work, b ∈ s.work ∨ b ∈ l) ∧ ((∀ b, s.queued b → b ∈ s.work) →
        (∀ b, (l.foldl push s).queued b → b ∈ (l.foldl push s).work) ∧ ∀ b ∈ l, b ∈ (l.foldl push s).work) := by
  induction l generalizing s with
  | nil => exact ⟨rfl, rfl, Nat.le_refl _, fun _ hb => hb, fun _ hb => Or.inl hb,
      fun h => ⟨h, fun _ hb => absurd hb not_mem_nil⟩⟩
  | cons a l ih =>
    obtain ⟨hin, hout, hsize, hkept, hnew, hqueued⟩ := ih (fun b hb => hl b (mem_cons_of_mem a hb)) (push s a)
    rw [foldl_cons]
    by_cases ha : s.queued a
    · have hpush : push s a = s := if_pos ha
      rw [hpush] at hin hout hsize hkept hnew hqueued ⊢
      refine ⟨hin, hout, hsize, hkept, fun b hb => (hnew b hb).imp_right (mem_cons_of_mem a),
        fun h => ⟨(hqueued h).1, fun b hb => ?_⟩⟩
      rcases mem_cons.mp hb with rfl | hb
      · exact hkept b (h b ha)
      · exact (hqueued h).2 b hb
    · have hpush : push s a = { s with queued := update s.queued a true, work := a :: s.work } :=
        if_neg ha
      have hidle : idle bound (push s a) + 1 ≤ idle bound s := by
        refine total_drop (fun v _ => ?_) (mem_range.mpr (hl a mem_cons_self)) ?_
        · rw [hpush]
          by_cases hv : v = a
          · simp [hv]
          · simp [update_of_ne hv]
        · simp [hpush, ha]
      have hwork : (push s a).work = a :: s.work := by rw [hpush]
      refine ⟨by rw [hin, hpush], by rw [hout, hpush], ?_, fun b hb => ?_, fun b hb => ?_, fun h => ?_⟩
      · rw [hwork, length_cons] at hsize
        omega
      · exact hkept b (by rw [hwork]; exact mem_cons_of_mem a hb)
      · rcases hnew b hb with hb | hb
        · rw [hwork] at hb
          rcases mem_cons.mp hb with rfl | hb
          · exact Or.inr mem_cons_self
          · exact Or.inl hb
        · exact Or.inr (mem_cons_of_mem a hb)
      · have hstep : ∀ b, (push s a).queued b → b ∈ (push s a).work := by
          intro b hb
          rw [hwork]
          by_cases hba : b = a
          · rw [hba]
            exact mem_cons_self
          · refine mem_cons_of_mem a (h b ?_)
            rw [hpush] at hb
            dsimp only at hb
            rwa [update_of_ne hba] at hb
        obtain ⟨h₁, h₂⟩ := hqueued hstep
        refine ⟨h₁, fun b hb => ?_⟩
        rcases mem_cons.mp hb with rfl | hb
        · exact hkept b (by rw [hwork]; exact mem_cons_self)
        · exact h₂ b hb

section Solve

variable [DecidableEq ρ] {f : BlockView ρ ω rootWidth} {roots : List ρ} {summaries : Nat → BlockSummary}
  {seed : Nat → List (SeedCall ρ)}

structure Solving (f : BlockView ρ ω rootWidth) (roots : List ρ) (summaries : Nat → BlockSummary)
    (seed : Nat → List (SeedCall ρ)) (s : LivenessSearch) : Prop where
  sound_in : ∀ b ∈ f.view.nodeIds, ∀ root ∈ roots, indexOfNamed roots root ∈ s.liveIn b →
    LiveAtStart f seed root b
  sound_out : ∀ b ∈ f.view.nodeIds, ∀ root ∈ roots, indexOfNamed roots root ∈ s.liveOut b →
    LiveAtEnd f seed root b
  seeded : ∀ b ∈ f.view.nodeIds, f.view.successors b = [] → ∀ root ∈ roots, Seeded seed root b →
    indexOfNamed roots root ∈ s.liveOut b
  within_in : ∀ b, ∀ i ∈ s.liveIn b, i ≤ roots.length
  within_out : ∀ b, ∀ i ∈ s.liveOut b, i ≤ roots.length
  work_live : ∀ b ∈ s.work, b ∈ f.view.nodeIds
  queued : ∀ b, s.queued b → b ∈ s.work
  settled : ∀ b ∈ f.view.nodeIds, b ∉ s.work → (∀ x ∈ f.view.successors b, s.liveIn x ⊆ s.liveOut b) ∧
    (summaries b).readsBeforeWrite ⊆ s.liveIn b ∧ s.liveOut b \ (summaries b).kills ⊆ s.liveIn b

theorem Solving.step (hsummary : ∀ b ∈ f.view.nodeIds, ∀ root ∈ roots,
    BlockSummary.Summarizes roots root (f.code b) (summaries b))
    (hwithin : ∀ b ∈ f.view.nodeIds, ∀ i ∈ (summaries b).readsBeforeWrite, i ≤ roots.length)
    {s s' : LivenessSearch} (h : Solving f roots summaries seed s)
    (hs : LivenessSearch.step f.view.toGraphView summaries s = some s') :
    Solving f roots summaries seed s' ∧
      missing f.view.nodeBound roots.length s' * (f.view.nodeBound + 1) + s'.work.length <
        missing f.view.nodeBound roots.length s * (f.view.nodeBound + 1) + s.work.length := by
  unfold LivenessSearch.step at hs
  split at hs
  · cases hs
  next block rest hw =>
  have hblock : block ∈ f.view.nodeIds := h.work_live block (by rw [hw]; exact mem_cons_self)
  have hlt : block < f.view.nodeBound := f.lawful.nodeIds_lt block hblock
  dsimp only at hs
  generalize hout : (f.view.successors block).foldl (fun live successor => live ∪ s.liveIn successor)
    (s.liveOut block) = out at hs
  generalize hrow : s.liveIn block ∪ (summaries block).readsBeforeWrite ∪ (out \ (summaries block).kills) =
    row at hs
  have hmemOut : ∀ i, i ∈ out ↔ i ∈ s.liveOut block ∨ ∃ x ∈ f.view.successors block, i ∈ s.liveIn x :=
    fun i => by rw [← hout, mem_union_foldl]
  have hmemRow : ∀ i, i ∈ row ↔ i ∈ s.liveIn block ∨ i ∈ (summaries block).readsBeforeWrite ∨
      (i ∈ out ∧ i ∉ (summaries block).kills) := fun i => by
    rw [← hrow, Finset.mem_union, Finset.mem_union, Finset.mem_sdiff, or_assoc]
  have hgrow : s.liveIn block ⊆ row := fun i hi => (hmemRow i).mpr (Or.inl hi)
  have hsoundOut : ∀ root ∈ roots, indexOfNamed roots root ∈ out → LiveAtEnd f seed root block := by
    intro root hroot hi
    rcases (hmemOut _).mp hi with hi | ⟨x, hx, hi⟩
    · exact h.sound_out block hblock root hroot hi
    · exact Or.inr ⟨x, ⟨hlt, hx⟩, h.sound_in x (f.lawful.successors_live block hblock x hx) root hroot hi⟩
  have hsoundIn : ∀ root ∈ roots, indexOfNamed roots root ∈ row → LiveAtStart f seed root block := by
    intro root hroot hi
    rcases (hmemRow _).mp hi with hi | hi | ⟨hi, hkill⟩
    · exact h.sound_in block hblock root hroot hi
    · exact liveAtStart_of_exposes ((hsummary block hblock root hroot).reads_iff.mp hi)
    · refine liveAtStart_of_end (fun record hr hover => hkill ?_) (hsoundOut root hroot hi)
      exact (hsummary block hblock root hroot).kills_iff.mpr ⟨record, hr, hover⟩
  have hwithinOut : ∀ i ∈ out, i ≤ roots.length := by
    intro i hi
    rcases (hmemOut i).mp hi with hi | ⟨x, _, hi⟩
    · exact h.within_out block i hi
    · exact h.within_in x i hi
  have hwithinRow : ∀ i ∈ row, i ≤ roots.length := by
    intro i hi
    rcases (hmemRow i).mp hi with hi | hi | ⟨hi, _⟩
    · exact h.within_in block i hi
    · exact hwithin block hblock i hi
    · exact hwithinOut i hi
  -- whatever is queued next, the sets are these
  have hkeep : ∀ t : LivenessSearch, t.liveIn = update s.liveIn block row →
      t.liveOut = update s.liveOut block out → (∀ b ∈ t.work, b ∈ f.view.nodeIds) →
      (∀ b, t.queued b → b ∈ t.work) → (∀ b ∈ rest, b ∈ t.work) →
      (row ≠ s.liveIn block → ∀ b ∈ f.view.predecessors block, b ∈ t.work) →
      Solving f roots summaries seed t := by
    intro t hin htout hlive hqueued hrest hpreds
    have hin' : ∀ b, t.liveIn b = if b = block then row else s.liveIn b := fun b => by
      rw [hin, update_apply]
    have hout' : ∀ b, t.liveOut b = if b = block then out else s.liveOut b := fun b => by
      rw [htout, update_apply]
    refine ⟨fun b hb root hroot hi => ?_, fun b hb root hroot hi => ?_, fun b hb hexit root hroot hseed => ?_,
      fun b i hi => ?_, fun b i hi => ?_, hlive, hqueued, fun b hb hnot => ?_⟩
    · rw [hin'] at hi
      split at hi
      · next heq => exact heq ▸ hsoundIn root hroot hi
      · exact h.sound_in b hb root hroot hi
    · rw [hout'] at hi
      split at hi
      · next heq => exact heq ▸ hsoundOut root hroot hi
      · exact h.sound_out b hb root hroot hi
    · rw [hout']
      have hold := h.seeded b hb hexit root hroot hseed
      split
      · next heq => exact (hmemOut _).mpr (Or.inl (heq ▸ hold))
      · exact hold
    · rw [hin'] at hi
      split at hi
      · exact hwithinRow i hi
      · exact h.within_in b i hi
    · rw [hout'] at hi
      split at hi
      · exact hwithinOut i hi
      · exact h.within_out b i hi
    · -- a block that reads the changed set would be queued
      have hsame : ∀ x ∈ f.view.successors b, t.liveIn x = s.liveIn x := by
        intro x hx
        rw [hin']
        split
        · next heq =>
          subst heq
          by_contra hne
          refine hnot (hpreds hne b ?_)
          exact (f.lawful.mem_predecessors hlt).mpr ⟨f.lawful.nodeIds_lt b hb, hx⟩
        · rfl
      by_cases hbb : b = block
      · subst hbb
        rw [hin', hout', if_pos rfl, if_pos rfl]
        refine ⟨fun x hx i hi => ?_, fun i hi => (hmemRow i).mpr (Or.inr (Or.inl hi)), fun i hi => ?_⟩
        · rw [hsame x hx] at hi
          exact (hmemOut i).mpr (Or.inr ⟨x, hx, hi⟩)
        · exact (hmemRow i).mpr (Or.inr (Or.inr (Finset.mem_sdiff.mp hi)))
      · obtain ⟨hsucc, hreads, hkills⟩ := h.settled b hb fun hm => by
          rw [hw] at hm
          exact hnot (hrest b ((mem_cons.mp hm).resolve_left hbb))
        rw [hin', hout', if_neg hbb, if_neg hbb]
        exact ⟨fun x hx => by rw [hsame x hx]; exact hsucc x hx, hreads, hkills⟩
  have hqueued : ∀ b, update s.queued block false b → b ∈ rest := by
    intro b hb
    by_cases hbb : b = block
    · rw [hbb, update_self] at hb
      cases hb
    · rw [update_of_ne hbb] at hb
      have := h.queued b hb
      rw [hw] at this
      exact (mem_cons.mp this).resolve_left hbb
  have hrestLive : ∀ b ∈ rest, b ∈ f.view.nodeIds := fun b hb =>
    h.work_live b (by rw [hw]; exact mem_cons_of_mem block hb)
  cases hs
  split
  · next heq =>
    refine ⟨hkeep _ rfl rfl hrestLive hqueued (fun _ hb => hb) fun hne => absurd heq hne, ?_⟩
    have hsame : missing f.view.nodeBound roots.length ⟨update s.liveIn block row,
        update s.liveOut block out, update s.queued block false, rest⟩ =
        missing f.view.nodeBound roots.length s := by
      unfold missing
      rw [heq, update_eq_self]
    rw [hsame, hw, length_cons]
    exact Nat.lt_succ_self _
  · next hne =>
    generalize hv : (⟨update s.liveIn block row, update s.liveOut block out,
      update s.queued block false, rest⟩ : LivenessSearch) = visited
    have hpredLive : ∀ b ∈ f.view.predecessors block, b ∈ f.view.nodeIds :=
      f.lawful.predecessors_live block hblock
    obtain ⟨hin, hout, hsize, hkept, hnew, hpushed⟩ := foldl_push
      (fun b hb => f.lawful.nodeIds_lt b (hpredLive b hb)) visited
    obtain ⟨hq, hall⟩ := hpushed (by rw [← hv]; exact hqueued)
    have hmissing : missing f.view.nodeBound roots.length
        ((f.view.predecessors block).foldl push visited) + 1 ≤ missing f.view.nodeBound roots.length s := by
      unfold missing
      rw [hin, ← hv]
      dsimp only
      refine total_drop (fun b _ => ?_) (mem_range.mpr hlt) ?_
      · by_cases hb : b = block
        · rw [hb, update_self]
          exact Finset.card_le_card (Finset.sdiff_subset_sdiff (Finset.Subset.refl _) hgrow)
        · rw [update_of_ne hb]
      · rw [update_self]
        obtain ⟨i, hi, hnot⟩ := Finset.exists_of_ssubset (Finset.ssubset_iff_subset_ne.mpr ⟨hgrow, Ne.symm hne⟩)
        refine Finset.card_lt_card (Finset.ssubset_iff_subset_ne.mpr
          ⟨Finset.sdiff_subset_sdiff (Finset.Subset.refl _) hgrow, fun he => ?_⟩)
        have hmem : i ∈ Finset.range (roots.length + 1) \ s.liveIn block :=
          Finset.mem_sdiff.mpr ⟨Finset.mem_range.mpr (Nat.lt_succ_of_le (hwithinRow i hi)), hnot⟩
        rw [← he] at hmem
        exact (Finset.mem_sdiff.mp hmem).2 hi
    have hidle : idle f.view.nodeBound visited ≤ f.view.nodeBound := by
      unfold idle
      refine (total_le (f := fun _ => 1) fun b _ => ?_).trans (le_of_eq ?_)
      · split <;> omega
      · rw [total_one, length_range]
    refine ⟨hkeep _ (by rw [hin, ← hv]) (by rw [hout, ← hv]) (fun b hb => ?_) hq
      (fun b hb => hkept b (by rw [← hv]; exact hb)) (fun _ => hall), ?_⟩
    · rcases hnew b hb with hb | hb
      · rw [← hv] at hb
        exact hrestLive b hb
      · exact hpredLive b hb
    · have hrestSize : visited.work.length + 1 = s.work.length := by
        rw [← hv, hw]
        rfl
      calc missing f.view.nodeBound roots.length ((f.view.predecessors block).foldl push visited) *
            (f.view.nodeBound + 1) + ((f.view.predecessors block).foldl push visited).work.length
          ≤ missing f.view.nodeBound roots.length ((f.view.predecessors block).foldl push visited) *
            (f.view.nodeBound + 1) + (visited.work.length + f.view.nodeBound) := by omega
        _ < (missing f.view.nodeBound roots.length ((f.view.predecessors block).foldl push visited) + 1) *
            (f.view.nodeBound + 1) + s.work.length := by
          rw [Nat.succ_mul]
          omega
        _ ≤ missing f.view.nodeBound roots.length s * (f.view.nodeBound + 1) + s.work.length :=
          Nat.add_le_add_right (Nat.mul_le_mul_right _ hmissing) _

theorem mem_calls {root : ρ} (hroot : root ∈ roots) (calls : List (SeedCall ρ)) (live : Finset Nat) :
    indexOfNamed roots root ∈ calls.foldl (ExitSeed.call roots) live ↔
      indexOfNamed roots root ∈ live ∨ ∃ call ∈ calls, call.Marks root := by
  induction calls generalizing live with
  | nil => simp
  | cons call calls ih =>
    have hcall : indexOfNamed roots root ∈ ExitSeed.call roots live call ↔
        indexOfNamed roots root ∈ live ∨ call.Marks root := by
      cases call with
      | insert r =>
        unfold ExitSeed.call indexOf
        dsimp only
        by_cases hr : r ∈ roots
        · rw [if_pos hr, Option.map_some, Option.getD_some, Finset.mem_insert, or_comm]
          refine or_congr_right ?_
          exact eq_comm.trans (BlockSummary.indexOfNamed_inj hroot)
        · rw [if_neg hr, Option.map_none, Option.getD_none]
          exact ⟨Or.inl, fun h => h.resolve_right fun heq => hr (by rwa [show r = root from heq])⟩
      | insertAll =>
        unfold ExitSeed.call
        rw [BlockSummary.mem_foldl_insert]
        exact or_congr_right (iff_of_true (mem_range.mpr (idxOf_lt_length_iff.mpr hroot)) trivial)
    rw [foldl_cons, ih, hcall, or_assoc]
    simp only [mem_cons, exists_eq_or_imp]

theorem calls_within (calls : List (SeedCall ρ)) {live : Finset Nat} (h : ∀ i ∈ live, i ≤ roots.length) :
    ∀ i ∈ calls.foldl (ExitSeed.call roots) live, i ≤ roots.length := by
  induction calls generalizing live with
  | nil => exact h
  | cons call calls ih =>
    refine ih fun i hi => ?_
    cases call with
    | insert r =>
      unfold ExitSeed.call indexOf at hi
      dsimp only at hi
      by_cases hr : r ∈ roots
      · rw [if_pos hr, Option.map_some, Option.getD_some] at hi
        rcases Finset.mem_insert.mp hi with rfl | hi
        · exact BlockSummary.indexOfNamed_le r
        · exact h i hi
      · rw [if_neg hr] at hi
        exact h i hi
    | insertAll =>
      unfold ExitSeed.call at hi
      rw [BlockSummary.mem_foldl_insert] at hi
      rcases hi with hi | hi
      · exact h i hi
      · exact Nat.le_of_lt (mem_range.mp hi)

theorem solving_start {order : List Nat} (horder : ∀ b, b ∈ order ↔ b ∈ f.view.nodeIds) :
    Solving f roots summaries seed (.start f.view.toGraphView roots seed order) := by
  refine ⟨fun b _ root _ hi => absurd hi (Finset.notMem_empty _), fun b hb root hroot hi => ?_,
    fun b hb hexit root hroot hseed => ?_, fun b i hi => absurd hi (Finset.notMem_empty _), fun b i hi => ?_,
    fun b hb => (horder b).mp hb, fun b hb => of_decide_eq_true hb,
    fun b hb hnot => absurd ((horder b).mpr hb) hnot⟩
  · unfold LivenessSearch.start at hi
    dsimp only at hi
    split at hi
    · next hexit => exact Or.inl ⟨hexit.2, ((mem_calls hroot _ _).mp hi).resolve_left (Finset.notMem_empty _)⟩
    · exact absurd hi (Finset.notMem_empty _)
  · unfold LivenessSearch.start
    dsimp only
    rw [if_pos ⟨hb, hexit⟩]
    exact (mem_calls hroot _ _).mpr (Or.inr hseed)
  · unfold LivenessSearch.start at hi
    dsimp only at hi
    split at hi
    · exact calls_within _ (fun i hi => absurd hi (Finset.notMem_empty _)) i hi
    · exact absurd hi (Finset.notMem_empty _)

/-- A settled solver holds every root that some path keeps live. -/
theorem Solving.complete (hsummary : ∀ b ∈ f.view.nodeIds, ∀ root ∈ roots,
    BlockSummary.Summarizes roots root (f.code b) (summaries b)) {s : LivenessSearch}
    (h : Solving f roots summaries seed s) (hwork : s.work = []) {root : ρ} (hroot : root ∈ roots)
    {b last : Nat} {path : List Nat} (hw : Walk f.view.Edge b last path) (hb : b ∈ f.view.nodeIds)
    (hlive : Exposes (path.flatMap f.code) root ∨ (f.view.successors last = [] ∧ Seeded seed root last ∧
      ∀ record ∈ path.flatMap f.code, ¬ record.Overwrites root)) :
    indexOfNamed roots root ∈ s.liveIn b := by
  have hsettled : ∀ b ∈ f.view.nodeIds, _ := fun b hb =>
    h.settled b hb (by rw [hwork]; exact not_mem_nil)
  have hthrough : ∀ b ∈ f.view.nodeIds, (∀ record ∈ f.code b, ¬ record.Overwrites root) →
      indexOfNamed roots root ∈ s.liveOut b → indexOfNamed roots root ∈ s.liveIn b := by
    intro b hb hnone hi
    refine (hsettled b hb).2.2 (Finset.mem_sdiff.mpr ⟨hi, fun hkill => ?_⟩)
    obtain ⟨record, hr, hover⟩ := (hsummary b hb root hroot).kills_iff.mp hkill
    exact hnone record hr hover
  induction path generalizing b with
  | nil => exact absurd hw.source_mem not_mem_nil
  | cons x path ih =>
    rcases hw.cases_head with ⟨hpath, hlast⟩ | ⟨c, path', he, hw', hpath⟩
    · rw [hpath, flatMap_singleton, hlast] at hlive
      rcases hlive with hlive | ⟨hexit, hseed, hnone⟩
      · exact (hsettled b hb).2.1 ((hsummary b hb root hroot).reads_iff.mpr hlive)
      · exact hthrough b hb hnone (h.seeded b hb hexit root hroot hseed)
    · have htail := (List.cons.inj hpath).2
      subst htail
      have hc : c ∈ f.view.nodeIds := f.lawful.successors_live b hb c he.2
      rw [hpath, flatMap_cons] at hlive
      have hnext : (∀ record ∈ f.code b, ¬ record.Overwrites root) →
          (Exposes (path.flatMap f.code) root ∨ (f.view.successors last = [] ∧ Seeded seed root last ∧
            ∀ record ∈ path.flatMap f.code, ¬ record.Overwrites root)) →
          indexOfNamed roots root ∈ s.liveIn b := fun hnone hlive =>
        hthrough b hb hnone ((hsettled b hb).1 c he.2 (ih hw' hc hlive))
      rcases hlive with hlive | ⟨hexit, hseed, hnone⟩
      · rcases exposes_append.mp hlive with hlive | ⟨hnone, hlive⟩
        · exact (hsettled b hb).2.1 ((hsummary b hb root hroot).reads_iff.mpr hlive)
        · exact hnext hnone (Or.inl hlive)
      · exact hnext (fun record hr => hnone record (mem_append_left _ hr))
          (Or.inr ⟨hexit, hseed, fun record hr => hnone record (mem_append_right _ hr)⟩)

end Solve

end LivenessSearch

theorem solvingOrder_spec {g : RootedView} (hg : g.Lawful) (hroot : g.root ∈ g.nodeIds) :
    ∃ order, solvingOrder g = some order ∧ ∀ b, b ∈ order ↔ b ∈ g.nodeIds := by
  obtain ⟨reversed, hrun, hmem⟩ := reversePostorder_spec hg (hg.nodeIds_lt _ hroot) .outgoing
  obtain ⟨order, hpost, rfl⟩ := Option.map_eq_some_iff.mp hrun
  refine ⟨order ++ g.nodeIds.filter fun block => block ∉ order, by rw [solvingOrder, hpost]; rfl, fun b => ?_⟩
  have hlive : b ∈ order → b ∈ g.nodeIds := fun hb => by
    have hreach := (hmem b).mp (mem_reverse.mpr hb)
    clear hb
    induction hreach with
    | refl => exact hroot
    | tail _ he ih => exact hg.neighbors_live .outgoing ih he
  rw [mem_append, mem_filter, decide_eq_true_iff]
  constructor
  · rintro (hb | ⟨hb, _⟩)
    · exact hlive hb
    · exact hb
  · intro hb
    by_cases ho : b ∈ order
    · exact Or.inl ho
    · exact Or.inr ⟨hb, ho⟩

theorem RootLiveness.computeSeeded_spec [LinearOrder ρ] (f : BlockView ρ ω rootWidth)
    (seed : Nat → List (SeedCall ρ)) :
    ∃ l, computeSeeded f f.rootTable (BlockSummaries.compute f f.rootTable) seed = some l ∧
      (∀ b ∈ f.view.nodeIds, ∀ root ∈ f.rootTable,
        (indexOfNamed f.rootTable root ∈ l.liveIn b ↔ LiveAtStart f seed root b)) := by
  have hsummary : ∀ b ∈ f.view.nodeIds, ∀ root ∈ f.rootTable,
      BlockSummary.Summarizes f.rootTable root (f.code b) (BlockSummaries.compute f f.rootTable b) :=
    fun b hb root hroot => BlockSummaries.compute_spec hroot f hb
  obtain ⟨order, horder, hmem⟩ := solvingOrder_spec f.lawful f.root_mem
  have hsize : LivenessSearch.missing f.view.nodeBound f.rootTable.length
      (.start f.view.toGraphView f.rootTable seed order) ≤ (f.rootTable.length + 1) * f.view.nodeBound := by
    unfold LivenessSearch.missing
    refine (total_le (f := fun _ => f.rootTable.length + 1) fun b _ => ?_).trans (le_of_eq ?_)
    · exact (Finset.card_le_card Finset.sdiff_subset).trans (le_of_eq (Finset.card_range _))
    · rw [total_const, length_range]
  obtain ⟨h, hend⟩ := @iterate_spec _
    (LivenessSearch.step f.view.toGraphView (BlockSummaries.compute f f.rootTable))
    (LivenessSearch.Solving f f.rootTable (BlockSummaries.compute f f.rootTable) seed)
    (fun s => LivenessSearch.missing f.view.nodeBound f.rootTable.length s * (f.view.nodeBound + 1) +
      s.work.length)
    (fun s s' h hs => h.step hsummary (fun b _ => BlockSummaries.compute_within f f.rootTable b) hs)
    ((f.rootTable.length + 1) * f.view.nodeBound * (f.view.nodeBound + 1) + order.length)
    (.start f.view.toGraphView f.rootTable seed order) (LivenessSearch.solving_start hmem)
    (Nat.add_le_add (Nat.mul_le_mul_right _ hsize) (Nat.le_refl _))
  unfold computeSeeded
  rw [horder]
  dsimp only [Option.bind_eq_bind, Option.bind_some]
  generalize iterate (LivenessSearch.step f.view.toGraphView (BlockSummaries.compute f f.rootTable))
    ((f.rootTable.length + 1) * f.view.nodeBound * (f.view.nodeBound + 1) + order.length)
    (.start f.view.toGraphView f.rootTable seed order) = s at h hend ⊢
  have hwork : s.work = [] := by
    unfold LivenessSearch.step at hend
    split at hend
    · next hw => exact hw
    · cases hend
  refine ⟨⟨s.liveIn, s.liveOut⟩, if_pos hwork, fun b hb root hroot => ⟨h.sound_in b hb root hroot, ?_⟩⟩
  rintro ⟨last, path, hw, hlive⟩
  exact h.complete hsummary hwork hroot hw hb hlive

end CfgLib.Rtl
