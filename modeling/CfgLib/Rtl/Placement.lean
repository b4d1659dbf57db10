import CfgLib.Dataflow.Ssa.Frontier
import CfgLib.Lib.Joins
import CfgLib.Rtl.Liveness
import Mathlib.Data.Finset.Sort
import Mathlib.Data.Prod.Lex

/-!
# Placing block parameters

`ir/rtl/facts/placement.rs`: the roots that need a parameter at each block, by a
worklist over the dominance frontiers for one root after the other.  The marks hold
the root that last set them, so nothing clears them between two roots.
-/

namespace CfgLib.Rtl

open CfgLib.Lib Relation Dominator List Function

variable {ρ ω : Type} {rootWidth : ρ → Nat}

/-- The roots that need a parameter at each block, ascending. -/
structure ParamPlacement (ρ : Type) where
  blocks : Nat → List ρ
  paramCount : Nat

/-- The state of the placement; the head of the work list is popped next. -/
structure ParamSearch (ρ : Type) where
  queued : Nat → Option Nat
  visited : Nat → Option Nat
  work : List Nat
  placement : ParamPlacement ρ

namespace ParamSearch

def start : ParamSearch ρ := ⟨fun _ => none, fun _ => none, [], fun _ => [], 0⟩

def enqueue (root : Nat) (s : ParamSearch ρ) (block : Nat) : ParamSearch ρ :=
  { s with queued := update s.queued block (some root), work := block :: s.work }

/-- Queue a block for the root, unless it has been queued for it. -/
def push (root : Nat) (s : ParamSearch ρ) (block : Nat) : ParamSearch ρ :=
  if s.queued block = some root then s else s.enqueue root block

/-- Mark a block of the frontier; it takes a parameter when the root is live there. -/
def meet (live : Nat → Finset Nat) (name : ρ) (root : Nat) (s : ParamSearch ρ) (join : Nat) : ParamSearch ρ :=
  { s with
    visited := update s.visited join (some root)
    placement :=
      if root ∈ live join then
        ⟨update s.placement.blocks join (s.placement.blocks join ++ [name]), s.placement.paramCount + 1⟩
      else s.placement }

/-- Meet a block of the frontier, unless it has been met for the root, and queue it. -/
def offer (live : Nat → Finset Nat) (name : ρ) (root : Nat) (s : ParamSearch ρ) (join : Nat) : ParamSearch ρ :=
  if s.visited join = some root then s else (s.meet live name root join).push root join

def step (runs : FrontierRuns) (live : Nat → Finset Nat) (name : ρ) (root : Nat) (s : ParamSearch ρ) :
    Option (ParamSearch ρ) :=
  match s.work with
  | [] => none
  | block :: rest => some ((runs.frontier block).foldl (offer live name root) { s with work := rest })

/-- Place the parameters of one root; its writers come off the front of the list. -/
def placeRoot (runs : FrontierRuns) (live : Nat → Finset Nat) (entry bound : Nat)
    (s : ParamSearch ρ × List (Nat × Nat)) (root : ρ × Nat) : ParamSearch ρ × List (Nat × Nat) :=
  let queued := s.1.enqueue root.2 entry
  let queued := (s.2.takeWhile fun writer => writer.1 = root.2).foldl
    (fun s writer => s.push root.2 writer.2) queued
  (iterate (step runs live root.1 root.2) (bound + 1) queued, s.2.dropWhile fun writer => writer.1 = root.2)

end ParamSearch

def writers (f : BlockView ρ ω rootWidth) (dominators : DominatorTree) (summaries : Nat → BlockSummary) :
    List (Nat × Nat) :=
  (f.view.nodeIds.flatMap fun block =>
    if dominators.isReachable block then ((summaries block).writes.sort (· ≤ ·)).map fun root => (root, block)
    else []).insertionSort fun a b => toLex a ≤ toLex b

def ParamPlacement.compute (f : BlockView ρ ω rootWidth) (dominators : DominatorTree) (frontiers : FrontierRuns)
    (roots : List ρ) (summaries : Nat → BlockSummary) (liveness : RootLiveness) : ParamPlacement ρ :=
  (roots.zipIdx.foldl (ParamSearch.placeRoot frontiers liveness.liveIn f.view.root f.view.nodeBound)
    (.start, writers f dominators summaries)).1.placement

def ParamPlacement.rootsAt (placement : ParamPlacement ρ) (block : Nat) : List ρ := placement.blocks block

/-! ## One root -/

namespace ParamSearch

def idle (root bound : Nat) (s : ParamSearch ρ) : Nat :=
  total (fun b => if s.queued b = some root then 0 else 1) (List.range bound)

theorem idle_enqueue {root bound block : Nat} {s : ParamSearch ρ} (hlt : block < bound)
    (hqueued : s.queued block ≠ some root) : idle root bound (s.enqueue root block) + 1 ≤ idle root bound s := by
  refine total_drop (fun v _ => ?_) (mem_range.mpr hlt) ?_
  · by_cases hv : v = block
    · simp [hv, enqueue]
    · simp [enqueue, update_of_ne hv]
  · simp [enqueue, hqueued]

section One

variable {E : Nat → Nat → Prop} {entry bound root : Nat} {runs : FrontierRuns} {live : Nat → Finset Nat}
  {name : ρ} {D : Nat → Prop} {before : ParamSearch ρ} {hole : Option Nat}

/-- What the worklist keeps while it places one root. -/
structure Placing (E : Nat → Nat → Prop) (entry bound root : Nat) (runs : FrontierRuns) (live : Nat → Finset Nat)
    (name : ρ) (D : Nat → Prop) (before : ParamSearch ρ) (hole : Option Nat) (s : ParamSearch ρ) : Prop where
  queued_iff : ∀ v, s.queued v = some root ↔ D v ∨ s.visited v = some root
  sound : ∀ v, s.visited v = some root → IteratedFrontier E entry D (fun _ => True) v
  work : ∀ v ∈ s.work, s.queued v = some root
  read : ∀ v, s.queued v = some root → some v ≠ hole →
    v ∈ s.work ∨ ∀ b ∈ runs.frontier v, s.visited b = some root
  blocks_eq : ∀ v, s.placement.blocks v = before.placement.blocks v ++
    if s.visited v = some root ∧ root ∈ live v then [name] else []
  queued_le : ∀ v k, s.queued v = some k → k ≤ root
  visited_le : ∀ v k, s.visited v = some k → k ≤ root

theorem Placing.offer {s : ParamSearch ρ} (h : Placing E entry bound root runs live name D before hole s)
    {join : Nat} (hlt : join < bound) (hsound : IteratedFrontier E entry D (fun _ => True) join) :
    Placing E entry bound root runs live name D before hole (s.offer live name root join) ∧
      (s.offer live name root join).visited join = some root ∧
      (∀ v, s.visited v = some root → (s.offer live name root join).visited v = some root) ∧
      (s.offer live name root join).work.length + idle root bound (s.offer live name root join) ≤
        s.work.length + idle root bound s := by
  unfold ParamSearch.offer
  split
  · next hvisited => exact ⟨h, hvisited, fun _ hv => hv, Nat.le_refl _⟩
  next hvisited =>
  have hvis : ∀ v, (s.meet live name root join).visited v = some root ↔ v = join ∨ s.visited v = some root := by
    intro v
    unfold meet
    dsimp only
    rw [update_apply]
    split
    · next heq => exact iff_of_true rfl (Or.inl heq)
    · next hne => exact ⟨Or.inr, fun hv => hv.resolve_left hne⟩
  have hblocks : ∀ v, (s.meet live name root join).placement.blocks v = before.placement.blocks v ++
      if (s.meet live name root join).visited v = some root ∧ root ∈ live v then [name] else [] := by
    intro v
    simp only [hvis]
    have hold := h.blocks_eq v
    by_cases hv : v = join
    · subst hv
      rw [if_neg fun hc => hvisited hc.1, append_nil] at hold
      unfold meet
      by_cases hlive : root ∈ live v
      · simp [hlive, hold]
      · simp [hlive, hold]
    · rw [show (s.meet live name root join).placement.blocks v = s.placement.blocks v by
        unfold meet
        dsimp only
        split
        · exact update_of_ne hv _ _
        · rfl, hold]
      simp [hv]
  have hvisLe : ∀ v k, (s.meet live name root join).visited v = some k → k ≤ root := by
    intro v k hk
    unfold meet at hk
    dsimp only at hk
    rw [update_apply] at hk
    split at hk
    · exact le_of_eq (Option.some.inj hk).symm
    · exact h.visited_le v k hk
  have hsound' : ∀ v, (s.meet live name root join).visited v = some root →
      IteratedFrontier E entry D (fun _ => True) v := fun v hv =>
    ((hvis v).mp hv).elim (fun he => he ▸ hsound) (h.sound v)
  have hkept : ∀ v, s.visited v = some root → (s.meet live name root join).visited v = some root :=
    fun v hv => (hvis v).mpr (Or.inr hv)
  have hread : ∀ v, s.queued v = some root → some v ≠ hole →
      v ∈ s.work ∨ ∀ b ∈ runs.frontier v, (s.meet live name root join).visited b = some root :=
    fun v hv hne => (h.read v hv hne).imp_right fun hr b hb => hkept b (hr b hb)
  unfold push
  split
  · next hqueued =>
    refine ⟨⟨fun v => ?_, hsound', h.work, hread, hblocks, h.queued_le, hvisLe⟩,
      (hvis join).mpr (Or.inl rfl), hkept, Nat.le_refl _⟩
    rw [hvis]
    refine (h.queued_iff v).trans ⟨Or.imp_right Or.inr, ?_⟩
    rintro (hd | rfl | hv)
    · exact Or.inl hd
    · exact (h.queued_iff v).mp hqueued
    · exact Or.inr hv
  · next hqueued =>
    have hq : ∀ v, update s.queued join (some root) v = some root ↔ v = join ∨ s.queued v = some root := by
      intro v
      rw [update_apply]
      split
      · next heq => exact iff_of_true rfl (Or.inl heq)
      · next hne => exact ⟨Or.inr, fun hv => hv.resolve_left hne⟩
    refine ⟨⟨fun v => ?_, hsound', fun v hv => ?_, fun v hv hne => ?_, hblocks, fun v k hk => ?_, hvisLe⟩,
      (hvis join).mpr (Or.inl rfl), hkept, ?_⟩
    · refine (hq v).trans ?_
      rw [show ((s.meet live name root join).enqueue root join).visited =
        (s.meet live name root join).visited from rfl, hvis, h.queued_iff, or_left_comm]
    · exact (hq v).mpr ((mem_cons.mp hv).imp_right (h.work v))
    · rcases (hq v).mp hv with rfl | hv
      · exact Or.inl mem_cons_self
      · exact (hread v hv hne).imp_left (mem_cons_of_mem join)
    · have hk' : update s.queued join (some root) v = some k := hk
      rw [update_apply] at hk'
      split at hk'
      · exact le_of_eq (Option.some.inj hk').symm
      · exact h.queued_le v k hk'
    · have hidle := idle_enqueue (s := s.meet live name root join) hlt hqueued
      have hsame : idle root bound (s.meet live name root join) = idle root bound s := rfl
      rw [show ((s.meet live name root join).enqueue root join).work.length = s.work.length + 1 from rfl]
      omega

theorem Placing.offers {l : List Nat} (hl : ∀ b ∈ l, b < bound ∧ IteratedFrontier E entry D (fun _ => True) b) :
    ∀ {s : ParamSearch ρ}, Placing E entry bound root runs live name D before hole s → ∃ s',
      l.foldl (ParamSearch.offer live name root) s = s' ∧
      Placing E entry bound root runs live name D before hole s' ∧
      (∀ b ∈ l, s'.visited b = some root) ∧ (∀ v, s.visited v = some root → s'.visited v = some root) ∧
      s'.work.length + idle root bound s' ≤ s.work.length + idle root bound s := by
  induction l with
  | nil => exact fun {s} h => ⟨s, rfl, h, fun _ hb => absurd hb not_mem_nil, fun _ hv => hv, Nat.le_refl _⟩
  | cons b l ih =>
    intro s h
    obtain ⟨hlt, hsound⟩ := hl b mem_cons_self
    obtain ⟨h₁, hmet, hkept₁, hle₁⟩ := h.offer hlt hsound
    obtain ⟨s', hrun, h', hall, hkept, hle⟩ := ih (fun b hb => hl b (mem_cons_of_mem _ hb)) h₁
    refine ⟨s', hrun, h', fun c hc => ?_, fun v hv => hkept v (hkept₁ v hv), hle.trans hle₁⟩
    rcases mem_cons.mp hc with rfl | hc
    · exact hkept c hmet
    · exact hall c hc

theorem Placing.step (hruns : ∀ a b, b ∈ runs.frontier a ↔ InFrontier E entry a b)
    (hreach : ∀ v, ReflTransGen E entry v → v < bound) {s s' : ParamSearch ρ}
    (h : Placing E entry bound root runs live name D before none s)
    (hs : ParamSearch.step runs live name root s = some s') :
    Placing E entry bound root runs live name D before none s' ∧
      s'.work.length + idle root bound s' < s.work.length + idle root bound s := by
  unfold ParamSearch.step at hs
  split at hs
  · cases hs
  next block rest hw =>
  cases hs
  have hblock : s.queued block = some root := h.work block (by rw [hw]; exact mem_cons_self)
  have hsource : D block ∨ IteratedFrontier E entry D (fun _ => True) block :=
    ((h.queued_iff block).mp hblock).imp_right (h.sound block)
  have hstart : Placing E entry bound root runs live name D before (some block) { s with work := rest } := by
    refine ⟨h.queued_iff, h.sound, fun v hv => h.work v (by rw [hw]; exact mem_cons_of_mem block hv),
      fun v hv hne => ?_, h.blocks_eq, h.queued_le, h.visited_le⟩
    refine (h.read v hv (fun he => by cases he)).imp_left fun hmem => ?_
    rw [hw] at hmem
    exact (mem_cons.mp hmem).resolve_left fun he => hne (congrArg some he)
  obtain ⟨s', hrun, h', hall, hkept, hle⟩ := @Placing.offers _ _ _ _ _ _ _ _ _ _ _ (runs.frontier block)
    (fun b hb => by
      have hf := (hruns block b).mp hb
      exact ⟨hreach b hf.1, IteratedFrontier.closed hsource hf trivial⟩) _ hstart
  rw [hrun]
  refine ⟨⟨h'.queued_iff, h'.sound, h'.work, fun v hv _ => ?_, h'.blocks_eq, h'.queued_le, h'.visited_le⟩, ?_⟩
  · by_cases hvb : v = block
    · exact Or.inr (hvb ▸ hall)
    · exact h'.read v hv fun he => hvb (Option.some.inj he)
  · refine Nat.lt_of_le_of_lt hle ?_
    rw [show idle root bound ({ s with work := rest } : ParamSearch ρ) = idle root bound s from rfl, hw,
      length_cons]
    exact Nat.add_lt_add_right (Nat.lt_succ_self _) _

/-- The blocks that define a root are queued, and nothing has been met for it. -/
structure Gathered (bound root : Nat) (D : Nat → Prop) (before s : ParamSearch ρ) : Prop where
  queued_iff : ∀ v, s.queued v = some root ↔ D v
  work_iff : ∀ v, v ∈ s.work ↔ D v
  visited_eq : s.visited = before.visited
  placement_eq : s.placement = before.placement
  queued_le : ∀ v k, s.queued v = some k → k ≤ root
  size : s.work.length + idle root bound s ≤ bound

theorem Gathered.push {s : ParamSearch ρ} (h : Gathered bound root D before s) {block : Nat}
    (hlt : block < bound) : Gathered bound root (fun v => D v ∨ v = block) before (s.push root block) := by
  unfold ParamSearch.push
  split
  · next hq =>
    have hsame : ∀ v, D v ∨ v = block ↔ D v := fun v =>
      ⟨fun hv => hv.elim id fun he => he ▸ (h.queued_iff block).mp hq, Or.inl⟩
    exact ⟨fun v => (h.queued_iff v).trans (hsame v).symm, fun v => (h.work_iff v).trans (hsame v).symm,
      h.visited_eq, h.placement_eq, h.queued_le, h.size⟩
  · next hq =>
    refine ⟨fun v => ?_, fun v => ?_, h.visited_eq, h.placement_eq, fun v k hk => ?_, ?_⟩
    · unfold enqueue
      dsimp only
      rw [update_apply]
      split
      · next heq => exact iff_of_true rfl (Or.inr heq)
      · next hne => exact (h.queued_iff v).trans ⟨Or.inl, fun hv => hv.resolve_right hne⟩
    · unfold enqueue
      rw [mem_cons, h.work_iff, or_comm]
    · unfold enqueue at hk
      dsimp only at hk
      rw [update_apply] at hk
      split at hk
      · exact le_of_eq (Option.some.inj hk).symm
      · exact h.queued_le v k hk
    · have hidle := idle_enqueue hlt hq
      have hsize := h.size
      rw [show (s.enqueue root block).work.length = s.work.length + 1 from rfl]
      omega

theorem Gathered.pushes {l : List (Nat × Nat)} (hl : ∀ writer ∈ l, writer.2 < bound) :
    ∀ {D : Nat → Prop} {s : ParamSearch ρ}, Gathered bound root D before s →
      Gathered bound root (fun v => D v ∨ ∃ writer ∈ l, writer.2 = v) before
        (l.foldl (fun s writer => s.push root writer.2) s) := by
  induction l with
  | nil =>
    intro D s h
    have hsame : (fun v => D v ∨ ∃ writer ∈ ([] : List (Nat × Nat)), writer.2 = v) = D := by
      funext v
      simp
    rw [hsame]
    exact h
  | cons writer l ih =>
    intro D s h
    have hsame : (fun v => D v ∨ ∃ w ∈ writer :: l, w.2 = v) =
        fun v => (D v ∨ v = writer.2) ∨ ∃ w ∈ l, w.2 = v := by
      funext v
      simp [or_assoc, eq_comm]
    rw [hsame]
    exact ih (fun w hw => hl w (mem_cons_of_mem writer hw)) (h.push (hl writer mem_cons_self))

/-- A state between two roots: no work is left, and the marks are of earlier roots. -/
structure Resting (root : Nat) (s : ParamSearch ρ) : Prop where
  work : s.work = []
  queued_lt : ∀ v k, s.queued v = some k → k < root
  visited_lt : ∀ v k, s.visited v = some k → k < root

theorem gathered_start {s : ParamSearch ρ} (h : Resting root s) (hentry : entry < bound) {l : List (Nat × Nat)}
    (hl : ∀ writer ∈ l, writer.2 < bound) :
    Gathered bound root (fun v => v = entry ∨ ∃ writer ∈ l, writer.2 = v) s
      (l.foldl (fun s writer => s.push root writer.2) (s.enqueue root entry)) := by
  have hnot : s.queued entry ≠ some root := fun hq => Nat.lt_irrefl _ (h.queued_lt _ _ hq)
  have hq : ∀ v, (s.enqueue root entry).queued v = some root ↔ v = entry := by
    intro v
    unfold enqueue
    dsimp only
    rw [update_apply]
    split
    · next heq => exact iff_of_true rfl heq
    · next hne => exact iff_of_false (fun hq => Nat.lt_irrefl _ (h.queued_lt _ _ hq)) hne
  refine Gathered.pushes hl ⟨hq, fun v => ?_, rfl, rfl, fun v k hk => ?_, ?_⟩
  · unfold enqueue
    rw [h.work]
    exact mem_singleton
  · unfold enqueue at hk
    dsimp only at hk
    rw [update_apply] at hk
    split at hk
    · exact le_of_eq (Option.some.inj hk).symm
    · exact Nat.le_of_lt (h.queued_lt v k hk)
  · have hidle := idle_enqueue hentry hnot
    have hall : idle root bound s ≤ bound := by
      unfold idle
      refine (total_le (f := fun _ => 1) fun b _ => ?_).trans (le_of_eq ?_)
      · split <;> omega
      · rw [total_one, length_range]
    have hwork : (s.enqueue root entry).work.length = 1 := by
      unfold enqueue
      rw [h.work]
      rfl
    omega

theorem Gathered.placed (hruns : ∀ a b, b ∈ runs.frontier a ↔ InFrontier E entry a b)
    (hreach : ∀ v, ReflTransGen E entry v → v < bound) (hrest : Resting root before) {s : ParamSearch ρ}
    (h : Gathered bound root D before s) :
    Resting (root + 1) (iterate (ParamSearch.step runs live name root) (bound + 1) s) ∧
      ∀ v, (iterate (ParamSearch.step runs live name root) (bound + 1) s).placement.blocks v =
          before.placement.blocks v ++ [name] ∧ IteratedFrontier E entry D (fun _ => True) v ∧ root ∈ live v ∨
        (iterate (ParamSearch.step runs live name root) (bound + 1) s).placement.blocks v =
          before.placement.blocks v ∧ ¬ (IteratedFrontier E entry D (fun _ => True) v ∧ root ∈ live v) := by
  have hvisited : ∀ v, s.visited v ≠ some root := fun v hv => by
    rw [h.visited_eq] at hv
    exact Nat.lt_irrefl _ (hrest.visited_lt _ _ hv)
  have hstart : Placing E entry bound root runs live name D before none s := by
    refine ⟨fun v => ?_, fun v hv => absurd hv (hvisited v), fun v hv => ?_, fun v hv _ => Or.inl ?_,
      fun v => ?_, h.queued_le, fun v k hk => ?_⟩
    · exact (h.queued_iff v).trans ⟨Or.inl, fun hv => hv.resolve_right (hvisited v)⟩
    · exact (h.queued_iff v).mpr ((h.work_iff v).mp hv)
    · exact (h.work_iff v).mpr ((h.queued_iff v).mp hv)
    · rw [h.placement_eq, if_neg fun hc => hvisited v hc.1, append_nil]
    · rw [h.visited_eq] at hk
      exact Nat.le_of_lt (hrest.visited_lt v k hk)
  obtain ⟨hend, hexit⟩ := iterate_spec (μ := fun s => s.work.length + idle root bound s)
    (fun _ _ h hs => h.step hruns hreach hs) hstart (Nat.le_succ_of_le h.size)
  generalize iterate (ParamSearch.step runs live name root) (bound + 1) s = t at hend hexit
  have hwork : t.work = [] := by
    unfold ParamSearch.step at hexit
    split at hexit
    · next hw => exact hw
    · cases hexit
  have hclosed : ∀ a b, D a ∨ t.visited a = some root → InFrontier E entry a b → True → t.visited b = some root := by
    intro a b ha hf _
    have hread := (hend.read a ((hend.queued_iff a).mpr ha) fun he => by cases he).resolve_left (by
      rw [hwork]
      exact not_mem_nil)
    exact hread b ((hruns a b).mpr hf)
  refine ⟨⟨hwork, fun v k hk => Nat.lt_succ_of_le (hend.queued_le v k hk),
    fun v k hk => Nat.lt_succ_of_le (hend.visited_le v k hk)⟩, fun v => ?_⟩
  have hblocks := hend.blocks_eq v
  by_cases hv : t.visited v = some root ∧ root ∈ live v
  · rw [if_pos hv] at hblocks
    exact Or.inl ⟨hblocks, hend.sound v hv.1, hv.2⟩
  · rw [if_neg hv, append_nil] at hblocks
    refine Or.inr ⟨hblocks, fun hc => hv ⟨?_, hc.2⟩⟩
    exact IteratedFrontier.least (S := fun v => t.visited v = some root) hclosed hc.1

end One

/-! ## All roots -/

theorem mem_takeWhile_writers {k : Nat} {l : List (Nat × Nat)} (hsorted : l.Pairwise fun a b => a.1 ≤ b.1)
    (hge : ∀ p ∈ l, k ≤ p.1) : (∀ p, p ∈ l.takeWhile (fun writer => writer.1 = k) ↔ p ∈ l ∧ p.1 = k) ∧
      ∀ p, p ∈ l.dropWhile (fun writer => writer.1 = k) ↔ p ∈ l ∧ k + 1 ≤ p.1 := by
  induction l with
  | nil => simp
  | cons a l ih =>
    obtain ⟨ha, hsorted⟩ := pairwise_cons.mp hsorted
    obtain ⟨htake, hdrop⟩ := ih hsorted fun p hp => hge p (mem_cons_of_mem a hp)
    by_cases hak : a.1 = k
    · rw [takeWhile_cons_of_pos (by simpa using hak), dropWhile_cons_of_pos (by simpa using hak)]
      refine ⟨fun p => ?_, fun p => ?_⟩
      · rw [mem_cons, htake, mem_cons, or_and_right]
        exact or_congr_left ⟨fun he => ⟨he, by rw [he]; exact hak⟩, And.left⟩
      · rw [hdrop, mem_cons, or_and_right]
        refine ⟨Or.inr, fun hp => hp.resolve_left ?_⟩
        rintro ⟨rfl, hlt⟩
        omega
    · have hlt : ∀ p ∈ a :: l, k + 1 ≤ p.1 := by
        have hak' := hge a mem_cons_self
        intro p hp
        rcases mem_cons.mp hp with rfl | hp
        · omega
        · have := ha p hp
          omega
      rw [takeWhile_cons_of_neg (by simpa using hak), dropWhile_cons_of_neg (by simpa using hak)]
      refine ⟨fun p => ⟨fun hp => absurd hp not_mem_nil, fun hp => ?_⟩,
        fun p => ⟨fun hp => ⟨hp, hlt p hp⟩, And.left⟩⟩
      have := hlt p hp.1
      omega

section All

variable {E : Nat → Nat → Prop} {entry bound : Nat} {runs : FrontierRuns} {live : Nat → Finset Nat}
  {all : List (Nat × Nat)}

/-- The joins of the definitions of a root where it is live. -/
def NeedsParam (E : Nat → Nat → Prop) (entry : Nat) (live : Nat → Finset Nat) (all : List (Nat × Nat))
    (root v : Nat) : Prop :=
  IteratedFrontier E entry (fun v => v = entry ∨ (root, v) ∈ all) (fun _ => True) v ∧ root ∈ live v

theorem placeRoots (hruns : ∀ a b, b ∈ runs.frontier a ↔ InFrontier E entry a b)
    (hreach : ∀ v, ReflTransGen E entry v → v < bound) (hall : ∀ p ∈ all, p.2 < bound) (names : List ρ) :
    ∀ (k : Nat) (s : ParamSearch ρ) (rest : List (Nat × Nat)), Resting k s →
      rest.Pairwise (fun a b => a.1 ≤ b.1) → (∀ p, p ∈ rest ↔ p ∈ all ∧ k ≤ p.1) →
      ∀ v, ∃ extra, ((names.zipIdx k).foldl (placeRoot runs live entry bound) (s, rest)).1.placement.blocks v =
          s.placement.blocks v ++ extra ∧ extra.Sublist names ∧
        ∀ name, name ∈ extra ↔ ∃ i, names[i]? = some name ∧ NeedsParam E entry live all (k + i) v := by
  induction names with
  | nil => exact fun k s rest _ _ _ v => ⟨[], (append_nil _).symm, List.Sublist.refl _, fun name => by simp⟩
  | cons name names ih =>
    intro k s rest hrest hsorted hmem v
    obtain ⟨htake, hdrop⟩ := mem_takeWhile_writers hsorted fun p hp => ((hmem p).mp hp).2
    have hgathered := gathered_start (l := rest.takeWhile fun writer => writer.1 = k) hrest
      (hreach entry .refl) fun p hp => hall p ((hmem p).mp ((htake p).mp hp).1).1
    have hD : (fun v => v = entry ∨ ∃ writer ∈ rest.takeWhile (fun writer => writer.1 = k), writer.2 = v) =
        fun v => v = entry ∨ (k, v) ∈ all := by
      funext v
      refine propext (or_congr_right ⟨?_, fun hv => ⟨(k, v), (htake _).mpr ⟨(hmem _).mpr ⟨hv, le_rfl⟩, rfl⟩, rfl⟩⟩)
      rintro ⟨⟨k', v'⟩, hw, rfl⟩
      obtain ⟨hw', hk⟩ := (htake _).mp hw
      have hk' : k' = k := hk
      exact hk' ▸ ((hmem _).mp hw').1
    rw [hD] at hgathered
    obtain ⟨hrest', hblocks⟩ := @Gathered.placed ρ E entry bound k runs live name _ s hruns hreach hrest _
      hgathered
    obtain ⟨extra, hrun, hsub, hextra⟩ := ih (k + 1) _ (rest.dropWhile fun writer => writer.1 = k) hrest'
      (hsorted.sublist (dropWhile_sublist _)) (fun p => by
        rw [hdrop, hmem]
        constructor
        · rintro ⟨⟨hp, _⟩, hlt⟩
          exact ⟨hp, hlt⟩
        · rintro ⟨hp, hlt⟩
          exact ⟨⟨hp, by omega⟩, hlt⟩) v
    have hnext : ∀ m, (∃ i, names[i]? = some m ∧ NeedsParam E entry live all (k + 1 + i) v) ↔
        ∃ i, (name :: names)[i + 1]? = some m ∧ NeedsParam E entry live all (k + (i + 1)) v := by
      intro m
      refine exists_congr fun i => ?_
      rw [getElem?_cons_succ, Nat.add_right_comm, Nat.add_assoc]
    have hsplit : ∀ m, (∃ i, (name :: names)[i]? = some m ∧ NeedsParam E entry live all (k + i) v) ↔
        (m = name ∧ NeedsParam E entry live all k v) ∨ m ∈ extra := by
      intro m
      rw [hextra, hnext]
      constructor
      · rintro ⟨i, hi, hneeds⟩
        cases i with
        | zero => exact Or.inl ⟨(Option.some.inj hi).symm, hneeds⟩
        | succ i => exact Or.inr ⟨i, hi, hneeds⟩
      · rintro (⟨rfl, hneeds⟩ | ⟨i, hi, hneeds⟩)
        · exact ⟨0, rfl, hneeds⟩
        · exact ⟨i + 1, hi, hneeds⟩
    rw [zipIdx_cons, foldl_cons]
    rcases hblocks v with ⟨hv, hneeds⟩ | ⟨hv, hnone⟩
    · refine ⟨name :: extra, hrun.trans ?_, hsub.cons_cons name, fun m => ?_⟩
      · rw [hv, append_assoc]
        rfl
      · rw [hsplit, mem_cons]
        exact or_congr_left ⟨fun he => ⟨he, hneeds⟩, And.left⟩
    · refine ⟨extra, hrun.trans (by rw [hv]), hsub.cons name, fun m => ?_⟩
      rw [hsplit]
      exact ⟨Or.inr, fun hm => hm.resolve_left fun hc => hnone hc.2⟩

end All

end ParamSearch

/-! ## The parameters of a function -/

section Function

variable [LinearOrder ρ] {f : BlockView ρ ω rootWidth} {t : DominatorTree}

def BlockView.WritesRoot (f : BlockView ρ ω rootWidth) (root : ρ) (block : Nat) : Prop :=
  ∃ record ∈ f.code block, record.Writes root

theorem mem_writers (hdom : DominatorTree.IsDominance f.view.toGraphView f.view.root t) {root : ρ}
    (hroot : root ∈ f.rootTable) (v : Nat) :
    (indexOfNamed f.rootTable root, v) ∈ writers f t (BlockSummaries.compute f f.rootTable) ↔
      ReflTransGen f.view.Edge f.view.root v ∧ f.WritesRoot root v := by
  unfold writers
  rw [mem_insertionSort, mem_flatMap]
  constructor
  · rintro ⟨block, hblock, hp⟩
    split at hp
    · next hreach =>
      obtain ⟨i, hi, heq⟩ := mem_map.mp hp
      obtain ⟨rfl, rfl⟩ := Prod.mk.inj heq
      rw [Finset.mem_sort] at hi
      exact ⟨(hdom.isReachable_iff _).mp hreach,
        (BlockSummaries.compute_spec hroot f hblock).writes_iff.mp hi⟩
    · exact absurd hp not_mem_nil
  · rintro ⟨hreach, hwrites⟩
    have hv := reaches_live f.lawful f.root_mem hreach
    refine ⟨v, hv, ?_⟩
    rw [if_pos ((hdom.isReachable_iff v).mpr hreach)]
    refine mem_map.mpr ⟨_, ?_, rfl⟩
    rw [Finset.mem_sort]
    exact (BlockSummaries.compute_spec hroot f hv).writes_iff.mpr hwrites

theorem rootTable_pairwise (f : BlockView ρ ω rootWidth) : f.rootTable.Pairwise (· < ·) := by
  have hsorted : f.rootTable.Pairwise (· ≤ ·) := (pairwise_insertionSort _ _).sublist (dedup_sublist _)
  have hnodup : f.rootTable.Pairwise (· ≠ ·) := nodup_dedup _
  exact hsorted.imp₂ (fun a b hle hne => lt_of_le_of_ne hle hne) hnodup

/-- The placement holds a root where its definitions join and it is live, in the order of the table. -/
theorem ParamPlacement.compute_spec (hdom : DominatorTree.IsDominance f.view.toGraphView f.view.root t)
    {frontiers : FrontierRuns}
    (hruns : ∀ a b, b ∈ frontiers.frontier a ↔ InFrontier f.view.Edge f.view.root a b) (l : RootLiveness)
    (v : Nat) :
    ((compute f t frontiers f.rootTable (BlockSummaries.compute f f.rootTable) l).rootsAt v).Sublist f.rootTable ∧
      ∀ root ∈ f.rootTable,
        (root ∈ (compute f t frontiers f.rootTable (BlockSummaries.compute f f.rootTable) l).rootsAt v ↔
          Joins f.view.Edge f.view.root (f.WritesRoot root) v ∧ indexOfNamed f.rootTable root ∈ l.liveIn v) := by
  have hlt : ∀ v, ReflTransGen f.view.Edge f.view.root v → v < f.view.nodeBound := fun v hv =>
    f.lawful.nodeIds_lt v (reaches_live f.lawful f.root_mem hv)
  have htotal : Std.Total (fun a b : Nat × Nat => toLex a ≤ toLex b) := ⟨fun a b => le_total (toLex a) (toLex b)⟩
  have htrans : IsTrans (Nat × Nat) (fun a b => toLex a ≤ toLex b) := ⟨fun a b c => le_trans⟩
  have hsorted : (writers f t (BlockSummaries.compute f f.rootTable)).Pairwise fun a b => a.1 ≤ b.1 :=
    (pairwise_insertionSort _ _).imp fun h => by
      rcases Prod.Lex.le_iff.mp h with h | ⟨h, _⟩
      · exact Nat.le_of_lt h
      · exact le_of_eq h
  have hall : ∀ p ∈ writers f t (BlockSummaries.compute f f.rootTable), p.2 < f.view.nodeBound := by
    intro p hp
    unfold writers at hp
    rw [mem_insertionSort, mem_flatMap] at hp
    obtain ⟨block, hblock, hp⟩ := hp
    split at hp
    · obtain ⟨i, _, rfl⟩ := mem_map.mp hp
      exact f.lawful.nodeIds_lt block hblock
    · exact absurd hp not_mem_nil
  obtain ⟨extra, hrun, hsub, hextra⟩ := @ParamSearch.placeRoots ρ _ _ _ _ l.liveIn _ hruns hlt hall
    f.rootTable 0 .start _ ⟨rfl, fun _ _ h => (by cases h), fun _ _ h => (by cases h)⟩ hsorted (fun p => by simp) v
  have hblocks : (compute f t frontiers f.rootTable (BlockSummaries.compute f f.rootTable) l).rootsAt v = extra := hrun
  rw [hblocks]
  refine ⟨hsub, fun root hroot => ?_⟩
  rw [hextra]
  have hindex : ∀ i, f.rootTable[i]? = some root ↔ i = indexOfNamed f.rootTable root := by
    intro i
    constructor
    · intro hi
      obtain ⟨hlt, rfl⟩ := List.getElem?_eq_some_iff.mp hi
      exact ((nodup_dedup _).idxOf_getElem i hlt).symm
    · rintro rfl
      have hlt := idxOf_lt_length_iff.mpr hroot
      exact List.getElem?_eq_some_iff.mpr ⟨hlt, getElem_idxOf hlt⟩
  simp only [hindex, exists_eq_left, Nat.zero_add]
  unfold ParamSearch.NeedsParam
  refine and_congr_left fun _ => ⟨fun hj => ?_, fun hj => ?_⟩
  · refine IteratedFrontier.least (fun a b ha hf _ => IteratedFrontier.closed (ha.imp_left fun hd => ?_) hf trivial) hj
    exact hd.imp_right fun hw => ((mem_writers hdom hroot a).mp hw).2
  · refine IteratedFrontier.least (fun a b ha hf _ => IteratedFrontier.closed (ha.imp_left fun hd => ?_) hf trivial) hj
    exact hd.imp_right fun hw => (mem_writers hdom hroot a).mpr ⟨hf.reaches, hw⟩

open Classical in
structure ParamsCorrect (f : BlockView ρ ω rootWidth) (seed : Nat → List (SeedCall ρ)) (l : RootLiveness)
    (placement : ParamPlacement ρ) : Prop where
  live : ∀ b ∈ f.view.nodeIds, ∀ root ∈ f.rootTable,
    (indexOfNamed f.rootTable root ∈ l.liveIn b ↔ LiveAtStart f seed root b)
  ascending : ∀ b, (placement.rootsAt b).Pairwise (· < ·)
  single : ∀ b, ReflTransGen f.view.Edge f.view.root b → ∀ root ∈ f.rootTable,
    indexOfNamed f.rootTable root ∈ l.liveIn b → root ∉ placement.rootsAt b →
    SingleDefinition (f.WritesRoot root) (fun v => root ∈ placement.rootsAt v) f.view.Edge f.view.root b
  meet : ∀ b, ∀ root ∈ placement.rootsAt b, indexOfNamed f.rootTable root ∈ l.liveIn b ∧
    DefinitionsMeet (f.WritesRoot root) (fun v => root ∈ placement.rootsAt v) f.view.Edge f.view.root b

end Function

def sampleBlocks : BlockView Nat Unit fun _ => 8 where
  view := ⟨DominatorTree.sampleView, 0⟩
  instructions block := [block]
  record _ :=
    { statements := [.read 0 (.direct ⟨0, .whole 8⟩)]
      control := .advance
      width := fun _ => 8
      fresh := by decide
      typed := fun statement h => by
        rw [mem_singleton.mp h]
        exact ⟨Nat.le_refl _, rfl⟩ }
  lawful := DominatorTree.lawful_sampleView
  root_mem := by decide

end CfgLib.Rtl
