import CfgLib.Graph.Traverse
import CfgLib.Lib.Intervals
import Mathlib.Data.Finset.Sort

/-!
# First-level interval analysis

`graph/interval.rs`: the partition of the nodes that the root reaches into maximal
single-entry intervals.  A node joins the interval that is being grown once the last of
its reachable predecessors has; the counts of those still outside are restored when the
interval is complete.
-/

namespace CfgLib

open CfgLib.Lib Relation List Function

structure Interval where
  header : Nat
  blocks : Finset Nat
  deriving DecidableEq

/-- The interval that is being grown: per node the predecessors still outside, which nodes have
an interval, the nodes of this one, and those whose edges are still to be followed, the next one
first. -/
structure Growing where
  remaining : Nat → Nat
  assigned : Nat → Bool
  blocks : Finset Nat
  worklist : List Nat

namespace Growing

def follow (s : Growing) (successor : Nat) : Growing :=
  if s.assigned successor ∨ s.remaining successor = 0 then s
  else
    let remaining := update s.remaining successor (s.remaining successor - 1)
    if remaining successor = 0 then
      ⟨remaining, update s.assigned successor true, insert successor s.blocks,
        successor :: s.worklist⟩
    else { s with remaining }

def step (g : GraphView) (s : Growing) : Option Growing :=
  match s.worklist with
  | [] => none
  | block :: worklist => some ((g.successors block).foldl follow { s with worklist })

end Growing

/-- The intervals so far, and the nodes that may head the next ones, the next one first. -/
structure Partitioning where
  remaining : Nat → Nat
  assigned : Nat → Bool
  headers : List Nat
  intervals : List Interval

namespace Partitioning

/-- Count one edge out of the completed interval as outside again. -/
def restore (assigned : Nat → Bool) (remaining : Nat → Nat) (successor : Nat) : Nat → Nat :=
  if assigned successor then remaining
  else update remaining successor (remaining successor + 1)

def pushHeader (assigned : Nat → Bool) (headers : List Nat) (successor : Nat) : List Nat :=
  if assigned successor then headers else successor :: headers

/-- Restore the counts that the edges out of one node of the interval lowered, and push the
nodes they lead to as headers. -/
def leave (g : GraphView) (assigned : Nat → Bool) (s : (Nat → Nat) × List Nat) (b : Nat) :
    (Nat → Nat) × List Nat :=
  ((g.successors b).foldl (restore assigned) s.1,
    ((g.successors b).insertionSort (· ≤ ·)).dedup.foldl (pushHeader assigned) s.2)

/-- Grow the interval of the next header, unless some interval has it. -/
def step (g : GraphView) (s : Partitioning) : Option Partitioning :=
  match s.headers with
  | [] => none
  | h :: headers =>
    if s.assigned h then some { s with headers }
    else
      let grown := iterate (Growing.step g) g.nodeBound
        ⟨s.remaining, update s.assigned h true, {h}, [h]⟩
      let left := (grown.blocks.sort (· ≤ ·)).foldl (leave g grown.assigned) (grown.remaining, headers)
      some ⟨left.1, grown.assigned, left.2, s.intervals ++ [⟨h, grown.blocks⟩]⟩

end Partitioning

/-- The first-level intervals of a graph; `none` is the panic on a root beyond the bound. -/
def computeIntervals (fuel : Nat) (v : RootedView) : Option (List Interval) :=
  if v.nodeBound = 0 then some []
  else do
    let live ← reachable v.toGraphView [v.root] .outgoing
    let remaining := fun n => if n ∈ v.nodeIds then (v.predecessors n).countP live else 0
    some (iterate (Partitioning.step v.toGraphView) fuel ⟨remaining, fun _ => false, [v.root], []⟩).intervals

/-! ## Growing one interval -/

section grow

variable {g : GraphView} {live old : Nat → Bool} {h : Nat} {done rest order : List Nat} {s s' : Growing}

def livePredecessors (g : GraphView) (live : Nat → Bool) (x : Nat) : List Nat :=
  (g.predecessors x).filter live

/-- What holds of the nodes that the root reaches. -/
structure LiveNodes (g : GraphView) (live : Nat → Bool) : Prop where
  mem_nodeIds : ∀ n, live n = true → n ∈ g.nodeIds
  successors : ∀ n, live n = true → ∀ m ∈ g.successors n, live m = true

/-- What growing an interval keeps: `done` are the nodes whose edges were followed, `rest` the edges of
the last of them that were not yet, and `order` lists the nodes of the interval as they were
admitted. -/
structure GrowsInterval (g : GraphView) (live old : Nat → Bool) (h : Nat) (done rest order : List Nat) (s : Growing) :
    Prop where
  assigned_iff : ∀ n, s.assigned n = true ↔ old n = true ∨ n ∈ order
  mem_blocks : ∀ n, n ∈ s.blocks ↔ n ∈ order
  fresh : ∀ n ∈ order, old n = false
  nodup : order.Nodup
  mem_order : ∀ n, n ∈ order ↔ n ∈ done ∨ n ∈ s.worklist
  pending : (s.worklist ++ done).Nodup
  reached : ∀ n ∈ order, live n = true
  head : ∃ tail, order = h :: tail
  counts : ∀ x, live x = true → s.assigned x = false →
    s.remaining x + total (fun b => (livePredecessors g live x).count b) done =
      (livePredecessors g live x).length + rest.count x
  positive : ∀ x, live x = true → s.assigned x = false → 0 < s.remaining x
  closed : ∀ before x after, order = before ++ x :: after → before ≠ [] →
    ∀ p ∈ livePredecessors g live x, p ∈ before

theorem concat_split {l before after : List Nat} {x y : Nat} (h : l ++ [y] = before ++ x :: after) :
    (x = y ∧ before = l) ∨ ∃ after', l = before ++ x :: after' := by
  rcases eq_nil_or_concat after with hnil | ⟨after', z, hconcat⟩
  · subst hnil
    obtain ⟨h₁, h₂⟩ := append_inj' h rfl
    cases h₂
    exact Or.inl ⟨rfl, h₁.symm⟩
  · subst hconcat
    rw [concat_eq_append, ← cons_append, ← append_assoc] at h
    exact Or.inr ⟨after', (append_inj' h rfl).1⟩

theorem GrowsInterval.follow (h' : GrowsInterval g live old h done (y :: rest) order s) (hy : live y = true) :
    ∃ order', GrowsInterval g live old h done rest order' (s.follow y) := by
  unfold Growing.follow
  have hdone : done.Nodup := (nodup_append.mp h'.pending).2.1
  by_cases ha : s.assigned y = true
  · rw [if_pos (Or.inl ha)]
    refine ⟨order, ⟨h'.assigned_iff, h'.mem_blocks, h'.fresh, h'.nodup, h'.mem_order, h'.pending, h'.reached,
      h'.head, fun x hx hax => ?_, h'.positive, h'.closed⟩⟩
    have hne : y ≠ x := fun heq => by rw [heq, hax] at ha; cases ha
    have hcount := h'.counts x hx hax
    rwa [count_cons_of_ne hne] at hcount
  · have ha' : s.assigned y = false := by simpa using ha
    have hpos := h'.positive y hy ha'
    have hcount := h'.counts y hy ha'
    rw [count_cons_self] at hcount
    rw [if_neg (by simp [ha']; omega)]
    simp only [update_self]
    have hother : ∀ x, x ≠ y → live x = true → s.assigned x = false →
        update s.remaining y (s.remaining y - 1) x +
          total (fun b => (livePredecessors g live x).count b) done =
            (livePredecessors g live x).length + rest.count x := by
      intro x hne hx hax
      have hcount := h'.counts x hx hax
      rwa [count_cons_of_ne (Ne.symm hne), ← update_of_ne hne (s.remaining y - 1) s.remaining] at hcount
    by_cases hzero : s.remaining y - 1 = 0
    · -- the last edge into `y`: all its reachable predecessors are inside
      have hall : ∀ p ∈ livePredecessors g live y, p ∈ done := by
        refine (total_count_eq_iff hdone).mp ?_
        have := total_count_le hdone (livePredecessors g live y)
        omega
      have hfresh : y ∉ order := fun hmem => by
        rw [(h'.assigned_iff y).mpr (Or.inr hmem)] at ha'
        cases ha'
      have hold : old y = false := by
        by_contra hc
        rw [(h'.assigned_iff y).mpr (Or.inl (by simpa using hc))] at ha'
        cases ha'
      have hleft : ∀ x, update s.assigned y true x = false → x ≠ y ∧ s.assigned x = false := by
        intro x hax
        have hne : x ≠ y := by
          intro heq
          rw [heq, update_self] at hax
          cases hax
        rw [update_of_ne hne] at hax
        exact ⟨hne, hax⟩
      have hin : ∀ n ∈ done, n ∈ order := fun n hn => (h'.mem_order n).mpr (Or.inl hn)
      rw [if_pos hzero]
      refine ⟨order ++ [y], ⟨fun n => ?_, fun n => ?_, fun n hn => ?_, ?_, fun n => ?_, ?_, fun n hn => ?_, ?_,
        fun x hx hax => ?_, fun x hx hax => ?_, ?_⟩⟩
      · simp only [mem_append, mem_singleton]
        by_cases hn : n = y
        · simp [hn]
        · simp [hn, h'.assigned_iff]
      · simp only [Finset.mem_insert, h'.mem_blocks, mem_append, mem_singleton]
        exact or_comm
      · rcases mem_append.mp hn with hn | hn
        · exact h'.fresh n hn
        · rw [mem_singleton.mp hn]
          exact hold
      · exact nodup_append.mpr ⟨h'.nodup, nodup_singleton y, fun a hmem b hb heq => by
          rw [heq, mem_singleton.mp hb] at hmem
          exact hfresh hmem⟩
      · simp only [mem_append, h'.mem_order, mem_cons]
        tauto
      · refine nodup_cons.mpr ⟨fun hmem => hfresh ((h'.mem_order y).mpr ?_), h'.pending⟩
        exact (mem_append.mp hmem).symm
      · rcases mem_append.mp hn with hn | hn
        · exact h'.reached n hn
        · rw [mem_singleton.mp hn]
          exact hy
      · obtain ⟨tail, htail⟩ := h'.head
        exact ⟨tail ++ [y], by rw [htail]; rfl⟩
      · exact hother x (hleft x hax).1 hx (hleft x hax).2
      · change 0 < update s.remaining y _ x
        rw [update_of_ne (hleft x hax).1]
        exact h'.positive x hx (hleft x hax).2
      · intro before x after hsplit hne p hp
        obtain ⟨hx, hb⟩ | ⟨after', hx⟩ := concat_split hsplit
        · rw [hb]
          exact hin p (hall p (hx ▸ hp))
        · exact h'.closed before x after' hx hne p hp
    · rw [if_neg hzero]
      refine ⟨order, ⟨h'.assigned_iff, h'.mem_blocks, h'.fresh, h'.nodup, h'.mem_order, h'.pending, h'.reached,
        h'.head, fun x hx hax => ?_, fun x hx hax => ?_, h'.closed⟩⟩
      · by_cases hne : x = y
        · subst hne
          simp only [update_self]
          omega
        · exact hother x hne hx hax
      · by_cases hne : x = y
        · subst hne
          simp only [update_self]
          omega
        · simp only [update_of_ne hne]
          exact h'.positive x hx hax

theorem GrowsInterval.follow_all (hlive : LiveNodes g live) : ∀ {rest : List Nat} {order : List Nat} {s : Growing},
    GrowsInterval g live old h done rest order s → (∀ y ∈ rest, live y = true) →
      ∃ order', GrowsInterval g live old h done [] order' (rest.foldl Growing.follow s)
  | [], order, s, h', _ => ⟨order, h'⟩
  | y :: rest, order, s, h', hrest => by
    obtain ⟨order', h''⟩ := h'.follow (hrest y mem_cons_self)
    exact h''.follow_all hlive fun z hz => hrest z (mem_cons_of_mem y hz)

/-- How many nodes have no interval, and how many wait. -/
def Growing.size (g : GraphView) (s : Growing) : Nat :=
  total (fun n => if s.assigned n then 0 else 1) (List.range g.nodeBound) + s.worklist.length

theorem Growing.size_follow {y : Nat} (hy : y < g.nodeBound) (s : Growing) : (s.follow y).size g ≤ s.size g := by
  unfold Growing.follow
  split
  · exact Nat.le_refl _
  · next hkeep =>
    have hy' : s.assigned y = false := by
      by_contra hc
      exact hkeep (Or.inl (by simpa using hc))
    simp only
    split
    · have hdrop : total (fun n => if update s.assigned y true n then 0 else 1) (List.range g.nodeBound) + 1 ≤
          total (fun n => if s.assigned n then 0 else 1) (List.range g.nodeBound) := by
        refine total_drop (fun n _ => ?_) (mem_range.mpr hy) ?_
        · by_cases hn : n = y
          · simp [hn]
          · simp [hn]
        · simp [hy']
      simp only [Growing.size, length_cons]
      omega
    · exact Nat.le_refl _

theorem Growing.size_follow_all {rest : List Nat} (hrest : ∀ y ∈ rest, y < g.nodeBound) (s : Growing) :
    (rest.foldl Growing.follow s).size g ≤ s.size g := by
  induction rest generalizing s with
  | nil => exact Nat.le_refl _
  | cons y rest ih =>
    exact (ih (fun z hz => hrest z (mem_cons_of_mem y hz)) _).trans
      (Growing.size_follow (hrest y mem_cons_self) s)

theorem count_livePredecessors (hg : g.Lawful) (hlive : LiveNodes g live) {b x : Nat} (hb : live b = true)
    (hx : live x = true) : (livePredecessors g live x).count b = (g.successors b).count x := by
  rw [livePredecessors, count_filter hb]
  exact (hg.transpose b x (hg.nodeIds_lt b (hlive.mem_nodeIds b hb)) (hg.nodeIds_lt x (hlive.mem_nodeIds x hx))).symm

theorem GrowsInterval.step (hg : g.Lawful) (hlive : LiveNodes g live) (h' : GrowsInterval g live old h done [] order s)
    (hstep : Growing.step g s = some s') :
    (∃ done' order', GrowsInterval g live old h done' [] order' s') ∧ s'.size g < s.size g := by
  unfold Growing.step at hstep
  split at hstep
  · cases hstep
  next b worklist hwork =>
  cases hstep
  have hb : b ∈ order := (h'.mem_order b).mpr (Or.inr (by rw [hwork]; exact mem_cons_self))
  have hblive := h'.reached b hb
  have hstart : GrowsInterval g live old h (b :: done) (g.successors b) order { s with worklist } := by
    refine ⟨h'.assigned_iff, h'.mem_blocks, h'.fresh, h'.nodup, fun n => ?_, ?_, h'.reached, h'.head,
      fun x hx hax => ?_, h'.positive, h'.closed⟩
    · rw [h'.mem_order, hwork]
      simp only [mem_cons]
      tauto
    · have hpending := h'.pending
      rw [hwork] at hpending
      exact (perm_middle.nodup_iff).mpr hpending
    · have hcount := h'.counts x hx hax
      rw [count_nil] at hcount
      rw [total_cons, count_livePredecessors hg hlive hblive hx]
      change s.remaining x + _ = _
      omega
  have hsucc := hlive.successors b hblive
  refine ⟨⟨b :: done, hstart.follow_all hlive hsucc⟩, ?_⟩
  refine Nat.lt_of_le_of_lt (Growing.size_follow_all (fun y hy => ?_) _) ?_
  · exact hg.nodeIds_lt y (hlive.mem_nodeIds y (hsucc y hy))
  · simp only [Growing.size, hwork, length_cons]
    omega

structure GrownInterval (g : GraphView) (live old : Nat → Bool) (h : Nat) (order : List Nat) (s : Growing) : Prop where
  assigned_iff : ∀ n, s.assigned n = true ↔ old n = true ∨ n ∈ order
  mem_blocks : ∀ n, n ∈ s.blocks ↔ n ∈ order
  fresh : ∀ n ∈ order, old n = false
  nodup : order.Nodup
  reached : ∀ n ∈ order, live n = true
  head : ∃ tail, order = h :: tail
  counts : ∀ x, live x = true → s.assigned x = false →
    s.remaining x + total (fun b => (g.successors b).count x) (s.blocks.sort (· ≤ ·)) =
      (livePredecessors g live x).length
  outside : ∀ x, live x = true → s.assigned x = false → ∃ p ∈ livePredecessors g live x, p ∉ order
  closed : ∀ before x after, order = before ++ x :: after → before ≠ [] →
    ∀ p ∈ livePredecessors g live x, p ∈ before

theorem total_congr {f f' : Nat → Nat} {l : List Nat} (heq : ∀ a ∈ l, f a = f' a) : total f l = total f' l :=
  Nat.le_antisymm (total_le fun a ha => (heq a ha).le) (total_le fun a ha => (heq a ha).ge)

/-- Growing an interval from counts that are complete ends with one that nothing can join. -/
theorem grown_spec (hg : g.Lawful) (hlive : LiveNodes g live) {remaining : Nat → Nat} (hh : live h = true)
    (hold : old h = false)
    (hcounts : ∀ x, live x = true → old x = false → remaining x = (livePredecessors g live x).length)
    (hpositive : ∀ x, live x = true → old x = false → x ≠ h → 0 < remaining x) :
    ∃ order, GrownInterval g live old h order (iterate (Growing.step g) g.nodeBound
      ⟨remaining, update old h true, {h}, [h]⟩) := by
  have hleft : ∀ x, update old h true x = false → x ≠ h ∧ old x = false := by
    intro x hx
    have hne : x ≠ h := by
      intro heq
      rw [heq, update_self] at hx
      cases hx
    rw [update_of_ne hne] at hx
    exact ⟨hne, hx⟩
  have hstart : GrowsInterval g live old h [] [] [h] ⟨remaining, update old h true, {h}, [h]⟩ := by
    refine ⟨fun n => ?_, fun n => by simp, fun n hn => ?_, nodup_singleton h, fun n => by simp,
      nodup_singleton h, fun n hn => ?_, ⟨[], rfl⟩, fun x hx hax => ?_, fun x hx hax => ?_, ?_⟩
    · by_cases hn : n = h
      · simp [hn]
      · simp [hn]
    · rw [mem_singleton.mp hn]
      exact hold
    · rw [mem_singleton.mp hn]
      exact hh
    · exact hcounts x hx (hleft x hax).2
    · exact hpositive x hx (hleft x hax).2 (hleft x hax).1
    · intro before x after hsplit hne
      cases before with
      | nil => exact absurd rfl hne
      | cons a before =>
        have hlen := congrArg List.length hsplit
        simp at hlen
  have hhlt : h < g.nodeBound := hg.nodeIds_lt h (hlive.mem_nodeIds h hh)
  have hsize : Growing.size g ⟨remaining, update old h true, {h}, [h]⟩ ≤ g.nodeBound := by
    have hdrop : total (fun n => if update old h true n then 0 else 1) (List.range g.nodeBound) + 1 ≤
        total (fun _ => 1) (List.range g.nodeBound) := by
      refine total_drop (fun n _ => ?_) (mem_range.mpr hhlt) ?_
      · split <;> omega
      · simp
    rw [total_one, length_range] at hdrop
    exact hdrop
  obtain ⟨⟨done, order, hgrows⟩, hexit⟩ := iterate_spec (I := fun s => ∃ done order, GrowsInterval g live old h done [] order s)
    (fun s s' ⟨done, order, h'⟩ hstep => h'.step hg hlive hstep) ⟨[], [h], hstart⟩ hsize
  generalize iterate (Growing.step g) g.nodeBound ⟨remaining, update old h true, {h}, [h]⟩ = s
    at hgrows hexit ⊢
  have hempty : s.worklist = [] := by
    unfold Growing.step at hexit
    split at hexit
    · assumption
    · cases hexit
  have hdone : done.Nodup := (nodup_append.mp hgrows.pending).2.1
  have hmem : ∀ n, n ∈ order ↔ n ∈ done := by
    intro n
    rw [hgrows.mem_order, hempty]
    simp
  refine ⟨order, hgrows.assigned_iff, hgrows.mem_blocks, hgrows.fresh, hgrows.nodup, hgrows.reached, hgrows.head,
    fun x hx hax => ?_, fun x hx hax => ?_, hgrows.closed⟩
  · have hcount := hgrows.counts x hx hax
    have hsort : total (fun b => (g.successors b).count x) (s.blocks.sort (· ≤ ·)) =
        total (fun b => (livePredecessors g live x).count b) done := by
      rw [total_count hdone]
      have hsame : total (fun b => (g.successors b).count x) (s.blocks.sort (· ≤ ·)) =
          total (fun b => (livePredecessors g live x).count b) (s.blocks.sort (· ≤ ·)) := by
        refine total_congr fun b hb => ?_
        rw [Finset.mem_sort, hgrows.mem_blocks] at hb
        exact (count_livePredecessors hg hlive (hgrows.reached b hb) hx).symm
      rw [hsame, total_count (Finset.sort_nodup _ _)]
      refine countP_congr fun p _ => ?_
      simp only [Finset.mem_sort, hgrows.mem_blocks, hmem]
    rw [hsort]
    rwa [count_nil] at hcount
  · have hcount := hgrows.counts x hx hax
    have hpos := hgrows.positive x hx hax
    by_contra hall
    push Not at hall
    have heq := (total_count_eq_iff hdone).mpr fun p hp => (hmem p).mp (hall p hp)
    rw [count_nil] at hcount
    omega

end grow

/-! ## Completing one interval -/

theorem restore_all (assigned : Nat → Bool) (remaining : Nat → Nat) (l : List Nat) {x : Nat}
    (hx : assigned x = false) :
    l.foldl (Partitioning.restore assigned) remaining x = remaining x + l.count x := by
  induction l generalizing remaining with
  | nil => rfl
  | cons y l ih =>
    rw [foldl_cons, ih, Partitioning.restore]
    by_cases hxy : y = x
    · subst hxy
      rw [if_neg (by simp [hx]), update_self, count_cons_self]
      omega
    · rw [count_cons_of_ne hxy]
      split
      · rfl
      · rw [update_of_ne (Ne.symm hxy)]

theorem mem_pushHeaders (assigned : Nat → Bool) (headers l : List Nat) (n : Nat) :
    n ∈ l.foldl (Partitioning.pushHeader assigned) headers ↔ n ∈ headers ∨ assigned n = false ∧ n ∈ l := by
  induction l generalizing headers with
  | nil => simp
  | cons y l ih =>
    rw [foldl_cons, ih, Partitioning.pushHeader]
    by_cases hy : assigned y = true
    · rw [if_pos hy, mem_cons]
      constructor
      · rintro (hn | hn)
        · exact Or.inl hn
        · exact Or.inr ⟨hn.1, Or.inr hn.2⟩
      · rintro (hn | ⟨hn, rfl | hmem⟩)
        · exact Or.inl hn
        · rw [hy] at hn
          cases hn
        · exact Or.inr ⟨hn, hmem⟩
    · rw [if_neg hy, mem_cons, mem_cons]
      have hy' : assigned y = false := by simpa using hy
      constructor
      · rintro ((rfl | hn) | hn)
        · exact Or.inr ⟨hy', Or.inl rfl⟩
        · exact Or.inl hn
        · exact Or.inr ⟨hn.1, Or.inr hn.2⟩
      · rintro (hn | ⟨hn, rfl | hmem⟩)
        · exact Or.inl (Or.inr hn)
        · exact Or.inl (Or.inl rfl)
        · exact Or.inr ⟨hn, hmem⟩

theorem leave_all (g : GraphView) (assigned : Nat → Bool) (bs : List Nat) (s : (Nat → Nat) × List Nat) :
    (∀ x, assigned x = false → (bs.foldl (Partitioning.leave g assigned) s).1 x =
      s.1 x + total (fun b => (g.successors b).count x) bs) ∧
    ∀ n, n ∈ (bs.foldl (Partitioning.leave g assigned) s).2 ↔
      n ∈ s.2 ∨ assigned n = false ∧ ∃ b ∈ bs, n ∈ g.successors b := by
  induction bs generalizing s with
  | nil => exact ⟨fun x _ => rfl, fun n => by simp⟩
  | cons b bs ih =>
    obtain ⟨hcounts, hheaders⟩ := ih (Partitioning.leave g assigned s b)
    constructor
    · intro x hx
      have hleft : (Partitioning.leave g assigned s b).1 x = s.1 x + (g.successors b).count x :=
        restore_all assigned s.1 _ hx
      rw [foldl_cons, hcounts x hx, hleft, total_cons]
      omega
    · intro n
      rw [foldl_cons, hheaders, Partitioning.leave, mem_pushHeaders, mem_dedup, mem_insertionSort]
      simp only [mem_cons, exists_eq_or_imp]
      tauto

end CfgLib
