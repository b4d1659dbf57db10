import CfgLib.Graph.Dominator.Completion
import CfgLib.Graph.Dominator.Frontier
import CfgLib.Lib.CountingSort

/-!
# Dominance frontiers as one run table

`dataflow/ssa/frontier.rs`: a runner climbs from each predecessor of a join to the
join's immediate dominator, and the pairs it meets are grouped by runner.
`dataflow/ssa/place.rs` reads the table to place the phis of a variable.
-/

namespace CfgLib

open CfgLib.Lib CfgLib.Lib.CountingSort Relation Dominator List

/-! ## The table -/

/-- Every block's dominance frontier in one flat run table. -/
structure FrontierRuns where
  /-- The runners with the frontier blocks they met, in the order they met them. -/
  pairs : List (Nat × Nat)
  /-- Where each block's run starts. -/
  starts : List Nat
  /-- The frontier members, grouped by runner. -/
  blocks : List Nat

namespace FrontierRuns

def default : FrontierRuns := ⟨[], [], []⟩

/-- Per runner the block whose walk reached it last, and the pairs so far. -/
structure Runners where
  reached : Nat → Option Nat
  pairs : List (Nat × Nat)

/-- Climb from `runner` to before `stop`, or to where an earlier walk of `block` went on. -/
def climb (t : DominatorTree) (stop : Option Nat) (block : Nat) : Nat → Nat → Runners → Runners
  | 0, _, s => s
  | fuel + 1, runner, s =>
    if some runner ≠ stop ∧ s.reached runner ≠ some block then
      let s := ⟨Function.update s.reached runner (some block), s.pairs ++ [(runner, block)]⟩
      match t.idom runner with
      | none => s
      | some parent => climb t stop block fuel parent s
    else s

def walkJoin (t : DominatorTree) (g : GraphView) (s : Runners) (block : Nat) : Runners :=
  if !t.isReachable block then s
  else
    let stop := t.idom block
    -- a root has one path that is not an edge, so one edge already makes it a join
    let joinsAt := if stop.isNone then 1 else 2
    if (g.predecessors block)[joinsAt - 1]?.isNone then s
    else
      ((g.predecessors block).filter t.isReachable).foldl
        (fun s predecessor => climb t stop block (g.nodeBound + 1) predecessor s) s

/-- Whether no entry is followed by a smaller one. -/
def isAscending (blocks : List Nat) : Bool :=
  (blocks.foldl (fun (s : Bool × Option Nat) block =>
    (s.1 && s.2.all (· ≤ block), some block)) (true, none)).1

def sortRuns (starts blocks : List Nat) : List Nat :=
  (List.range (starts.length - 1)).foldl (fun blocks k =>
    overwrite blocks (starts.getD k 0)
      ((slice blocks (starts.getD k 0) (starts.getD (k + 1) 0)).insertionSort (· ≤ ·))) blocks

def group (bound : Nat) (pairs : List (Nat × Nat)) : FrontierRuns :=
  let placing := pairs.foldl Placing.place
    ⟨(offsets bound (pairs.map Prod.fst)).take bound, List.replicate pairs.length 0⟩
  -- each cursor has come to the end of its run, which is where the next one begins
  let starts := 0 :: placing.next
  let blocks := if isAscending (pairs.map Prod.snd) then placing.placed
    else sortRuns starts placing.placed
  ⟨pairs, starts, blocks⟩

/-- Recompute the table; every buffer is cleared first. -/
def rebuild (_ : FrontierRuns) (g : GraphView) (t : DominatorTree) : FrontierRuns :=
  group g.nodeBound (g.nodeIds.foldl (walkJoin t g) ⟨fun _ => none, []⟩).pairs

/-- The dominance frontier of `block`, in ascending order. -/
def frontier (runs : FrontierRuns) (block : Nat) : List Nat :=
  slice runs.blocks (runs.starts.getD block 0) (runs.starts.getD (block + 1) 0)

/-! ## The walks -/

section Walks

variable {g : GraphView} {root : Nat} {t : DominatorTree} {b : Nat} {stop : Option Nat}

/-- `x` dominates `p` without dominating the node where climbs stop. -/
def Below (g : GraphView) (root : Nat) (stop : Option Nat) (x p : Nat) : Prop :=
  Dominates g.Edge root x p ∧ ∀ d, stop = some d → ¬ Dominates g.Edge root x d

/-- The pairs of block `b` under way: marks match pairs, and pairs go on upward. -/
structure Climbing (t : DominatorTree) (b : Nat) (stop : Option Nat) (hole : Option Nat) (s : Runners) :
    Prop where
  reached_iff : ∀ x, s.reached x = some b ↔ (x, b) ∈ s.pairs
  upward : ∀ x y, (x, b) ∈ s.pairs → t.idom x = some y → some y ≠ stop → (y, b) ∈ s.pairs ∨ some y = hole
  nodup : s.pairs.Nodup

variable (hfacts : DominatorTree.TreeFacts g root t) (hdom : DominatorTree.IsDominance g root t)
include hfacts hdom

theorem idom_cases {v : Nat} (hv : ReflTransGen g.Edge root v) :
    (t.idom v = none ∧ v = root) ∨ ∃ d, t.idom v = some d ∧ IsIdom g.Edge root d v ∧
      ReflTransGen g.Edge root d ∧ t.levelAt d < t.levelAt v := by
  by_cases hne : v = root
  · exact Or.inl ⟨(hdom.idom_none v).mpr (Or.inl hne), hne⟩
  · obtain ⟨d, hd, hidom, _⟩ := hdom.idom_unique v ((hdom.isReachable_iff v).mpr hv) hne
    exact Or.inr ⟨d, hd, hidom, hidom.strict.2.reaches hv, hfacts.level_lt d v hv hidom.strict⟩

theorem Climbing.marked {s : Runners} (h : Climbing t b stop none s) {x : Nat} :
    ∀ (n : Nat) {y : Nat}, t.levelAt y = n → ReflTransGen g.Edge root y → (y, b) ∈ s.pairs →
      Below g root stop x y → (x, b) ∈ s.pairs := by
  intro n
  induction n using Nat.strongRecOn with
  | ind n ih =>
    intro y hn hy hmem ⟨hxy, hstop⟩
    rcases idom_cases hfacts hdom hy with ⟨_, hroot⟩ | ⟨d, hd, hidom, hdreach, hlt⟩
    · subst hroot
      have hx : x = y := hxy.antisymm (Dominates.root _ _ _) (hxy.reaches hy)
      rwa [hx]
    · rcases (hidom.dominates_iff (c := x)).mp hxy with rfl | hxd
      · exact hmem
      · have hne : some d ≠ stop := fun he => hstop d he.symm hxd
        have hup := (h.upward y d hmem hd hne).resolve_right fun he => by cases he
        exact ih (t.levelAt d) (hn ▸ hlt) rfl hdreach hup ⟨hxd, hstop⟩

theorem climb_spec (fuel : Nat) : ∀ {runner : Nat} {s : Runners}, t.levelAt runner < fuel →
    ReflTransGen g.Edge root runner → (∀ d, stop = some d → Dominates g.Edge root d runner) →
    Climbing t b stop (some runner) s → Climbing t b stop none (climb t stop b fuel runner s) ∧
      (∀ x c, (x, c) ∈ (climb t stop b fuel runner s).pairs ↔
        (x, c) ∈ s.pairs ∨ (c = b ∧ Below g root stop x runner)) ∧
      ∀ x c, c ≠ b → ((climb t stop b fuel runner s).reached x = some c → s.reached x = some c) := by
  induction fuel with
  | zero => exact fun h => absurd h (Nat.not_lt_zero _)
  | succ fuel ih =>
    intro runner s hfuel hreach hstop h
    by_cases hgo : some runner ≠ stop ∧ s.reached runner ≠ some b
    · obtain ⟨hne, hnew⟩ := hgo
      have hnewPair : (runner, b) ∉ s.pairs := fun hm => hnew ((h.reached_iff runner).mpr hm)
      let s₁ : Runners := ⟨Function.update s.reached runner (some b), s.pairs ++ [(runner, b)]⟩
      have hmem : ∀ x c, (x, c) ∈ s₁.pairs ↔ (x, c) ∈ s.pairs ∨ (x = runner ∧ c = b) := fun x c => by
        rw [mem_append, mem_singleton, Prod.mk.injEq]
      have hreached : ∀ x c, c ≠ b → s₁.reached x = some c → s.reached x = some c := by
        intro x c hc hx
        by_cases he : x = runner
        · subst he
          have hself : s₁.reached x = some b := Function.update_self x _ _
          rw [hself] at hx
          exact absurd (Option.some.inj hx).symm hc
        · rwa [show s₁.reached x = s.reached x from Function.update_of_ne he _ _] at hx
      have hreached_iff : ∀ x, s₁.reached x = some b ↔ (x, b) ∈ s₁.pairs := by
        intro x
        rw [hmem]
        by_cases he : x = runner
        · subst he
          rw [show s₁.reached x = some b from Function.update_self x _ _]
          simp
        · rw [show s₁.reached x = s.reached x from Function.update_of_ne he _ _, h.reached_iff]
          simp [he]
      have hnodup : s₁.pairs.Nodup := nodup_append.mpr ⟨h.nodup, nodup_singleton _,
        fun a ha c hc heq => hnewPair (by rw [heq, mem_singleton.mp hc] at ha; exact ha)⟩
      -- the runner itself lies below the stop, which dominates it strictly
      have hbelow : ∀ d, stop = some d → ¬ Dominates g.Edge root runner d := by
        intro d hd hrd
        have heq := (hstop d hd).antisymm hrd ((hstop d hd).reaches hreach)
        exact hne (by rw [hd, heq])
      rcases idom_cases hfacts hdom hreach with ⟨hd, hroot⟩ | ⟨d, hd, hidom, hdreach, hlt⟩
      · have hclimb : climb t stop b (fuel + 1) runner s = s₁ := by
          rw [climb, if_pos ⟨hne, hnew⟩, hd]
        rw [hclimb]
        refine ⟨⟨hreached_iff, fun x y hx hy hyne => ?_, hnodup⟩, fun x c => ?_, hreached⟩
        · rcases (hmem x b).mp hx with hx | ⟨rfl, _⟩
          · refine Or.inl ((hmem y b).mpr ?_)
            exact (h.upward x y hx hy hyne).imp id fun he => ⟨Option.some.inj he, rfl⟩
          · rw [hd] at hy
            cases hy
        · rw [hmem]
          refine or_congr_right ⟨?_, ?_⟩
          · rintro ⟨rfl, rfl⟩
            exact ⟨rfl, Dominates.refl _ _ _, hbelow⟩
          · rintro ⟨rfl, hx, _⟩
            subst hroot
            exact ⟨hx.antisymm (Dominates.root _ _ _) (hx.reaches hreach), rfl⟩
      · have hclimb : climb t stop b (fuel + 1) runner s = climb t stop b fuel d s₁ := by
          rw [climb, if_pos ⟨hne, hnew⟩, hd]
        rw [hclimb]
        have hstop' : ∀ e, stop = some e → Dominates g.Edge root e d := by
          intro e he
          refine hidom.least e ⟨?_, hstop e he⟩
          rintro rfl
          exact hne he.symm
        obtain ⟨h₁, h₂, h₃⟩ := ih (by omega) hdreach hstop' (s := s₁)
          ⟨hreached_iff, fun x y hx hy hyne => by
            rcases (hmem x b).mp hx with hx | ⟨rfl, _⟩
            · refine Or.inl ((hmem y b).mpr ?_)
              exact (h.upward x y hx hy hyne).imp id fun he => ⟨Option.some.inj he, rfl⟩
            · rw [hd] at hy
              exact Or.inr hy.symm, hnodup⟩
        refine ⟨h₁, fun x c => ?_, fun x c hc hx => hreached x c hc (h₃ x c hc hx)⟩
        rw [h₂, hmem, or_assoc]
        refine or_congr_right ⟨?_, ?_⟩
        · rintro (⟨rfl, rfl⟩ | ⟨rfl, hx, hxs⟩)
          · exact ⟨rfl, Dominates.refl _ _ _, hbelow⟩
          · exact ⟨rfl, hx.trans hidom.strict.2, hxs⟩
        · rintro ⟨rfl, hx, hxs⟩
          rcases hidom.dominates_iff.mp hx with rfl | hx
          · exact Or.inl ⟨rfl, rfl⟩
          · exact Or.inr ⟨rfl, hx, hxs⟩
    · rw [climb, if_neg hgo]
      have hclosed : Climbing t b stop none s := by
        refine ⟨h.reached_iff, fun x y hx hy hyne => ?_, h.nodup⟩
        rcases h.upward x y hx hy hyne with hup | he
        · exact Or.inl hup
        · cases he
          rw [not_and, not_not] at hgo
          exact Or.inl ((h.reached_iff _).mp (hgo hyne))
      refine ⟨hclosed, fun x c => ⟨Or.inl, ?_⟩, fun _ _ _ hx => hx⟩
      rintro (hx | ⟨rfl, hx⟩)
      · exact hx
      · by_cases hs : some runner = stop
        · exact absurd hx.1 (hx.2 runner hs.symm)
        · rw [not_and, not_not] at hgo
          exact hclosed.marked hfacts hdom _ rfl hreach ((h.reached_iff _).mp (hgo hs)) hx

theorem climbs_spec {l : List Nat} (hl : ∀ p ∈ l, ReflTransGen g.Edge root p ∧
    ∀ d, stop = some d → Dominates g.Edge root d p) :
    ∀ {s : Runners}, Climbing t b stop none s → ∃ s',
      l.foldl (fun s predecessor => climb t stop b (g.nodeBound + 1) predecessor s) s = s' ∧
      Climbing t b stop none s' ∧
      (∀ x c, (x, c) ∈ s'.pairs ↔ (x, c) ∈ s.pairs ∨ (c = b ∧ ∃ p ∈ l, Below g root stop x p)) ∧
      ∀ x c, c ≠ b → s'.reached x = some c → s.reached x = some c := by
  induction l with
  | nil => exact fun {s} h => ⟨s, rfl, h, fun x c => by simp, fun _ _ _ hx => hx⟩
  | cons p l ih =>
    intro s h
    obtain ⟨hp, hstop⟩ := hl p mem_cons_self
    obtain ⟨h₁, hpairs₁, hreached₁⟩ := climb_spec hfacts hdom (g.nodeBound + 1)
      (Nat.lt_succ_of_le (hfacts.level_le p hp)) hp hstop
      ⟨h.reached_iff, fun x y hx hy hne => Or.inl ((h.upward x y hx hy hne).resolve_right
        fun he => by cases he), h.nodup⟩
    obtain ⟨s', hrun, h', hpairs, hreached⟩ := ih (fun q hq => hl q (mem_cons_of_mem p hq)) h₁
    refine ⟨s', hrun, h', fun x c => ?_, fun x c hc hx => hreached₁ x c hc (hreached x c hc hx)⟩
    rw [hpairs, hpairs₁, or_assoc, ← and_or_left]
    simp only [mem_cons, exists_eq_or_imp]

/-- The pairs when the blocks `done` have been walked. -/
structure Collected (g : GraphView) (root : Nat) (done : List Nat) (s : Runners) : Prop where
  mem_iff : ∀ x c, (x, c) ∈ s.pairs ↔ c ∈ done ∧ InFrontier g.Edge root x c
  reached_done : ∀ x c, s.reached x = some c → c ∈ done
  nodup : s.pairs.Nodup

/-- What lies below the stop of `b` on the way to a predecessor has `b` in its frontier. -/
theorem inFrontier_iff_below (hg : g.Lawful) (hb : ReflTransGen g.Edge root b) {x : Nat} :
    InFrontier g.Edge root x b ↔
      ∃ p ∈ (g.predecessors b).filter t.isReachable, Below g root (t.idom b) x p := by
  have hlt := hfacts.lt b hb
  have hpred : ∀ p, p ∈ (g.predecessors b).filter t.isReachable ↔
      ReflTransGen g.Edge root p ∧ g.Edge p b := by
    intro p
    rw [mem_filter, hg.mem_predecessors hlt, hdom.isReachable_iff, and_comm]
  have hstrict : ∀ p, ReflTransGen g.Edge root p → Dominates g.Edge root x p →
      (¬ StrictlyDominates g.Edge root x b ↔ ∀ d, t.idom b = some d → ¬ Dominates g.Edge root x d) := by
    intro p hp hxp
    rcases idom_cases hfacts hdom hb with ⟨hd, hroot⟩ | ⟨d, hd, hidom, _⟩
    · rw [hd]
      subst hroot
      refine ⟨fun _ d hd => (by cases hd), fun _ hs => hs.1 ?_⟩
      exact hs.2.antisymm (Dominates.root _ _ _) (hs.2.reaches .refl)
    · rw [hd, hidom.strictlyDominates_iff hb]
      exact ⟨fun hn e he => Option.some.inj he ▸ hn, fun hn => hn d rfl⟩
  constructor
  · rintro ⟨_, hnot, p, hp, he, hxp⟩
    exact ⟨p, (hpred p).mpr ⟨hp, he⟩, hxp, (hstrict p hp hxp).mp hnot⟩
  · rintro ⟨p, hp, hxp, hstop⟩
    obtain ⟨hp, he⟩ := (hpred p).mp hp
    exact ⟨hb, (hstrict p hp hxp).mpr hstop, p, hp, he, hxp⟩

theorem not_inFrontier_of_few (hg : g.Lawful) (hb : ReflTransGen g.Edge root b)
    (hfew : ((g.predecessors b)[(if (t.idom b).isNone then 1 else 2) - 1]?).isNone) (x : Nat) :
    ¬ InFrontier g.Edge root x b := by
  rintro ⟨_, hnot, p, hp, he, hxp⟩
  have hmem := (hg.mem_predecessors (hfacts.lt b hb)).mpr he
  rw [Option.isNone_iff_eq_none, List.getElem?_eq_none_iff] at hfew
  rcases idom_cases hfacts hdom hb with ⟨hd, _⟩ | ⟨d, hd, hidom, _⟩
  · rw [hd] at hfew
    have := length_pos_of_mem hmem
    simp at hfew
    rw [hfew] at this
    exact absurd this (Nat.lt_irrefl _)
  · rw [hd] at hfew
    have hone : g.predecessors b = [p] := by
      match hl : g.predecessors b, hmem, hfew with
      | [q], hmem, _ => rw [mem_singleton.mp hmem]
      | _ :: _ :: _, _, hfew => simp at hfew
    have hsole : ∀ c, g.Edge c b → c = p := fun c hc => by
      have := (hg.mem_predecessors (hfacts.lt b hb)).mpr hc
      rw [hone] at this
      exact mem_singleton.mp this
    have hne : b ≠ root := fun heq => by
      rw [(hdom.idom_none b).mpr (Or.inl heq)] at hd
      cases hd
    have hdp := hidom.eq_sole hp he hsole hne (ne_of_sole hb hne hsole)
    rw [hidom.strictlyDominates_iff hb, hdp] at hnot
    exact hnot hxp

theorem Collected.walkJoin (hg : g.Lawful) {done : List Nat} {s : Runners}
    (h : Collected g root done s) (hnew : b ∉ done) :
    Collected g root (done ++ [b]) (walkJoin t g s b) := by
  have hskip : (∀ x, ¬ InFrontier g.Edge root x b) → Collected g root (done ++ [b]) s := by
    intro hno
    refine ⟨fun x c => ?_, fun x c hx => mem_append_left _ (h.reached_done x c hx), h.nodup⟩
    rw [h.mem_iff, mem_append, mem_singleton]
    refine ⟨fun ⟨hc, hf⟩ => ⟨Or.inl hc, hf⟩, fun ⟨hc, hf⟩ => ⟨hc.resolve_right ?_, hf⟩⟩
    rintro rfl
    exact hno x hf
  unfold FrontierRuns.walkJoin
  split
  · next hunreached =>
    rw [Bool.not_eq_true'] at hunreached
    refine hskip fun x hf => ?_
    rw [(hdom.isReachable_iff b).mpr hf.1] at hunreached
    cases hunreached
  · next hreached =>
    rw [Bool.not_eq_true', Bool.not_eq_false] at hreached
    have hb := (hdom.isReachable_iff b).mp hreached
    dsimp only
    by_cases hfew : ((g.predecessors b)[(if (t.idom b).isNone then 1 else 2) - 1]?).isNone
    · rw [if_pos hfew]
      exact hskip (not_inFrontier_of_few hfacts hdom hg hb hfew)
    · rw [if_neg hfew]
      have hfresh : ∀ x, (x, b) ∉ s.pairs := fun x hx => hnew ((h.mem_iff x b).mp hx).1
      have hclimbing : Climbing t b (t.idom b) none s := by
        refine ⟨fun x => ⟨fun hx => absurd (h.reached_done x b hx) hnew,
          fun hx => absurd hx (hfresh x)⟩, fun x y hx => absurd hx (hfresh x), h.nodup⟩
      obtain ⟨s', hrun, h', hpairs, hmarks⟩ := @climbs_spec _ _ _ b (t.idom b) hfacts hdom
        ((g.predecessors b).filter t.isReachable) (fun p hp => by
          obtain ⟨hp, hreach⟩ := mem_filter.mp hp
          have hp' := (hdom.isReachable_iff p).mp hreach
          refine ⟨hp', fun d hd => ?_⟩
          rcases idom_cases hfacts hdom hb with ⟨hnone, _⟩ | ⟨d', hd', hidom, _⟩
          · rw [hnone] at hd
            cases hd
          · rw [hd'] at hd
            cases hd
            exact hidom.of_edge ((hg.mem_predecessors (hfacts.lt b hb)).mp hp)) s hclimbing
      rw [hrun]
      refine ⟨fun x c => ?_, fun x c hx => ?_, h'.nodup⟩
      · rw [hpairs, h.mem_iff, mem_append, mem_singleton, or_and_right]
        refine or_congr_right (and_congr_right fun hc => ?_)
        rw [hc, inFrontier_iff_below hfacts hdom hg hb]
      · rw [mem_append, mem_singleton]
        by_cases hc : c = b
        · exact Or.inr hc
        · exact Or.inl (h.reached_done x c (hmarks x c hc hx))

theorem collected_foldl (hg : g.Lawful) (l : List Nat) (hl : l.Nodup) :
    Collected g root l (l.foldl (FrontierRuns.walkJoin t g) ⟨fun _ => none, []⟩) := by
  induction l using List.reverseRecOn with
  | nil => exact ⟨fun x c => by simp, fun x c hx => (by cases hx), nodup_nil⟩
  | append_singleton l b ih =>
    rw [foldl_append]
    obtain ⟨hl, _, hnew⟩ := nodup_append.mp hl
    exact (ih hl).walkJoin hfacts hdom hg fun hb => hnew b hb b (mem_singleton_self b) rfl

end Walks

/-! ## Grouping -/

theorem isAscending_spec (blocks : List Nat) : isAscending blocks = true → blocks.Pairwise (· ≤ ·) := by
  have hfold : ∀ l : List Nat, (l.foldl (fun (s : Bool × Option Nat) block =>
      (s.1 && s.2.all (· ≤ block), some block)) (true, none)).2 = l.getLast? ∧
      ((l.foldl (fun (s : Bool × Option Nat) block =>
        (s.1 && s.2.all (· ≤ block), some block)) (true, none)).1 = true →
          l.Pairwise (· ≤ ·) ∧ ∀ last, l.getLast? = some last → ∀ a ∈ l, a ≤ last) := by
    intro l
    induction l using List.reverseRecOn with
    | nil => exact ⟨rfl, fun _ => ⟨.nil, fun _ h => (by cases h)⟩⟩
    | append_singleton l b ih =>
      obtain ⟨hlast, hsorted⟩ := ih
      rw [foldl_append]
      refine ⟨by simp, fun h => ?_⟩
      simp only [foldl_cons, foldl_nil, Bool.and_eq_true] at h
      obtain ⟨hflag, hle⟩ := h
      obtain ⟨hpairwise, hbound⟩ := hsorted hflag
      rw [hlast] at hle
      have hall : ∀ a ∈ l, a ≤ b := by
        intro a ha
        obtain ⟨last, hl⟩ : ∃ last, l.getLast? = some last :=
          Option.isSome_iff_exists.mp (by simpa using ne_nil_of_mem ha)
        rw [hl, Option.all_some, decide_eq_true_iff] at hle
        exact (hbound last hl a ha).trans hle
      refine ⟨pairwise_append.mpr ⟨hpairwise, pairwise_singleton _ _, fun a ha c hc => ?_⟩,
        fun last hl a ha => ?_⟩
      · rw [mem_singleton.mp hc]
        exact hall a ha
      · rw [getLast?_append] at hl
        cases hl
        rcases mem_append.mp ha with ha | ha
        · exact hall a ha
        · exact (mem_singleton.mp ha).le
  exact fun h => ((hfold blocks).2 h).1

section Grouping

variable {bound : Nat} {pairs : List (Nat × Nat)} (hkeys : ∀ pair ∈ pairs, pair.1 < bound)
include hkeys

theorem starts_eq {k : Nat} (hk : k ≤ bound) :
    (group bound pairs).starts.getD k 0 = (offsets bound (pairs.map Prod.fst)).getD k 0 := by
  obtain ⟨hfilled, hsucc⟩ := filled_placement 0 bound pairs hkeys
  have hkeys' : ∀ key ∈ pairs.map Prod.fst, key < bound := by
    intro key hkey
    obtain ⟨pair, hpair, rfl⟩ := mem_map.mp hkey
    exact hkeys pair hpair
  cases k with
  | zero => exact (offsets_zero bound _ hkeys').symm
  | succ k =>
    refine Eq.trans ?_ (hsucc k hk).symm
    exact hfilled.next_getD k hk

theorem length_starts : (group bound pairs).starts.length = bound + 1 := by
  obtain ⟨hfilled, _⟩ := filled_placement 0 bound pairs hkeys
  exact congrArg (· + 1) hfilled.next_length

omit hkeys in
theorem slice_sortRuns {starts blocks : List Nat} {off : Nat → Nat} {run : Nat → List Nat}
    (hstarts : ∀ k ≤ bound, starts.getD k 0 = off k) (hlength : starts.length = bound + 1)
    (hsucc : ∀ k < bound, off (k + 1) = off k + (run k).length)
    (hmono : ∀ i k, i ≤ k → k ≤ bound → off i ≤ off k) (hroom : off bound ≤ blocks.length)
    (hrun : ∀ k < bound, slice blocks (off k) (off (k + 1)) = run k) {k : Nat} (hk : k < bound) :
    slice (sortRuns starts blocks) (off k) (off (k + 1)) = (run k).insertionSort (· ≤ ·) := by
  have hfold : ∀ m ≤ bound, ∃ sorted, (List.range m).foldl (fun blocks k =>
      overwrite blocks (starts.getD k 0)
        ((slice blocks (starts.getD k 0) (starts.getD (k + 1) 0)).insertionSort (· ≤ ·))) blocks = sorted ∧
      sorted.length = blocks.length ∧ ∀ k < bound, slice sorted (off k) (off (k + 1)) =
        if k < m then (run k).insertionSort (· ≤ ·) else run k := by
    intro m
    induction m with
    | zero => exact fun _ => ⟨blocks, rfl, rfl, fun k hk => by simpa using hrun k hk⟩
    | succ m ih =>
      intro hm
      obtain ⟨sorted, hsorted, hlen, hslices⟩ := ih (by omega)
      have hself := hslices m (by omega)
      rw [if_neg (Nat.lt_irrefl m)] at hself
      have hsize : off (m + 1) = off m + ((run m).insertionSort (· ≤ ·)).length := by
        rw [length_insertionSort]
        exact hsucc m (by omega)
      have hfit : off m + ((run m).insertionSort (· ≤ ·)).length ≤ sorted.length := by
        rw [← hsize, hlen]
        exact (hmono (m + 1) bound hm (Nat.le_refl _)).trans hroom
      refine ⟨overwrite sorted (off m) ((run m).insertionSort (· ≤ ·)), ?_, ?_, fun k hk => ?_⟩
      · rw [range_succ, foldl_append, hsorted, foldl_cons, foldl_nil,
          hstarts m (by omega), hstarts (m + 1) hm, hself]
      · rw [length_overwrite hfit, hlen]
      · rcases Nat.lt_trichotomy k m with hlt | rfl | hgt
        · have := hmono (k + 1) m hlt (by omega)
          rw [slice_overwrite_other hfit (Or.inl this), hslices k hk, if_pos hlt, if_pos (by omega)]
        · rw [slice_overwrite_self hfit hsize, if_pos (Nat.lt_succ_self k)]
        · have := hmono (m + 1) k hgt (by omega)
          rw [slice_overwrite_other hfit (Or.inr (hsize ▸ this)), hslices k hk, if_neg (by omega),
            if_neg (by omega)]
  obtain ⟨sorted, hsorted, _, hslices⟩ := hfold bound (Nat.le_refl _)
  have heq : sortRuns starts blocks = sorted := by
    unfold sortRuns
    rw [hlength]
    exact hsorted
  rw [heq, hslices k hk, if_pos hk]

theorem frontier_group_perm {a : Nat} (ha : a < bound) :
    ((group bound pairs).frontier a).Perm (valuesOf a pairs) ∧
      ((group bound pairs).frontier a).Pairwise (· ≤ ·) := by
  obtain ⟨_, hsucc⟩ := filled_placement 0 bound pairs hkeys
  have hkeys' : ∀ key ∈ pairs.map Prod.fst, key < bound := by
    intro key hkey
    obtain ⟨pair, hpair, rfl⟩ := mem_map.mp hkey
    exact hkeys pair hpair
  have hplaced : ∀ k < bound, slice (placement 0 bound pairs)
      ((offsets bound (pairs.map Prod.fst)).getD k 0)
      ((offsets bound (pairs.map Prod.fst)).getD (k + 1) 0) = valuesOf k pairs :=
    fun k hk => placement_run 0 bound pairs hkeys k hk
  unfold frontier
  rw [starts_eq hkeys ha.le, starts_eq hkeys ha]
  by_cases hascending : isAscending (pairs.map Prod.snd)
  · have hblocks : (group bound pairs).blocks = placement 0 bound pairs := by
      unfold group
      dsimp only
      rw [if_pos hascending]
      rfl
    rw [hblocks, hplaced a ha]
    exact ⟨List.Perm.refl _, (isAscending_spec _ hascending).sublist
      ((filter_sublist).map Prod.snd)⟩
  · have hblocks : (group bound pairs).blocks =
        sortRuns (group bound pairs).starts (placement 0 bound pairs) := by
      unfold group
      dsimp only
      rw [if_neg hascending]
      rfl
    rw [hblocks, slice_sortRuns (fun k hk => starts_eq hkeys hk) (length_starts hkeys) hsucc
      (fun i k hik hk => offsets_mono bound _ hkeys' hik hk) (by
        rw [length_placement, offsets_last bound _ hkeys', length_map]) hplaced ha]
    exact ⟨perm_insertionSort _ _, pairwise_insertionSort _ _⟩

theorem frontier_group_beyond {a : Nat} (ha : bound ≤ a) : (group bound pairs).frontier a = [] := by
  have hend : (group bound pairs).starts.getD (a + 1) 0 = 0 := by
    rw [getD_eq_getElem?_getD, getElem?_eq_none (by rw [length_starts hkeys]; omega)]
    rfl
  unfold frontier slice
  rw [hend, Nat.zero_sub, take_zero]

theorem mem_frontier_group (a b : Nat) : b ∈ (group bound pairs).frontier a ↔ (a, b) ∈ pairs := by
  by_cases ha : a < bound
  · rw [(frontier_group_perm hkeys ha).1.mem_iff]
    unfold valuesOf
    simp only [mem_map, mem_filter, beq_iff_eq]
    constructor
    · rintro ⟨⟨x, y⟩, ⟨hmem, rfl⟩, rfl⟩
      exact hmem
    · exact fun hmem => ⟨(a, b), ⟨hmem, rfl⟩, rfl⟩
  · rw [frontier_group_beyond hkeys (Nat.not_lt.mp ha)]
    exact ⟨fun hm => absurd hm not_mem_nil, fun hm => absurd (hkeys _ hm) ha⟩

theorem frontier_group_ascending (hnodup : pairs.Nodup) (a : Nat) :
    ((group bound pairs).frontier a).Pairwise (· < ·) := by
  by_cases ha : a < bound
  · obtain ⟨hperm, hsorted⟩ := frontier_group_perm hkeys ha
    have hvalues : (valuesOf a pairs).Nodup := by
      refine List.Nodup.map_on ?_ (hnodup.filter _)
      intro x hx y hy heq
      have hx := (mem_filter.mp hx).2
      have hy := (mem_filter.mp hy).2
      rw [beq_iff_eq] at hx hy
      exact Prod.ext (hx.trans hy.symm) heq
    exact (hsorted.and (hperm.nodup_iff.mpr hvalues)).imp fun ⟨hle, hne⟩ => lt_of_le_of_ne hle hne
  · rw [frontier_group_beyond hkeys (Nat.not_lt.mp ha)]
    exact .nil

end Grouping

theorem rebuild_spec {g : RootedView} (hg : g.Lawful) (hroot : g.root ∈ g.nodeIds) {t : DominatorTree}
    (hfacts : DominatorTree.TreeFacts g.toGraphView g.root t)
    (hdom : DominatorTree.IsDominance g.toGraphView g.root t) (old : FrontierRuns) (a : Nat) :
    (∀ b, b ∈ (old.rebuild g.toGraphView t).frontier a ↔ InFrontier g.Edge g.root a b) ∧
      ((old.rebuild g.toGraphView t).frontier a).Pairwise (· < ·) := by
  have hcollected := collected_foldl hfacts hdom hg g.nodeIds hg.nodeIds_nodup
  have hkeys : ∀ pair ∈ (g.nodeIds.foldl (walkJoin t g.toGraphView) ⟨fun _ => none, []⟩).pairs,
      pair.1 < g.nodeBound := by
    rintro ⟨x, c⟩ hmem
    exact hfacts.lt x ((hcollected.mem_iff x c).mp hmem).2.reaches
  unfold rebuild
  refine ⟨fun b => ?_, frontier_group_ascending hkeys hcollected.nodup a⟩
  rw [mem_frontier_group hkeys, hcollected.mem_iff]
  exact ⟨And.right, fun hf => ⟨reaches_live hg hroot hf.1, hf⟩⟩

end FrontierRuns

end CfgLib
