import CfgLib.Graph.Search
import Mathlib.Data.List.Nodup
import Mathlib.Data.List.Perm.Subperm

/-!
# The path discipline

A search that un-marks a node on unwind visits the node-simple walks from each
seed.  A walk is the position of its seed and then, node by node, the position
of the neighbor it goes to; the order of the visits is the lexicographic order
of the walks.
-/

namespace CfgLib

open Lib List

def descending {σ β : Type} (v : Nat → Nat → σ → σ) (node depth : Nat) (s : σ) : Except β Visit × σ :=
  (.ok .descend, v node depth s)

def visits {σ : Type} (v : Nat → Nat → σ → σ) (l : List (Nat × Nat)) (s : σ) : σ := l.foldl (fun s e => v e.1 e.2 s) s

theorem visits_append {σ : Type} (v : Nat → Nat → σ → σ) (l m : List (Nat × Nat)) (s : σ) :
    visits v (l ++ m) s = visits v m (visits v l s) := foldl_append

/-! ## Walks -/

/-- Name each entry found at a node by the position of the node in a list first. -/
def branches {ε : Type} (f : Nat → List (List Nat × ε)) (nodes : List Nat) : List (List Nat × ε) :=
  nodes.zipIdx.flatMap fun p => (f p.1).map fun w => (p.2 :: w.1, w.2)

variable {nodes seeds : List Nat} {bound : Nat} {ε : Type} {f : Nat → List (List Nat × ε)}

theorem map_snd_branches (f : Nat → List (List Nat × ε)) (nodes : List Nat) :
    (branches f nodes).map (·.2) = nodes.flatMap fun n => (f n).map (·.2) := by
  rw [branches, map_flatMap]
  simp only [map_map, Function.comp_def]
  have h : ∀ (nodes : List Nat) (k : Nat), ((nodes.zipIdx k).flatMap fun p => (f p.1).map fun w => w.2) =
      nodes.flatMap fun n => (f n).map (·.2) := by
    intro nodes
    induction nodes with
    | nil => exact fun k => rfl
    | cons n nodes ih =>
      intro k
      rw [zipIdx_cons, flatMap_cons, flatMap_cons, ih]
  exact h nodes 0

theorem mem_branches {w : List Nat} {e : ε} :
    (w, e) ∈ branches f nodes ↔ ∃ (i n : Nat) (rest : List Nat), w = i :: rest ∧ nodes[i]? = some n ∧
      (rest, e) ∈ f n := by
  rw [branches, mem_flatMap]
  constructor
  · intro h
    obtain ⟨⟨n, i⟩, hn, hw⟩ := h
    obtain ⟨⟨rest, e'⟩, hrest, heq⟩ := mem_map.mp hw
    cases heq
    exact ⟨i, n, rest, rfl, mem_zipIdx_iff_getElem?.mp hn, hrest⟩
  · intro h
    obtain ⟨i, n, rest, rfl, hn, hrest⟩ := h
    exact ⟨(n, i), mem_zipIdx_iff_getElem?.mpr hn, mem_map.mpr ⟨_, hrest, rfl⟩⟩

theorem pairwise_branches (h : ∀ n ∈ nodes, (f n).Pairwise fun w w' => w.1 < w'.1) :
    (branches f nodes).Pairwise fun w w' => w.1 < w'.1 := by
  rw [branches, pairwise_flatMap]
  constructor
  · intro p hp
    rw [pairwise_map]
    refine (h p.1 (fst_mem_of_mem_zipIdx hp)).imp fun hlt => ?_
    exact cons_lt_cons_iff.mpr (Or.inr ⟨rfl, hlt⟩)
  · have hindex : nodes.zipIdx.Pairwise fun p q => p.2 < q.2 := by
      rw [← pairwise_map (f := Prod.snd) (R := (· < ·)), zipIdx_map_snd]
      exact pairwise_lt_range'
    refine hindex.imp fun hlt w hw w' hw' => ?_
    obtain ⟨_, -, rfl⟩ := mem_map.mp hw
    obtain ⟨_, -, rfl⟩ := mem_map.mp hw'
    exact cons_lt_cons_iff.mpr (Or.inl hlt)

theorem length_le_of_nodup {l : List Nat} (hnodup : l.Nodup) (hlt : ∀ n ∈ l, n < bound) :
    l.length ≤ bound := by
  have hle := (List.Nodup.subperm hnodup fun n hn => mem_range.mpr (hlt n hn)).length_le
  rwa [length_range] at hle

namespace GraphView

variable (g : GraphView) (d : TraversalDirection) (maxDepth : Option Nat)

/-- The nodes that a walk from `node` goes to, position by position. -/
def follow : Nat → List Nat → Option (List Nat)
  | _, [] => some []
  | node, i :: rest => (g.neighbors d node)[i]?.bind fun next => (follow next rest).map (next :: ·)

/-- The walks from `node` off the nodes `onPath`, each with its last node and depth; `m` bounds
their length. -/
def walksFrom : Nat → List Nat → Nat → Nat → List (List Nat × Nat × Nat)
  | 0, _, _, _ => []
  | m + 1, onPath, node, depth =>
    if node ∈ onPath then []
    else ([], node, depth) ::
      if mayExpand maxDepth depth then branches (fun n => walksFrom m (node :: onPath) n (depth + 1)) (g.neighbors d node)
      else []

/-- A node-simple walk within the bound, from its node on. -/
structure SimpleFrom (onPath : List Nat) (node depth : Nat) (w : List Nat) (nodes : List Nat) : Prop where
  follow : g.follow d node w = some nodes
  simple : (node :: nodes).Nodup
  fresh : ∀ n ∈ node :: nodes, n ∉ onPath
  bounded : maxDepth.all (depth + w.length ≤ ·)

theorem pairwise_walksFrom (m : Nat) : ∀ onPath node depth,
    (g.walksFrom d maxDepth m onPath node depth).Pairwise fun w w' => w.1 < w'.1 := by
  induction m with
  | zero => exact fun _ _ _ => .nil
  | succ m ih =>
    intro onPath node depth
    rw [walksFrom]
    split
    · exact .nil
    · refine pairwise_cons.mpr ⟨fun w hw => ?_, ?_⟩
      · split at hw
        · obtain ⟨rest, e⟩ := w
          obtain ⟨i, n, rest, rfl, -⟩ := mem_branches.mp hw
          exact nil_lt_cons i rest
        · cases hw
      · split
        · exact pairwise_branches fun n _ => ih _ _ _
        · exact .nil

variable {g d maxDepth}

theorem all_le_iff {depth k : Nat} : maxDepth.all (depth + (k + 1) ≤ ·) = true ↔
    mayExpand maxDepth depth = true ∧ maxDepth.all (depth + 1 + k ≤ ·) = true := by
  cases maxDepth with
  | none => simp [mayExpand]
  | some limit =>
    simp only [mayExpand, Option.all_some, decide_eq_true_iff]
    omega

theorem mem_walksFrom (hg : g.Lawful) (m : Nat) : ∀ onPath node depth, onPath.length + m = g.nodeBound + 1 →
    onPath.Nodup → (∀ n ∈ onPath, n < g.nodeBound) → node < g.nodeBound → maxDepth.all (depth ≤ ·) = true →
      ∀ w e, (w, e) ∈ g.walksFrom d maxDepth m onPath node depth ↔ ∃ nodes,
        g.SimpleFrom d maxDepth onPath node depth w nodes ∧ e = (nodes.getLastD node, depth + w.length) := by
  induction m with
  | zero =>
    intro onPath node depth hlength hnodup hlt _ _
    have := length_le_of_nodup hnodup hlt
    omega
  | succ m ih =>
    intro onPath node depth hlength hnodup hlt hnode hdepth w e
    rw [walksFrom]
    by_cases hmem : node ∈ onPath
    · rw [if_pos hmem]
      refine iff_of_false not_mem_nil fun h => ?_
      obtain ⟨nodes, hsimple, -⟩ := h
      exact hsimple.fresh node mem_cons_self hmem
    · rw [if_neg hmem, mem_cons]
      have hih := fun next (hnext : next < g.nodeBound) hbound => ih (node :: onPath) next (depth + 1)
        (by rw [length_cons]; omega) (nodup_cons.mpr ⟨hmem, hnodup⟩)
        (fun n hn => (mem_cons.mp hn).elim (fun heq => heq ▸ hnode) (hlt n)) hnext hbound
      constructor
      · intro h
        rcases h with h | h
        · cases h
          exact ⟨[], ⟨rfl, nodup_singleton node, fun n hn => by rwa [mem_singleton.mp hn], hdepth⟩, rfl⟩
        · by_cases hexpand : mayExpand maxDepth depth = true
          · rw [if_pos hexpand] at h
            obtain ⟨i, next, rest, rfl, hnext, hrest⟩ := mem_branches.mp h
            have hlt' := hg.neighbors_lt d hnode (mem_of_getElem? hnext)
            have hbound : maxDepth.all (depth + 1 ≤ ·) = true := (all_le_iff (k := 0)).mpr ⟨hexpand, by
              cases maxDepth with
              | none => rfl
              | some limit => exact hexpand⟩
            obtain ⟨nodes, hsimple, rfl⟩ := (hih next hlt' hbound rest e).mp hrest
            refine ⟨next :: nodes, ⟨?_, ?_, ?_, ?_⟩, ?_⟩
            · rw [follow, hnext, Option.bind_some, hsimple.follow, Option.map_some]
            · refine nodup_cons.mpr ⟨fun hn => ?_, hsimple.simple⟩
              exact hsimple.fresh node hn mem_cons_self
            · intro n hn
              rcases mem_cons.mp hn with rfl | hn
              · exact hmem
              · exact fun hn' => hsimple.fresh n hn (mem_cons_of_mem node hn')
            · rw [length_cons, all_le_iff]
              exact ⟨hexpand, hsimple.bounded⟩
            · rw [getLastD_cons, length_cons, show depth + (rest.length + 1) = depth + 1 + rest.length by omega]
          · rw [if_neg hexpand] at h
            cases h
      · intro h
        obtain ⟨nodes, hsimple, rfl⟩ := h
        cases w with
        | nil =>
          have hfollow := hsimple.follow
          rw [follow] at hfollow
          cases hfollow
          exact Or.inl rfl
        | cons i rest =>
          right
          have hfollow := hsimple.follow
          rw [follow] at hfollow
          obtain ⟨next, hnext, htail⟩ := Option.bind_eq_some_iff.mp hfollow
          obtain ⟨nodes', hnodes, rfl⟩ := Option.map_eq_some_iff.mp htail
          obtain ⟨hexpand, hbounded⟩ := all_le_iff.mp hsimple.bounded
          have hlt' := hg.neighbors_lt d hnode (mem_of_getElem? hnext)
          have hbound : maxDepth.all (depth + 1 ≤ ·) = true := by
            cases maxDepth with
            | none => rfl
            | some limit => exact hexpand
          rw [if_pos hexpand, mem_branches]
          refine ⟨i, next, rest, rfl, hnext, (hih next hlt' hbound rest _).mpr ⟨nodes', ⟨hnodes, ?_, ?_, hbounded⟩, ?_⟩⟩
          · exact (nodup_cons.mp hsimple.simple).2
          · intro n hn hn'
            rcases mem_cons.mp hn' with rfl | hn'
            · exact (nodup_cons.mp hsimple.simple).1 hn
            · exact hsimple.fresh n (mem_cons_of_mem node hn) hn'
          · rw [getLastD_cons, length_cons, show depth + (rest.length + 1) = depth + 1 + rest.length by omega]

end GraphView

/-! ## The run -/

namespace Searching

variable {σ β : Type} {g : GraphView} {config : SearchConfig} {v : Nat → Nat → σ → σ}

structure OnPath (g : GraphView) (onPath : List Nat) (stack : List PathStep) (s : σ) (w : Searching σ β) : Prop where
  broke : w.broke = none
  path : w.buffers.path = stack
  marked : ∀ i, w.marks.isMarked i = true ↔ i ∈ onPath
  capacity : g.nodeBound ≤ w.marks.capacity
  captured : w.captured = s

theorem OnPath.entries {onPath : List Nat} {depth : Nat} {f : Nat → List (Nat × Nat)} {nodes : List Nat}
    (henter : ∀ n ∈ nodes, ∀ rest s (w : Searching σ β), OnPath g onPath (.enter n depth :: rest) s w →
      ∃ k w', Steps (depthFirstPath g config (descending v)) k w w' ∧ OnPath g onPath rest (visits v (f n) s) w') :
    ∀ rest s (w : Searching σ β), OnPath g onPath (nodes.map (.enter · depth) ++ rest) s w →
      ∃ k w', Steps (depthFirstPath g config (descending v)) k w w' ∧
        OnPath g onPath rest (visits v (nodes.flatMap f) s) w' := by
  induction nodes with
  | nil => exact fun rest s w h => ⟨0, w, .zero w, h⟩
  | cons n nodes ih =>
    intro rest s w h
    obtain ⟨k, w', hsteps, h'⟩ := henter n mem_cons_self _ s w h
    obtain ⟨l, w'', hsteps', h''⟩ := ih (fun n' hn => henter n' (mem_cons_of_mem n hn)) rest _ w' h'
    refine ⟨k + l, w'', hsteps.trans hsteps', ?_⟩
    rw [flatMap_cons, visits_append]
    exact h''

theorem OnPath.enter (hg : g.Lawful) (m : Nat) : ∀ onPath node depth, onPath.length + m = g.nodeBound + 1 →
    onPath.Nodup → (∀ n ∈ onPath, n < g.nodeBound) → node < g.nodeBound →
      ∀ rest s (w : Searching σ β), OnPath g onPath (.enter node depth :: rest) s w →
        ∃ k w', Steps (depthFirstPath g config (descending v)) k w w' ∧ OnPath g onPath rest
          (visits v ((g.walksFrom config.direction config.maxDepth m onPath node depth).map (·.2)) s) w' := by
  induction m with
  | zero =>
    intro onPath node depth hlength hnodup hlt
    have := length_le_of_nodup hnodup hlt
    omega
  | succ m ih =>
    intro onPath node depth hlength hnodup hlt hnode rest s w h
    obtain ⟨marks, buffers, head, captured, broke⟩ := w
    obtain ⟨hbroke, hpath, hmarked, hcapacity, hcaptured⟩ := h
    dsimp only at hbroke hpath hmarked hcapacity hcaptured
    subst hbroke hcaptured
    rw [GraphView.walksFrom]
    by_cases hmem : node ∈ onPath
    · refine ⟨1, ⟨marks, { buffers with path := rest }, head, captured, none⟩, .single ?_, rfl, rfl, hmarked, hcapacity, ?_⟩
      · rw [depthFirstPath]
        dsimp only
        rw [hpath]
        dsimp only
        rw [if_pos ((hmarked node).mpr hmem)]
      · rw [if_pos hmem]
        rfl
    · have hfresh : marks.isMarked node = false := Bool.eq_false_iff.mpr fun h => hmem ((hmarked node).mp h)
      have hmarked' : ∀ i, (marks.mark node).isMarked i = true ↔ i ∈ node :: onPath := fun i => by
        rw [marks.isMarked_mark (hnode.trans_le hcapacity), Bool.or_eq_true, decide_eq_true_iff, hmarked, mem_cons]
      rw [if_neg hmem, map_cons]
      generalize hnodes : (if mayExpand config.maxDepth depth then g.neighbors config.direction node else []) = nodes
      have hwalks : (if mayExpand config.maxDepth depth then branches (fun n => g.walksFrom config.direction
          config.maxDepth m (node :: onPath) n (depth + 1)) (g.neighbors config.direction node) else []).map (·.2) =
          nodes.flatMap fun n =>
            (g.walksFrom config.direction config.maxDepth m (node :: onPath) n (depth + 1)).map (·.2) := by
        rw [← hnodes]
        split
        · exact map_snd_branches _ _
        · rfl
      -- the visit leaves the entries of the neighbors, or none, over the leave of the node
      obtain ⟨w₁, hturn, h₁⟩ : ∃ w₁, depthFirstPath g config (descending (β := β) v)
          ⟨marks, buffers, head, captured, none⟩ = some w₁ ∧ OnPath g (node :: onPath)
            (nodes.map (PathStep.enter · (depth + 1)) ++ .leave node :: rest) (v node depth captured) w₁ := by
        rw [depthFirstPath]
        dsimp only
        rw [hpath]
        dsimp only
        rw [hfresh, if_neg Bool.false_ne_true, visit, descending]
        dsimp only
        refine ⟨_, rfl, ?_⟩
        rw [← hnodes]
        split
        · exact ⟨rfl, rfl, hmarked', (marks.capacity_mark node).symm ▸ hcapacity, rfl⟩
        · exact ⟨rfl, rfl, hmarked', (marks.capacity_mark node).symm ▸ hcapacity, rfl⟩
      have hnodeslt : ∀ n ∈ nodes, n < g.nodeBound := by
        intro n hn
        rw [← hnodes] at hn
        split at hn
        · exact hg.neighbors_lt _ hnode hn
        · cases hn
      obtain ⟨k, w₂, hsteps, h₂⟩ := OnPath.entries (fun n hn => ih (node :: onPath) n (depth + 1)
        (by rw [length_cons]; omega) (nodup_cons.mpr ⟨hmem, hnodup⟩)
        (fun n hn => (mem_cons.mp hn).elim (fun heq => heq ▸ hnode) (hlt n)) (hnodeslt n hn)) _ _ w₁ h₁
      refine ⟨k + 1 + 1, { w₂ with marks := w₂.marks.unmark node, buffers := { w₂.buffers with path := rest } },
        .succ hturn (hsteps.trans (.single ?_)), ⟨h₂.broke, rfl, fun i => ?_, ?_, ?_⟩⟩
      · rw [depthFirstPath, h₂.broke, h₂.path]
      · rw [EpochMarks.isMarked_unmark, Bool.and_eq_true, decide_eq_true_iff, h₂.marked, mem_cons]
        constructor
        · exact fun hi => hi.2.resolve_left hi.1
        · intro hi
          refine ⟨fun heq => ?_, Or.inr hi⟩
          subst heq
          exact hmem hi
      · rw [EpochMarks.capacity_unmark]
        exact h₂.capacity
      · rw [h₂.captured, hwalks]
        rfl

end Searching

/-! ## The visits -/

namespace GraphView

/-- A node-simple walk from a seed within the bound, named by the position of the seed and then those
of the neighbors it goes to; it ends at a node and a depth. -/
def IsWalk (g : GraphView) (config : SearchConfig) (seeds w : List Nat) (e : Nat × Nat) : Prop :=
  ∃ (k seed : Nat) (rest nodes : List Nat), w = k :: rest ∧ seeds[k]? = some seed ∧
    g.SimpleFrom config.direction config.maxDepth [] seed 0 rest nodes ∧ e = (nodes.getLastD seed, rest.length)

def walks (g : GraphView) (config : SearchConfig) (seeds : List Nat) : List (List Nat × Nat × Nat) :=
  branches (fun seed => g.walksFrom config.direction config.maxDepth (g.nodeBound + 1) [] seed 0) seeds

theorem pairwise_walks (g : GraphView) (config : SearchConfig) (seeds : List Nat) :
    (g.walks config seeds).Pairwise fun w w' => w.1 < w'.1 :=
  pairwise_branches fun seed _ => g.pairwise_walksFrom config.direction config.maxDepth _ [] seed 0

theorem mem_walks {g : GraphView} (hg : g.Lawful) {config : SearchConfig} {seeds : List Nat}
    (hseeds : ∀ seed ∈ seeds, seed < g.nodeBound) {w : List Nat} {e : Nat × Nat} :
    (w, e) ∈ g.walks config seeds ↔ g.IsWalk config seeds w e := by
  have hfrom := fun seed (hseed : seed < g.nodeBound) rest => mem_walksFrom (d := config.direction) hg
    (g.nodeBound + 1) [] seed 0 (Nat.zero_add _) nodup_nil (fun n hn => absurd hn not_mem_nil) hseed
    (show config.maxDepth.all (0 ≤ ·) = true by cases config.maxDepth <;> simp) rest e
  rw [walks, mem_branches]
  constructor
  · intro h
    obtain ⟨k, seed, rest, rfl, hk, hrest⟩ := h
    obtain ⟨nodes, hsimple, rfl⟩ := (hfrom seed (hseeds seed (mem_of_getElem? hk)) rest).mp hrest
    exact ⟨k, seed, rest, nodes, rfl, hk, hsimple, by rw [Nat.zero_add]⟩
  · intro h
    obtain ⟨k, seed, rest, nodes, rfl, hk, hsimple, rfl⟩ := h
    exact ⟨k, seed, rest, rfl, hk, (hfrom seed (hseeds seed (mem_of_getElem? hk)) rest).mpr
      ⟨nodes, hsimple, by rw [Nat.zero_add]⟩⟩

end GraphView

/-- Whatever marks and buffers it is handed, a search under a visitor that descends everywhere ends, and
its visits are `log`. -/
def Visits (g : GraphView) (seeds : List Nat) (config : SearchConfig) (log : List (Nat × Nat)) : Prop :=
  ∀ (σ β : Type) (marks : EpochMarks), g.nodeBound ≤ marks.capacity → ∀ (buffers : SearchBuffers) (v : Nat → Nat → σ → σ)
    (s : σ), ∃ n, ∀ fuel, n ≤ fuel → ∃ w : Searching σ β,
      searchIn fuel g seeds config marks buffers (descending v) s = some w ∧ w.broke = none ∧ w.captured = visits v log s

theorem ready_of_lt {capacity : Nat} (hseeds : ∀ seed ∈ seeds, seed < bound)
    (hcapacity : bound ≤ capacity) : (seeds.all (· < bound) && decide (bound ≤ capacity)) = true := by
  rw [Bool.and_eq_true, all_eq_true, decide_eq_true_iff]
  exact ⟨fun seed hseed => decide_eq_true (hseeds seed hseed), hcapacity⟩

theorem searchIn_path {g : GraphView} (hg : g.Lawful)
    (hseeds : ∀ seed ∈ seeds, seed < g.nodeBound) (config : SearchConfig) (horder : config.order = .depthFirst)
    (hvisited : config.visited = .path) : Visits g seeds config ((g.walks config seeds).map (·.2)) := by
  intro σ β marks hcapacity buffers v s
  have hstart : Searching.OnPath (β := β) g [] (seeds.map (.enter · 0) ++ []) s ⟨marks.reset,
      { seeds, frontier := [], path := seeds.map (.enter · 0), adjacent := [] }, 0, s, none⟩ := by
    refine ⟨rfl, (append_nil _).symm, fun i => ?_, ?_, rfl⟩
    · rw [marks.isMarked_reset]
      exact iff_of_false Bool.false_ne_true not_mem_nil
    · rw [marks.capacity_reset]
      exact hcapacity
  obtain ⟨k, w, hsteps, hw⟩ : ∃ k w, Steps (Searching.depthFirstPath g config (descending v)) k _ w ∧
      Searching.OnPath g [] [] _ w :=
    Searching.OnPath.entries (fun seed hseed => Searching.OnPath.enter hg (g.nodeBound + 1) [] seed 0 (Nat.zero_add _)
      nodup_nil (fun n hn => absurd hn not_mem_nil) (hseeds seed hseed)) [] s _ hstart
  have hexit : Searching.depthFirstPath g config (descending v) w = none := by
    rw [Searching.depthFirstPath, hw.broke, hw.path]
  refine ⟨k, fun fuel hfuel => ⟨w, ?_, hw.broke, ?_⟩⟩
  · rw [searchIn, if_pos (ready_of_lt hseeds hcapacity), horder, hvisited]
    exact congrArg some (hsteps.iterate_eq hexit hfuel)
  · rw [hw.captured, GraphView.walks, map_snd_branches]

end CfgLib
