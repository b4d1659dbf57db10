import CfgLib.Graph.Dominator.Dominance
import CfgLib.Lib.Cycles
import CfgLib.Transform.Reducible

/-!
# Reducibility

`graph/structure.rs`: the check looks at the back edges of one depth-first walk, and
its answer is a property of the graph: every cycle has a node that dominates it.
-/

namespace CfgLib

open CfgLib.Lib Relation Dominator Function

/-- Whether the graph is reducible; `none` is the panic on a root beyond the bound. -/
def isReducible (g : RootedView) (dom : DominatorTree) : Option Bool :=
  (Cfg.findIrreducibleEntry g dom).map Option.isNone

namespace DfsWalk

variable {g : GraphView} {root : Nat} {w w' : DfsWalk} {events : List DfsEvent}

/-- A walk whose back edges so far lead to dominators of their sources. -/
structure Exploring (g : GraphView) (root : Nat) (w : DfsWalk) : Prop where
  gray_iff : ∀ n, w.color n = .gray ↔ n ∈ w.frames.map DfsFrame.node
  nodup : (w.frames.map DfsFrame.node).Nodup
  chain : (w.frames.map DfsFrame.node).IsChain fun v u => g.Edge u v
  last : w.frames ≠ [] → (w.frames.map DfsFrame.node).getLast? = some root
  node_lt : ∀ f ∈ w.frames, f.node < g.nodeBound
  examined : ∀ pre f post, w.frames = pre ++ f :: post → ∃ seen,
    g.successors f.node = seen ++ f.successors ∧ ∀ v ∈ seen, w.color v ≠ .white ∧
      (Forward g.Edge root f.node v → w.color v = .black ∨ v ∈ pre.map DfsFrame.node)
  finished : ∀ u, w.color u = .black → ∀ v ∈ g.successors u, w.color v ≠ .white
  ranked : ∃ (rank : Nat → Nat) (k : Nat), ∀ u, w.color u = .black → rank u < k ∧
    ∀ v, Forward g.Edge root u v → w.color v = .black ∧ rank v < rank u
  started : w.color root ≠ .white

theorem exploring_init (hroot : root < g.nodeBound) :
    Exploring g root (descend g .outgoing ⟨fun _ => .white, []⟩ root 0) := by
  have hcolor : ∀ n, (descend g .outgoing ⟨fun _ => .white, []⟩ root 0).color n =
      if n = root then .gray else .white := by
    intro n
    unfold descend
    by_cases hn : n = root
    · simp [hn]
    · simp [hn]
  have hblack : ∀ n, (descend g .outgoing ⟨fun _ => .white, []⟩ root 0).color n ≠ .black := by
    intro n
    rw [hcolor]
    split
    · decide
    · decide
  refine ⟨?_, List.nodup_singleton root, .singleton root, fun _ => rfl, ?_, ?_,
    fun u hu => absurd hu (hblack u), ⟨fun _ => 0, 0, fun u hu => absurd hu (hblack u)⟩, ?_⟩
  · intro n
    rw [hcolor]
    by_cases hn : n = root
    · simp [hn, descend]
    · simp [hn, descend]
  · intro f hf
    rw [List.mem_singleton.mp hf]
    exact hroot
  · intro pre f post hsplit
    refine ⟨[], ?_, fun v hv => by cases hv⟩
    cases pre with
    | nil =>
      cases hsplit
      rfl
    | cons => simp [descend] at hsplit
  · rw [hcolor, if_pos rfl]
    decide

variable (h : Exploring g root w) {frame : DfsFrame} {frames : List DfsFrame}
  (hframes : w.frames = frame :: frames)

include h hframes

theorem Exploring.finish (hnil : frame.successors = []) :
    Exploring g root ⟨update w.color frame.node .black, frames⟩ := by
  obtain ⟨seen, hseen, hall⟩ := h.examined [] frame frames hframes
  rw [hnil, List.append_nil] at hseen
  have hnodup := h.nodup
  rw [hframes, List.map_cons, List.nodup_cons] at hnodup
  have hother : ∀ n, n ≠ frame.node → update w.color frame.node .black n = w.color n :=
    fun n hn => update_of_ne hn _ _
  have hself : update w.color frame.node .black frame.node = .black :=
    update_self ..
  -- nothing turns white, and black nodes stay black
  have hkeep : ∀ n, w.color n ≠ .white → update w.color frame.node .black n ≠ .white := by
    intro n hn
    by_cases he : n = frame.node
    · rw [he, hself]
      decide
    · rwa [hother n he]
  have hblack : ∀ n, w.color n = .black → update w.color frame.node .black n = .black := by
    intro n hn
    by_cases he : n = frame.node
    · rw [he, hself]
    · rwa [hother n he]
  refine ⟨?_, hnodup.2, ?_, ?_, ?_, ?_, ?_, ?_, hkeep root h.started⟩
  · intro n
    change update w.color frame.node .black n = .gray ↔ _
    by_cases hn : n = frame.node
    · subst hn
      exact iff_of_false (by rw [hself]; decide) hnodup.1
    · rw [hother n hn, h.gray_iff, hframes, List.map_cons, List.mem_cons]
      exact or_iff_right hn
  · have hchain := h.chain
    rw [hframes] at hchain
    exact hchain.tail
  · intro hne
    have hlast := h.last (by rw [hframes]; exact List.cons_ne_nil _ _)
    rw [hframes] at hlast
    cases hf : frames with
    | nil => exact absurd hf hne
    | cons f rest =>
      rw [hf] at hlast
      exact hlast
  · exact fun f hf => h.node_lt f (by rw [hframes]; exact List.mem_cons_of_mem _ hf)
  · intro pre f post hsplit
    have hsplit' : w.frames = (frame :: pre) ++ f :: post := by
      rw [hframes, List.cons_append]
      exact congrArg _ hsplit
    obtain ⟨seen', hseen', hall'⟩ := h.examined _ f post hsplit'
    refine ⟨seen', hseen', fun v hv => ⟨hkeep v (hall' v hv).1, fun hforward => ?_⟩⟩
    rcases (hall' v hv).2 hforward with hv | hv
    · exact Or.inl (hblack v hv)
    · rcases List.mem_cons.mp hv with rfl | hv
      · exact Or.inl hself
      · exact Or.inr hv
  · intro u hu v hv
    by_cases hun : u = frame.node
    · subst hun
      rw [hseen] at hv
      exact hkeep v (hall v hv).1
    · exact hkeep v (h.finished u ((hother u hun).symm.trans hu) v hv)
  · obtain ⟨rank, k, hrank⟩ := h.ranked
    have hgray : w.color frame.node = .gray := by
      rw [h.gray_iff, hframes]
      exact List.mem_cons_self
    refine ⟨update rank frame.node k, k + 1, fun u hu => ?_⟩
    by_cases hun : u = frame.node
    · subst hun
      rw [update_self]
      refine ⟨Nat.lt_succ_self k, fun v hforward => ?_⟩
      have hv : w.color v = .black := by
        refine ((hall v ?_).2 hforward).resolve_right List.not_mem_nil
        rw [← hseen]
        exact hforward.1.2
      have hne : v ≠ frame.node := by
        rintro rfl
        rw [hgray] at hv
        cases hv
      rw [update_of_ne hne]
      exact ⟨hblack v hv, (hrank v hv).1⟩
    · obtain ⟨hlt, hforward⟩ := hrank u ((hother u hun).symm.trans hu)
      rw [update_of_ne hun]
      refine ⟨Nat.lt_succ_of_lt hlt, fun v hv => ?_⟩
      obtain ⟨hv, hless⟩ := hforward v hv
      have hne : v ≠ frame.node := by
        rintro rfl
        rw [hgray] at hv
        cases hv
      rw [update_of_ne hne]
      exact ⟨hblack v hv, hless⟩

variable {successor : Nat} {successors : List Nat}

theorem Exploring.examine (hsucc : frame.successors = successor :: successors)
    (hcolor : w.color successor ≠ .white)
    (hforward : Forward g.Edge root frame.node successor → w.color successor = .black) :
    Exploring g root { w with frames := { frame with successors } :: frames } := by
  have hnodes : ({ frame with successors } :: frames).map DfsFrame.node =
      w.frames.map DfsFrame.node := by
    rw [hframes]
    rfl
  refine ⟨?_, ?_, ?_, ?_, ?_, ?_, h.finished, h.ranked, h.started⟩
  · intro n
    rw [hnodes]
    exact h.gray_iff n
  · rw [hnodes]
    exact h.nodup
  · rw [hnodes]
    exact h.chain
  · intro _
    rw [hnodes]
    exact h.last (by rw [hframes]; exact List.cons_ne_nil _ _)
  · intro f hf
    rcases List.mem_cons.mp hf with rfl | hf
    · exact h.node_lt frame (by rw [hframes]; exact List.mem_cons_self)
    · exact h.node_lt f (by rw [hframes]; exact List.mem_cons_of_mem _ hf)
  · intro pre f post hsplit
    cases pre with
    | nil =>
      cases hsplit
      obtain ⟨seen, hseen, hall⟩ := h.examined [] frame frames hframes
      refine ⟨seen ++ [successor], ?_, fun v hv => ?_⟩
      · rw [hseen, hsucc, List.append_assoc]
        rfl
      · rcases List.mem_append.mp hv with hv | hv
        · exact hall v hv
        · rw [List.mem_singleton.mp hv]
          exact ⟨hcolor, fun hf => Or.inl (hforward hf)⟩
    | cons f' pre =>
      obtain ⟨rfl, hrest⟩ := List.cons.inj hsplit
      exact h.examined (frame :: pre) f post (by rw [hframes, hrest]; rfl)

theorem Exploring.descend (hg : g.Lawful) (hsucc : frame.successors = successor :: successors)
    (hwhite : w.color successor = .white) (depth : Nat) :
    Exploring g root (DfsWalk.descend g .outgoing
      { w with frames := { frame with successors } :: frames } successor depth) := by
  have hnodes : ({ frame with successors } :: frames).map DfsFrame.node =
      w.frames.map DfsFrame.node := by
    rw [hframes]
    rfl
  obtain ⟨seen, hseen, hall⟩ := h.examined [] frame frames hframes
  have hedge : g.Edge frame.node successor := by
    refine ⟨h.node_lt frame (by rw [hframes]; exact List.mem_cons_self), ?_⟩
    rw [hseen, hsucc]
    exact List.mem_append_right _ List.mem_cons_self
  have hnew : successor ∉ w.frames.map DfsFrame.node := by
    rw [← h.gray_iff, hwhite]
    decide
  have hother : ∀ n, n ≠ successor → update w.color successor .gray n = w.color n :=
    fun n hn => update_of_ne hn _ _
  have hself : update w.color successor .gray successor = .gray := update_self ..
  have hkeep : ∀ n, w.color n ≠ .white → update w.color successor .gray n ≠ .white := by
    intro n hn
    by_cases he : n = successor
    · rw [he, hself]
      decide
    · rwa [hother n he]
  have hblack : ∀ n, update w.color successor .gray n = .black ↔ w.color n = .black := by
    intro n
    by_cases he : n = successor
    · subst he
      exact iff_of_false (by rw [hself]; decide) (by rw [hwhite]; decide)
    · rw [hother n he]
  refine ⟨?_, ?_, ?_, ?_, ?_, ?_, ?_, ?_, hkeep root h.started⟩
  · intro n
    change update w.color successor .gray n = .gray ↔ n ∈ successor :: List.map _ _
    rw [hnodes, List.mem_cons]
    by_cases hn : n = successor
    · subst hn
      exact iff_of_true hself (Or.inl rfl)
    · rw [hother n hn, h.gray_iff]
      exact (or_iff_right hn).symm
  · change (successor :: List.map _ _).Nodup
    rw [hnodes]
    exact List.nodup_cons.mpr ⟨hnew, h.nodup⟩
  · change (successor :: List.map _ _).IsChain _
    have hchain := h.chain
    rw [hframes] at hchain
    exact List.isChain_cons_cons.mpr ⟨hedge, hchain⟩
  · intro _
    change (successor :: List.map _ _).getLast? = _
    rw [hnodes, List.getLast?_cons,
      h.last (by rw [hframes]; exact List.cons_ne_nil _ _)]
    rfl
  · intro f hf
    rcases List.mem_cons.mp hf with rfl | hf
    · exact (hg.edge_lt hedge).2
    · rcases List.mem_cons.mp hf with rfl | hf
      · exact hedge.1
      · exact h.node_lt f (by rw [hframes]; exact List.mem_cons_of_mem _ hf)
  · intro pre f post hsplit
    cases pre with
    | nil =>
      cases hsplit
      exact ⟨[], rfl, fun v hv => by cases hv⟩
    | cons f' pre =>
      obtain ⟨rfl, hrest⟩ := List.cons.inj hsplit
      cases pre with
      | nil =>
        cases hrest
        refine ⟨seen ++ [successor], ?_, fun v hv => ?_⟩
        · rw [hseen, hsucc, List.append_assoc]
          rfl
        · rcases List.mem_append.mp hv with hv | hv
          · refine ⟨hkeep v (hall v hv).1, fun hforward => ?_⟩
            exact Or.inl ((hblack v).mpr
              (((hall v hv).2 hforward).resolve_right List.not_mem_nil))
          · rw [List.mem_singleton.mp hv]
            refine ⟨?_, fun _ => Or.inr List.mem_cons_self⟩
            change update w.color successor .gray successor ≠ .white
            rw [hself]
            decide
      | cons f' pre =>
        obtain ⟨rfl, hrest'⟩ := List.cons.inj hrest
        obtain ⟨seen', hseen', hall'⟩ :=
          h.examined (frame :: pre) f post (by rw [hframes, hrest']; rfl)
        refine ⟨seen', hseen', fun v hv => ⟨hkeep v (hall' v hv).1, fun hforward => ?_⟩⟩
        rcases (hall' v hv).2 hforward with hv | hv
        · exact Or.inl ((hblack v).mpr hv)
        · exact Or.inr (List.mem_cons_of_mem _ hv)
  · intro u hu v hv
    exact hkeep v (h.finished u ((hblack u).mp hu) v hv)
  · obtain ⟨rank, k, hrank⟩ := h.ranked
    refine ⟨rank, k, fun u hu => ?_⟩
    obtain ⟨hlt, hforward⟩ := hrank u ((hblack u).mp hu)
    refine ⟨hlt, fun v hv => ?_⟩
    obtain ⟨hv, hless⟩ := hforward v hv
    exact ⟨(hblack v).mpr hv, hless⟩

end DfsWalk

/-! ## The check -/

def irreducibleWitness (dom : DominatorTree) : DfsEvent → Option Nat
  | .backEdge tail header => if !dom.dominates header tail then some header else none
  | _ => none

/-- A simple cycle that the root reaches and that no node of it dominates. -/
def Undominated (E : Nat → Nat → Prop) (root : Nat) (p : List Nat) : Prop :=
  IsCycle E p ∧ p.Nodup ∧ (∀ x ∈ p, ReflTransGen E root x) ∧ ¬ HasDominator E root p

namespace DfsWalk

variable {g : GraphView} {root : Nat} {w w' : DfsWalk} {events : List DfsEvent} {dom : DominatorTree}

theorem Exploring.path (h : Exploring g root w) {frame : DfsFrame} {frames : List DfsFrame}
    (hframes : w.frames = frame :: frames) :
    Walk g.Edge root frame.node (w.frames.map DfsFrame.node).reverse := by
  have hchain := h.chain
  have hlast := h.last (by rw [hframes]; exact List.cons_ne_nil _ _)
  rw [hframes] at hchain hlast ⊢
  exact walk_of_isChain hchain hlast

/-- A back edge to a node that does not dominate its source closes a cycle that no node dominates. -/
theorem Exploring.undominated (h : Exploring g root w) {frame : DfsFrame} {frames : List DfsFrame}
    (hframes : w.frames = frame :: frames) {header : Nat} (hgray : w.color header = .gray)
    (hedge : g.Edge frame.node header) (hnot : ¬ Dominates g.Edge root header frame.node) :
    ∃ p, Undominated g.Edge root p := by
  have hpath := h.path hframes
  have hmem : header ∈ (w.frames.map DfsFrame.node).reverse :=
    List.mem_reverse.mpr ((h.gray_iff header).mp hgray)
  obtain ⟨before, after, hsplit⟩ := List.append_of_mem hmem
  obtain ⟨hto, hfrom⟩ := hpath.split hsplit
  have hnodup := List.nodup_reverse.mpr h.nodup
  rw [hsplit] at hnodup
  refine ⟨header :: after, ⟨header, frame.node, hfrom, hedge⟩, (List.nodup_append.mp hnodup).2.1, ?_,
    fun hdominator => ?_⟩
  · intro x hx
    have hreach := (hpath.within (P := fun _ => True) (fun _ _ => trivial)
      (x := x) (by rw [hsplit]; exact List.mem_append_right _ hx)).1
    exact ReflTransGen.mono (fun _ _ he => he.1) _ _ hreach
  · exact hnot (dominates_of_simple hto hnodup hdominator frame.node hfrom.target_mem)

/-- One turn goes on with the walk, or breaks off at a cycle that no node dominates. -/
theorem Exploring.step (hg : g.Lawful) (hdom : DominatorTree.IsDominance g root dom)
    (h : Exploring g root w) (hs : w.step g .outgoing = some (events, w')) :
    (events.findSome? (irreducibleWitness dom) = none → Exploring g root w') ∧
      (events.findSome? (irreducibleWitness dom) ≠ none → ∃ p, Undominated g.Edge root p) := by
  unfold DfsWalk.step at hs
  split at hs
  · cases hs
  next frame frames hframes =>
  have hreach : dom.isReachable frame.node := (hdom.isReachable_iff _).mpr (h.path hframes).reaches
  split at hs
  · next hnil =>
    cases hs
    exact ⟨fun _ => h.finish hframes hnil, fun hne => absurd rfl hne⟩
  · next successor successors hsucc =>
    obtain ⟨seen, hseen, _⟩ := h.examined [] frame frames hframes
    have hedge : g.Edge frame.node successor := by
      refine ⟨h.node_lt frame (by rw [hframes]; exact List.mem_cons_self), ?_⟩
      rw [hseen, hsucc]
      exact List.mem_append_right _ List.mem_cons_self
    simp only at hs
    split at hs
    · next hwhite =>
      cases hs
      exact ⟨fun _ => h.descend hframes hg hsucc hwhite _, fun hne => absurd rfl hne⟩
    · next hgray =>
      cases hs
      have hwitness : [DfsEvent.backEdge frame.node successor].findSome? (irreducibleWitness dom) =
          if !dom.dominates successor frame.node then some successor else none := by
        simp only [List.findSome?_cons, List.findSome?_nil, irreducibleWitness]
        cases dom.dominates successor frame.node <;> rfl
      rw [hwitness]
      split
      · next hnot =>
        refine ⟨fun hnone => (by cases hnone), fun _ => h.undominated hframes hgray hedge ?_⟩
        rw [← hdom.dominates_iff _ _ hreach]
        simpa using hnot
      · next hdominates =>
        refine ⟨fun _ => h.examine hframes hsucc (by rw [hgray]; decide) fun hforward => ?_,
          fun hne => absurd rfl hne⟩
        refine absurd ((hdom.dominates_iff _ _ hreach).mp ?_) hforward.2
        simpa using hdominates
    · next hblack =>
      cases hs
      exact ⟨fun _ => h.examine hframes hsucc (by rw [hblack]; decide) fun _ => hblack,
        fun hne => absurd rfl hne⟩

/-- A walk that ends without breaking off leaves no forward cycle. -/
theorem Exploring.forwardAcyclic (h : Exploring g root w) (hframes : w.frames = []) :
    ForwardAcyclic g.Edge root := by
  have hgray : ∀ n, w.color n ≠ .gray := by
    intro n hn
    rw [h.gray_iff, hframes] at hn
    exact List.not_mem_nil hn
  have hblack : ∀ n, w.color n ≠ .white → w.color n = .black := by
    intro n hn
    cases hc : w.color n with
    | white => exact absurd hc hn
    | gray => exact absurd hc (hgray n)
    | black => rfl
  have hreach : ∀ a, ReflTransGen g.Edge root a → w.color a = .black := by
    intro a ha
    induction ha with
    | refl => exact hblack root h.started
    | tail _ he ih => exact hblack _ (h.finished _ ih _ he.2)
  obtain ⟨rank, k, hrank⟩ := h.ranked
  intro a ha hcycle
  have hless : ∀ b, TransGen (Forward g.Edge root) a b → w.color b = .black ∧ rank b < rank a := by
    intro b hb
    induction hb with
    | single he => exact (hrank a (hreach a ha)).2 _ he
    | tail _ he ih =>
      obtain ⟨hc, hlt⟩ := (hrank _ ih.1).2 _ he
      exact ⟨hc, hlt.trans ih.2⟩
  exact Nat.lt_irrefl _ (hless a hcycle).2

end DfsWalk

/-- What reducibility means: no cycle can be entered at two nodes. -/
structure Classical (E : Nat → Nat → Prop) (root : Nat) (answer : Bool) : Prop where
  dominated : answer = true ↔
    ∀ p, IsCycle E p → (∀ x ∈ p, ReflTransGen E root x) → HasDominator E root p
  simple : answer = true ↔
    ∀ p, IsCycle E p → p.Nodup → (∀ x ∈ p, ReflTransGen E root x) → HasDominator E root p
  acyclic : answer = true ↔ ForwardAcyclic E root

theorem findIrreducibleEntry_eq (g : RootedView) (dom : DominatorTree) :
    Cfg.findIrreducibleEntry g dom = if g.nodeBound = 0 then some none
      else depthFirstEvents g.toGraphView g.root .outgoing (irreducibleWitness dom) := rfl

theorem isReducible_spec {g : RootedView} (hg : g.Lawful) {dom : DominatorTree}
    (hroot : g.root < g.nodeBound) (hdom : DominatorTree.IsDominance g.toGraphView g.root dom) :
    ∃ answer, isReducible g dom = some answer ∧ (answer = true → ForwardAcyclic g.Edge g.root) ∧
      (answer = false → ∃ p, Undominated g.Edge g.root p) := by
  obtain ⟨hrun, hend⟩ := depthFirstEvents_ends hg (d := .outgoing)
    (irreducibleWitness dom) hroot
  have hinvariant := @iterate_invariant _
    (DfsWalk.turn g.toGraphView .outgoing (irreducibleWitness dom))
    (fun s : Option Nat × DfsWalk => (s.1 = none → s.2.Exploring g.toGraphView g.root) ∧
      (s.1 ≠ none → ∃ p, Undominated g.Edge g.root p)) ?_
    (total (DfsWalk.cost g.toGraphView .outgoing) (List.range g.nodeBound))
    (s := (irreducibleWitness dom (.discover g.root 0),
      DfsWalk.descend g.toGraphView .outgoing ⟨fun _ => .white, []⟩ g.root 0))
    ⟨fun _ => DfsWalk.exploring_init hroot, fun hne => absurd rfl hne⟩
  · generalize iterate _ _ _ = s at hrun hend hinvariant
    refine ⟨s.1.isNone, ?_, fun hnone => ?_, fun hsome => ?_⟩
    · unfold isReducible
      rw [findIrreducibleEntry_eq, if_neg (by omega), hrun]
      rfl
    · rw [Option.isNone_iff_eq_none] at hnone
      refine (hinvariant.1 hnone).forwardAcyclic (hend.resolve_left ?_)
      rw [hnone]
      exact Bool.false_ne_true
    · refine hinvariant.2 ?_
      intro hnone
      rw [hnone] at hsome
      cases hsome
  · intro s s' hs hturn
    unfold DfsWalk.turn at hturn
    split at hturn
    · cases hturn
    · next hgoing =>
      obtain ⟨⟨events, w⟩, hstep, heq⟩ := Option.map_eq_some_iff.mp hturn
      cases heq
      exact (hs.1 (by simpa using hgoing)).step hg hdom hstep

/-- The check decides reducibility, and sees nothing of the order of the successors. -/
theorem isReducible_classical {g : RootedView} (hg : g.Lawful) {dom : DominatorTree}
    (hdom : DominatorTree.compute g = some dom) :
    ∃ answer, isReducible g dom = some answer ∧ Classical g.Edge g.root answer ∧
      ∀ (g' : RootedView) (dom' : DominatorTree), g'.Lawful → g'.root = g.root →
        (∀ a b, g'.Edge a b ↔ g.Edge a b) → DominatorTree.compute g' = some dom' →
        isReducible g' dom' = some answer := by
  have hall : ∀ (g' : RootedView) (dom' : DominatorTree), g'.Lawful →
      DominatorTree.compute g' = some dom' →
      ∃ answer, isReducible g' dom' = some answer ∧ Classical g'.Edge g'.root answer := by
    intro g' dom' hg' hdom'
    obtain ⟨hbound, hroot⟩ := DominatorTree.bounds_of_compute hdom'
    obtain ⟨t, _, _, _, ht, hdominance, _⟩ :=
      DominatorTree.computeFromIn_isDominance hg' hbound hroot .new
    rw [hdom'] at ht
    cases ht
    obtain ⟨answer, hrun, htrue, hfalse⟩ := isReducible_spec hg' hroot hdominance
    have hsimple : (∀ p, IsCycle g'.Edge p → p.Nodup → (∀ x ∈ p, ReflTransGen g'.Edge g'.root x) →
        HasDominator g'.Edge g'.root p) → answer = true := by
      intro hcycles
      by_contra hne
      obtain ⟨p, hp, hnodup, hreach, hnot⟩ := hfalse (by simpa using hne)
      exact hnot (hcycles p hp hnodup hreach)
    refine ⟨answer, hrun, ⟨⟨?_, ?_⟩, ⟨?_, hsimple⟩, ⟨htrue, ?_⟩⟩⟩
    · exact fun h p hp hreach => (htrue h).hasDominator hp hreach
    · exact fun h => hsimple fun p hp _ hreach => h p hp hreach
    · exact fun h p hp _ hreach => (htrue h).hasDominator hp hreach
    · exact fun h => hsimple fun p hp _ hreach => h.hasDominator hp hreach
  obtain ⟨answer, hrun, hclassical⟩ := hall g dom hg hdom
  refine ⟨answer, hrun, hclassical, fun g' dom' hg' hroot hedge hdom' => ?_⟩
  obtain ⟨answer', hrun', hclassical'⟩ := hall g' dom' hg' hdom'
  have hE : g'.Edge = g.Edge := funext fun a => funext fun b => propext (hedge a b)
  rw [hE, hroot] at hclassical'
  rw [hrun']
  refine congrArg some (Bool.eq_iff_iff.mpr ?_)
  rw [hclassical'.acyclic, hclassical.acyclic]

/-- The two-entry cycle of the sample is found. -/
theorem isReducible_classical_sampleView :
    ∃ dom, DominatorTree.compute ⟨DominatorTree.sampleView, 0⟩ = some dom ∧
      ∃ answer, isReducible ⟨DominatorTree.sampleView, 0⟩ dom = some answer ∧
        Classical DominatorTree.sampleView.Edge 0 answer := by
  obtain ⟨dom, _, _, _, hdom, _⟩ := DominatorTree.computeFromIn_isDominance
    DominatorTree.lawful_sampleView (by decide) (by decide : 0 < DominatorTree.sampleView.nodeBound) .new
  obtain ⟨answer, hrun, hclassical, _⟩ := isReducible_classical
    (g := ⟨DominatorTree.sampleView, 0⟩) DominatorTree.lawful_sampleView hdom
  exact ⟨dom, hdom, answer, hrun, hclassical⟩

end CfgLib
