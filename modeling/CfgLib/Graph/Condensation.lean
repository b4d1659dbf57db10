import CfgLib.Graph.Kosaraju
import CfgLib.Graph.Dominator.Dominance
import CfgLib.Lib.Fold
import CfgLib.Store.Naive
import Mathlib.Algebra.BigOperators.Group.List.Basic

/-!
# The component graph

`graph/scc.rs`: both decompositions have the classes of mutual reachability for their
components, in opposite topological orders, and the graph of the components has one
edge for each pair of them that an edge of the graph connects.
-/

namespace CfgLib

open CfgLib.Lib CfgLib.Store Relation List

/-! ## The condensation -/

/-- Record the edge between two components unless it is recorded. -/
def wire (d : SccDecomposition) (source : Nat) (wired : List (Nat × Nat)) (successor : Nat) :
    Option (List (Nat × Nat)) :=
  (d.componentOf successor).map fun target =>
    if source ≠ target ∧ (source, target) ∉ wired then wired ++ [(source, target)] else wired

def wireNode (g : GraphView) (d : SccDecomposition) (wired : List (Nat × Nat)) (node : Nat) :
    Option (List (Nat × Nat)) := do
  let source ← d.componentOf node
  (g.successors node).foldlM (wire d source) wired

/-- Every edge of the component graph once; `none` is the panic on a node without a component. -/
def componentEdges (g : GraphView) (d : SccDecomposition) : Option (List (Nat × Nat)) :=
  g.nodeIds.foldlM (wireNode g d) []

def condenseWith {N : Type} (payload : List Nat → N) (g : GraphView) (d : SccDecomposition) :
    Option (Naive N Unit) := do
  let nodes ← d.components.foldlM (fun m component => m.addNode (payload component)) .empty
  let wired ← componentEdges g d
  wired.foldlM (fun m edge => m.addEdge edge.1 edge.2 ()) nodes

/-- The component graph of `tarjan_scc`, whose nodes carry their components. -/
def condensation (g : GraphView) : Option (Naive (List Nat) Unit) :=
  condenseWith id g (tarjanScc g)

def condensationOf (g : GraphView) (d : SccDecomposition) : Option (Naive Unit Unit) :=
  condenseWith (fun _ => ()) g d

/-! ## Decompositions -/

section Decomposes

variable {g : GraphView} {d d' : SccDecomposition}

theorem SccDecomposition.Minted.nodup (h : d.Minted g) : d.components.Nodup := by
  rw [nodup_iff_getElem?_ne_getElem?]
  intro i j hij hj heq
  obtain ⟨c, hc⟩ : ∃ c, d.components[j]? = some c := ⟨_, getElem?_eq_getElem hj⟩
  have hc' : d.components[i]? = some c := heq.trans hc
  obtain ⟨n, hn⟩ := exists_mem_of_ne_nil c (h.nonempty c (mem_of_getElem? hc))
  have hi := (h.mem_iff i c hc' n).mp hn
  rw [(h.mem_iff j c hc n).mp hn] at hi
  have := Option.some.inj hi
  omega

theorem SccDecomposition.Decomposes.subset (h : d.Decomposes g) (h' : d'.Decomposes g) {c : List Nat}
    (hc : c ∈ d.components) : c ∈ d'.components := by
  obtain ⟨a, ha⟩ := exists_mem_of_ne_nil c (h.minted.nonempty c hc)
  obtain ⟨i, hi⟩ := getElem?_of_mem hc
  have hai := (h.minted.mem_iff i c hi a).mp ha
  obtain ⟨j, haj⟩ := h'.total a (h.minted.live a (by rw [hai]; rfl))
  obtain ⟨c', hc'⟩ : ∃ c', d'.components[j]? = some c' :=
    ⟨_, getElem?_eq_getElem (h'.minted.index_lt a j haj)⟩
  -- the members of either are the nodes mutually reachable with `a`
  have hmem : ∀ n, n ∈ c ↔ n ∈ c' := by
    intro n
    rw [h.minted.mem_iff i c hi, h'.minted.mem_iff j c' hc']
    constructor
    · intro hn
      obtain ⟨k, hk⟩ := h'.total n (h.minted.live n (by rw [hn]; rfl))
      rw [hk]
      exact congrArg some ((h'.minted.same_iff n a k j hk haj).mpr
        ((h.minted.same_iff n a i i hn hai).mp rfl))
    · intro hn
      obtain ⟨k, hk⟩ := h.total n (h'.minted.live n (by rw [hn]; rfl))
      rw [hk]
      exact congrArg some ((h.minted.same_iff n a k i hk hai).mpr
        ((h'.minted.same_iff n a j j hn haj).mp rfl))
  have hascending := h.minted.ascending c hc
  have hascending' := h'.minted.ascending c' (mem_of_getElem? hc')
  have hperm : c.Perm c' := (perm_ext_iff_of_nodup (hascending.imp fun hlt => hlt.ne)
    (hascending'.imp fun hlt => hlt.ne)).mpr hmem
  have heq : c = c' := hperm.eq_of_pairwise (fun a b _ _ hab hba => absurd hab hba.asymm)
    hascending hascending'
  rw [heq]
  exact mem_of_getElem? hc'

theorem SccDecomposition.Decomposes.perm (h : d.Decomposes g) (h' : d'.Decomposes g) :
    d.components.Perm d'.components :=
  (perm_ext_iff_of_nodup h.minted.nodup h'.minted.nodup).mpr fun _ =>
    ⟨fun hc => h.subset h' hc, fun hc => h'.subset h hc⟩

theorem SccDecomposition.Minted.length_le (h : d.Minted g) :
    d.components.length ≤ g.nodeIds.length := by
  have hnodup : d.components.flatten.Nodup := by
    refine nodup_flatten.mpr ⟨fun c hc => (h.ascending c hc).imp fun hlt => hlt.ne, ?_⟩
    rw [pairwise_iff_getElem]
    intro i j hi hj hij a ha hb
    have hai := (h.mem_iff i _ (getElem?_eq_getElem hi) a).mp ha
    rw [(h.mem_iff j _ (getElem?_eq_getElem hj) a).mp hb] at hai
    have := Option.some.inj hai
    omega
  have hsubset : d.components.flatten ⊆ g.nodeIds := by
    intro n hn
    obtain ⟨c, hc, hn⟩ := mem_flatten.mp hn
    obtain ⟨i, hi⟩ := getElem?_of_mem hc
    refine h.live n ?_
    rw [(h.mem_iff i c hi n).mp hn]
    rfl
  refine le_trans ?_ (hnodup.subperm hsubset).length_le
  rw [length_flatten]
  refine le_trans (le_of_eq (length_map _).symm) (length_le_sum_of_one_le _ fun k hk => ?_)
  obtain ⟨c, hc, rfl⟩ := mem_map.mp hk
  exact length_pos_of_ne_nil (h.nonempty c hc)

/-! ## Edges between components -/

def Connects (g : GraphView) (d : SccDecomposition) (i j : Nat) : Prop :=
  i ≠ j ∧ ∃ a b, g.Edge a b ∧ d.componentOf a = some i ∧ d.componentOf b = some j

theorem wire_spec (source : Nat) {l : List Nat} (hl : ∀ v ∈ l, ∃ j, d.componentOf v = some j) :
    ∀ {wired : List (Nat × Nat)}, wired.Nodup → ∃ wired', l.foldlM (wire d source) wired = some wired' ∧
      wired'.Nodup ∧ wired'.length ≤ wired.length + l.length ∧
      ∀ edge, edge ∈ wired' ↔ edge ∈ wired ∨
        (edge.1 = source ∧ source ≠ edge.2 ∧ ∃ v ∈ l, d.componentOf v = some edge.2) := by
  induction l with
  | nil =>
    intro wired hnodup
    exact ⟨wired, rfl, hnodup, Nat.le_refl _, fun edge => by simp⟩
  | cons v l ih =>
    intro wired hnodup
    obtain ⟨target, htarget⟩ := hl v mem_cons_self
    have hstep : wire d source wired v = some (if source ≠ target ∧ (source, target) ∉ wired
        then wired ++ [(source, target)] else wired) := by
      unfold wire
      rw [htarget]
      rfl
    have hnext : ∃ mid, wire d source wired v = some mid ∧ mid.Nodup ∧
        mid.length ≤ wired.length + 1 ∧
        ∀ edge, edge ∈ mid ↔ edge ∈ wired ∨ (edge = (source, target) ∧ source ≠ target) := by
      refine ⟨_, hstep, ?_⟩
      split
      · next hnew =>
        refine ⟨?_, by simp, fun edge => ?_⟩
        · refine nodup_append.mpr ⟨hnodup, nodup_singleton _, fun a ha b hb heq => ?_⟩
          rw [mem_singleton.mp hb] at heq
          exact hnew.2 (heq ▸ ha)
        · rw [mem_append, mem_singleton]
          exact or_congr_right ⟨fun h => ⟨h, hnew.1⟩, fun h => h.1⟩
      · next hold =>
        refine ⟨hnodup, Nat.le_succ _, fun edge => ⟨Or.inl, ?_⟩⟩
        rintro (hedge | ⟨rfl, hne⟩)
        · exact hedge
        · by_contra hnot
          exact hold ⟨hne, hnot⟩
    obtain ⟨mid, hmid, hmidNodup, hmidLength, hmidMem⟩ := hnext
    obtain ⟨wired', hrun, hnodup', hlength, hmem⟩ :=
      ih (fun u hu => hl u (mem_cons_of_mem v hu)) hmidNodup
    refine ⟨wired', ?_, hnodup', ?_, fun edge => ?_⟩
    · rw [foldlM_cons, hmid]
      exact hrun
    · rw [length_cons]
      omega
    · rw [hmem, hmidMem, or_assoc]
      refine or_congr_right ?_
      constructor
      · rintro (⟨rfl, hne⟩ | ⟨hsource, hne, u, hu, htarget'⟩)
        · exact ⟨rfl, hne, v, mem_cons_self, htarget⟩
        · exact ⟨hsource, hne, u, mem_cons_of_mem v hu, htarget'⟩
      · rintro ⟨hsource, hne, u, hu, htarget'⟩
        rcases mem_cons.mp hu with rfl | hu
        · rw [htarget] at htarget'
          have heq := Option.some.inj htarget'
          exact Or.inl ⟨Prod.ext hsource heq.symm, heq ▸ hne⟩
        · exact Or.inr ⟨hsource, hne, u, hu, htarget'⟩

theorem componentEdges_spec (hg : g.Lawful) (h : d.Decomposes g) :
    ∃ wired, componentEdges g d = some wired ∧ wired.Nodup ∧
      wired.length ≤ Lib.total (fun n => (g.successors n).length) g.nodeIds ∧
      ∀ i j, (i, j) ∈ wired ↔ Connects g d i j := by
  have hfold : ∀ (l : List Nat) (wired : List (Nat × Nat)), (∀ n ∈ l, n ∈ g.nodeIds) → wired.Nodup →
      ∃ wired', l.foldlM (wireNode g d) wired = some wired' ∧ wired'.Nodup ∧
        wired'.length ≤ wired.length + Lib.total (fun n => (g.successors n).length) l ∧
        ∀ edge, edge ∈ wired' ↔ edge ∈ wired ∨ (edge.1 ≠ edge.2 ∧ ∃ a ∈ l, ∃ b ∈ g.successors a,
          d.componentOf a = some edge.1 ∧ d.componentOf b = some edge.2) := by
    intro l
    induction l with
    | nil => exact fun wired _ hnodup => ⟨wired, rfl, hnodup, Nat.le_refl _, fun edge => by simp⟩
    | cons node l ih =>
      intro wired hl hnodup
      have hnode := hl node mem_cons_self
      obtain ⟨source, hsource⟩ := h.total node hnode
      obtain ⟨mid, hmid, hmidNodup, hmidLength, hmidMem⟩ := wire_spec source
        (fun v hv => h.total v (hg.successors_live node hnode v hv)) hnodup
      obtain ⟨wired', hrun, hnodup', hlength, hmem⟩ :=
        ih mid (fun n hn => hl n (mem_cons_of_mem node hn)) hmidNodup
      refine ⟨wired', ?_, hnodup', ?_, fun edge => ?_⟩
      · have hstep : wireNode g d wired node = some mid := by
          unfold wireNode
          rw [hsource]
          exact hmid
        rw [foldlM_cons, hstep]
        exact hrun
      · simp only [total_cons]
        omega
      · rw [hmem, hmidMem, or_assoc]
        refine or_congr_right ?_
        constructor
        · rintro (⟨heq, hne, v, hv, htarget⟩ | ⟨hne, a, ha, b, hb, hab⟩)
          · exact ⟨heq ▸ hne, node, mem_cons_self, v, hv, heq ▸ hsource, htarget⟩
          · exact ⟨hne, a, mem_cons_of_mem node ha, b, hb, hab⟩
        · rintro ⟨hne, a, ha, b, hb, hia, hjb⟩
          rcases mem_cons.mp ha with rfl | ha
          · rw [hsource] at hia
            have heq := Option.some.inj hia
            exact Or.inl ⟨heq.symm, heq ▸ hne, b, hb, hjb⟩
          · exact Or.inr ⟨hne, a, ha, b, hb, hia, hjb⟩
  obtain ⟨wired, hrun, hnodup, hlength, hmem⟩ := hfold g.nodeIds [] (fun _ hn => hn) .nil
  refine ⟨wired, hrun, hnodup, by simpa using hlength, fun i j => ?_⟩
  rw [hmem]
  constructor
  · rintro (hnil | ⟨hne, a, ha, b, hb, hi, hj⟩)
    · cases hnil
    · exact ⟨hne, a, b, ⟨hg.nodeIds_lt a ha, hb⟩, hi, hj⟩
  · rintro ⟨hne, a, b, he, hi, hj⟩
    exact Or.inr ⟨hne, a, h.minted.live a (by rw [hi]; rfl), b, he.2, hi, hj⟩

end Decomposes

/-! ## Building the component graph -/

section Build

variable {N : Type}

theorem exists_addNodes (payload : List Nat → N) {components : List (List Nat)} :
    ∀ {m : Naive N Unit}, m.nodes.length + components.length ≤ maxSlots → ∃ m',
      components.foldlM (fun m component => m.addNode (payload component)) m = some m' ∧
        m'.nodes = m.nodes ++ components.map (fun component => some (payload component)) ∧
        m'.edges = m.edges := by
  induction components with
  | nil => exact fun {m} _ => ⟨m, rfl, (append_nil _).symm, rfl⟩
  | cons component components ih =>
    intro m hlength
    rw [length_cons] at hlength
    obtain ⟨mid, hmid⟩ : ∃ mid, m.addNode (payload component) = some mid := by
      unfold Naive.addNode
      rw [if_pos (by omega)]
      exact ⟨_, rfl⟩
    obtain ⟨hnodes, hedges, _⟩ := Naive.addNode_spec hmid
    obtain ⟨m', hrun, hnodes', hedges'⟩ := ih (m := mid) (by
      rw [hnodes, length_append, length_singleton]
      omega)
    refine ⟨m', ?_, ?_, hedges'.trans hedges⟩
    · rw [foldlM_cons, hmid]
      exact hrun
    · rw [hnodes', hnodes, append_assoc]
      rfl

theorem exists_addEdges {wired : List (Nat × Nat)} :
    ∀ {m : Naive N Unit}, m.edges.length + wired.length ≤ maxSlots →
      (∀ edge ∈ wired, (m.node edge.1).isSome ∧ (m.node edge.2).isSome) → ∃ m',
      wired.foldlM (fun m edge => m.addEdge edge.1 edge.2 ()) m = some m' ∧ m'.nodes = m.nodes ∧
        m'.edges = m.edges ++ wired.map fun edge => some ⟨edge.1, edge.2, ()⟩ := by
  induction wired with
  | nil => exact fun {m} _ _ => ⟨m, rfl, rfl, (append_nil _).symm⟩
  | cons edge wired ih =>
    intro m hlength hlive
    rw [length_cons] at hlength
    obtain ⟨hsource, htarget⟩ := hlive edge mem_cons_self
    obtain ⟨mid, hmid⟩ : ∃ mid, m.addEdge edge.1 edge.2 () = some mid := by
      unfold Naive.addEdge
      rw [if_pos ⟨hsource, htarget, by omega⟩]
      exact ⟨_, rfl⟩
    obtain ⟨_, _, hnodes, hedges, _⟩ := Naive.addEdge_spec hmid
    obtain ⟨m', hrun, hnodes', hedges'⟩ := ih (m := mid)
      (by
        rw [hedges, length_append, length_singleton]
        omega)
      (fun other hother => by
        unfold Naive.node
        rw [hnodes]
        exact hlive other (mem_cons_of_mem edge hother))
    refine ⟨m', ?_, hnodes'.trans hnodes, ?_⟩
    · rw [foldlM_cons, hmid]
      exact hrun
    · rw [hedges', hedges, append_assoc]
      rfl

theorem condenseWith_tables {g : GraphView} {d : SccDecomposition} {m : Naive N Unit}
    (hm : condenseWith payload g d = some m) {wired : List (Nat × Nat)}
    (hwired : componentEdges g d = some wired) :
    m.nodes = d.components.map (fun component => some (payload component)) ∧
      m.edges = wired.map fun edge => some ⟨edge.1, edge.2, ()⟩ := by
  unfold condenseWith at hm
  obtain ⟨nodes, hnodes, hm⟩ := Option.bind_eq_some_iff.mp hm
  obtain ⟨wired', hwired', hm⟩ := Option.bind_eq_some_iff.mp hm
  rw [hwired] at hwired'
  cases hwired'
  have hadded := foldlM_option (I := fun done (m : Naive N Unit) =>
      m.nodes = done.map (fun component => some (payload component)) ∧ m.edges = [])
    (fun done component m m' h hs => by
      obtain ⟨hnodes, hedges, _⟩ := Naive.addNode_spec hs
      rw [hnodes, hedges, h.1, h.2, map_append]
      exact ⟨rfl, rfl⟩) ⟨rfl, rfl⟩ hnodes
  have hall := foldlM_option (I := fun done (m : Naive N Unit) => m.nodes = nodes.nodes ∧
      m.edges = done.map fun edge : Nat × Nat => some ⟨edge.1, edge.2, ()⟩)
    (fun done edge m m' h hs => by
      obtain ⟨_, _, hnodes, hedges, _⟩ := Naive.addEdge_spec hs
      rw [hnodes, hedges, h.1, h.2, map_append]
      exact ⟨rfl, rfl⟩) ⟨rfl, hadded.2⟩ hm
  exact ⟨hall.1.trans hadded.1, hall.2⟩

end Build

def ComponentEdge {N : Type} (m : Naive N Unit) (i j : Nat) : Prop :=
  ∃ e r, m.edge e = some r ∧ r.source = i ∧ r.target = j

structure IsCondensation {N : Type} (payload : List Nat → N) (g : GraphView) (d : SccDecomposition)
    (m : Naive N Unit) : Prop where
  node_eq : ∀ i, m.node i = (d.components[i]?).map payload
  edge_iff : ∀ i j, ComponentEdge m i j ↔ i ≠ j ∧ ∃ c c', d.components[i]? = some c ∧
    d.components[j]? = some c' ∧ ∃ a ∈ c, ∃ b ∈ c', g.Edge a b
  no_parallel : ∀ e e' r r', m.edge e = some r → m.edge e' = some r' → r.source = r'.source →
    r.target = r'.target → e = e'
  acyclic : ∀ i, ¬ TransGen (ComponentEdge m) i i

section Condense

variable {g : GraphView} {d : SccDecomposition} {N : Type} {payload : List Nat → N}

theorem connects_iff (h : d.Decomposes g) {i j : Nat} : Connects g d i j ↔
    i ≠ j ∧ ∃ c c', d.components[i]? = some c ∧ d.components[j]? = some c' ∧
      ∃ a ∈ c, ∃ b ∈ c', g.Edge a b := by
  refine and_congr_right fun _ => ?_
  constructor
  · rintro ⟨a, b, he, hi, hj⟩
    have hc := getElem?_eq_getElem (h.minted.index_lt a i hi)
    have hc' := getElem?_eq_getElem (h.minted.index_lt b j hj)
    exact ⟨_, _, hc, hc', a, (h.minted.mem_iff i _ hc a).mpr hi, b,
      (h.minted.mem_iff j _ hc' b).mpr hj, he⟩
  · rintro ⟨c, c', hc, hc', a, ha, b, hb, he⟩
    exact ⟨a, b, he, (h.minted.mem_iff i c hc a).mp ha, (h.minted.mem_iff j c' hc' b).mp hb⟩

theorem condenseWith_spec (hg : g.Lawful) (h : d.Decomposes g)
    (hordered : (∀ i j, Connects g d i j → i < j) ∨ ∀ i j, Connects g d i j → j < i)
    {m : Naive N Unit} (hm : condenseWith payload g d = some m) : IsCondensation payload g d m := by
  obtain ⟨wired, hwired, hnodup, _, hmem⟩ := componentEdges_spec hg h
  obtain ⟨hnodes, hedges⟩ := condenseWith_tables hm hwired
  have hedge : ∀ e r, m.edge e = some r ↔ ∃ edge, wired[e]? = some edge ∧ r = ⟨edge.1, edge.2, ()⟩ := by
    intro e r
    unfold Naive.edge
    rw [hedges, getElem?_map]
    cases hw : wired[e]? with
    | none => simp
    | some edge =>
      simp only [Option.map_some, Option.join_some, Option.some.injEq]
      exact ⟨fun heq => ⟨edge, rfl, heq.symm⟩, fun ⟨_, heq, hr⟩ => by rw [heq, hr]⟩
  have hedge_iff : ∀ i j, ComponentEdge m i j ↔ Connects g d i j := by
    intro i j
    rw [← hmem]
    constructor
    · rintro ⟨e, r, hr, rfl, rfl⟩
      obtain ⟨edge, hw, rfl⟩ := (hedge e r).mp hr
      exact mem_of_getElem? hw
    · intro hin
      obtain ⟨e, he⟩ := getElem?_of_mem hin
      exact ⟨e, _, (hedge e _).mpr ⟨_, he, rfl⟩, rfl, rfl⟩
  refine ⟨fun i => ?_, fun i j => (hedge_iff i j).trans (connects_iff h), ?_, ?_⟩
  · unfold Naive.node
    rw [hnodes, getElem?_map]
    cases d.components[i]? <;> rfl
  · intro e e' r r' hr hr' hsource htarget
    obtain ⟨edge, hw, rfl⟩ := (hedge e r).mp hr
    obtain ⟨edge', hw', rfl⟩ := (hedge e' r').mp hr'
    have heq : edge = edge' := Prod.ext hsource htarget
    rw [← heq] at hw'
    exact (getElem?_inj (List.getElem?_eq_some_iff.mp hw).1 hnodup).mp (hw.trans hw'.symm)
  · intro i hcycle
    rcases hordered with hup | hdown
    · have : ∀ j, TransGen (ComponentEdge m) i j → i < j := by
        intro j hj
        induction hj with
        | single hl => exact hup i _ ((hedge_iff _ _).mp hl)
        | tail _ hl ih => exact ih.trans (hup _ _ ((hedge_iff _ _).mp hl))
      exact Nat.lt_irrefl i (this i hcycle)
    · have : ∀ j, TransGen (ComponentEdge m) i j → j < i := by
        intro j hj
        induction hj with
        | single hl => exact hdown i _ ((hedge_iff _ _).mp hl)
        | tail _ hl ih => exact (hdown _ _ ((hedge_iff _ _).mp hl)).trans ih
      exact Nat.lt_irrefl i (this i hcycle)

theorem condenseWith_isSome (hg : g.Lawful) (h : d.Decomposes g)
    (hnodes : g.nodeIds.length ≤ maxSlots)
    (hedges : Lib.total (fun n => (g.successors n).length) g.nodeIds ≤ maxSlots) :
    (condenseWith payload g d).isSome := by
  obtain ⟨wired, hwired, _, hlength, hmem⟩ := componentEdges_spec hg h
  have hcomponents := h.minted.length_le
  obtain ⟨nodes, hadded, hnodes', hedges'⟩ := exists_addNodes payload
    (show Naive.empty.nodes.length + d.components.length ≤ maxSlots by
      change 0 + _ ≤ _
      omega)
  have hlive : ∀ i n, d.componentOf n = some i → (nodes.node i).isSome := by
    intro i n hi
    have hlt := h.minted.index_lt n i hi
    unfold Naive.node
    rw [hnodes', Naive.empty, nil_append, getElem?_map, getElem?_eq_getElem hlt]
    rfl
  obtain ⟨m, hm, _⟩ := exists_addEdges
    (show nodes.edges.length + wired.length ≤ maxSlots by
      rw [hedges']
      change 0 + _ ≤ _
      omega)
    (fun edge hedge => by
      obtain ⟨_, a, b, _, hi, hj⟩ := (hmem edge.1 edge.2).mp hedge
      exact ⟨hlive _ a hi, hlive _ b hj⟩)
  unfold condenseWith
  rw [hadded, hwired]
  change Option.isSome (wired.foldlM _ nodes) = true
  rw [hm]
  rfl

end Condense

/-! ## Both algorithms -/

structure ComponentsCorrect (g : GraphView) : Prop where
  tarjan : (tarjanScc g).Decomposes g
  kosaraju : (kosarajuScc g).Decomposes g
  same : (tarjanScc g).components.Perm (kosarajuScc g).components
  leavesFirst : ∀ a b i j, g.Edge a b → (tarjanScc g).componentOf a = some i →
    (tarjanScc g).componentOf b = some j → j ≤ i
  sourcesFirst : ∀ a b i j, g.Edge a b → (kosarajuScc g).componentOf a = some i →
    (kosarajuScc g).componentOf b = some j → i ≤ j
  condensation : ∀ m, condensation g = some m → IsCondensation id g (tarjanScc g) m
  condensationOf_tarjan : ∀ m, condensationOf g (tarjanScc g) = some m →
    IsCondensation (fun _ => ()) g (tarjanScc g) m
  condensationOf_kosaraju : ∀ m, condensationOf g (kosarajuScc g) = some m →
    IsCondensation (fun _ => ()) g (kosarajuScc g) m
  built : g.nodeIds.length ≤ maxSlots →
    Lib.total (fun n => (g.successors n).length) g.nodeIds ≤ maxSlots →
    (CfgLib.condensation g).isSome ∧ (condensationOf g (tarjanScc g)).isSome ∧
      (condensationOf g (kosarajuScc g)).isSome

/-- Both algorithms find the classes of mutual reachability, in opposite topological orders. -/
theorem components_correct {g : GraphView} (hg : g.Lawful) : ComponentsCorrect g := by
  obtain ⟨htarjan, hleaves⟩ := tarjanScc_spec hg
  obtain ⟨hkosaraju, hsources⟩ := kosarajuScc_decomposes hg
  have hdown : ∀ i j, Connects g (tarjanScc g) i j → j < i := by
    intro i j ⟨hne, a, b, he, hi, hj⟩
    exact lt_of_le_of_ne (hleaves a b i j he hi hj) hne.symm
  have hup : ∀ i j, Connects g (kosarajuScc g) i j → i < j := by
    intro i j ⟨hne, a, b, he, hi, hj⟩
    exact lt_of_le_of_ne (hsources a b i j he hi hj) hne
  refine ⟨htarjan, hkosaraju, htarjan.perm hkosaraju, hleaves, hsources, ?_, ?_, ?_, ?_⟩
  · exact fun m hm => condenseWith_spec hg htarjan (Or.inr hdown) hm
  · exact fun m hm => condenseWith_spec hg htarjan (Or.inr hdown) hm
  · exact fun m hm => condenseWith_spec hg hkosaraju (Or.inl hup) hm
  · intro hnodes hedges
    exact ⟨condenseWith_isSome hg htarjan hnodes hedges,
      condenseWith_isSome hg htarjan hnodes hedges,
      condenseWith_isSome hg hkosaraju hnodes hedges⟩

open Dominator.DominatorTree in
/-- The cycle of the sample is one component of each decomposition. -/
theorem components_correct_sampleView : [1, 2] ∈ (tarjanScc sampleView).components ∧
    [1, 2] ∈ (kosarajuScc sampleView).components ∧ ComponentsCorrect sampleView := by
  refine ⟨by decide, by decide, components_correct lawful_sampleView⟩

end CfgLib
