import CfgLib.Dataflow.ConstantsSettle

/-!
# Constant propagation and the numbering

Where every visited block has a fact for every variable, the facts of a solve are the
greatest solution of the equations, which does not see how blocks and edges are
numbered.  Where one is missing, the order of the visits shows in the facts.
-/

namespace CfgLib

namespace Dataflow

open CfgLib.Lib Relation

variable {ι ν κ π : Type}

/-- The meet of constants is the greatest constant below both; `none` is the bottom. -/
structure ConstantFolder.Meets (F : ConstantFolder ι ν κ) : Prop where
  idem : ∀ a, F.meetConstants a a = some a
  comm : ∀ a b, F.meetConstants a b = F.meetConstants b a
  assoc : ∀ a b c, (F.meetConstants a b).bind (F.meetConstants · c) =
    (F.meetConstants b c).bind (F.meetConstants a)

/-- What is known in `known` is known in `known'`, no less exactly. -/
def KnownBelow (F : ConstantFolder ι ν κ) (known known' : FiniteMap ν κ) : Prop :=
  ∀ v x, known.get v = some x → ∃ y, known'.get v = some y ∧ F.meetConstants x y = some x

/-- A folder whose answer for a definition rises with what it knows of its operands. -/
def ConstantFolder.Increasing [DecidableEq ν] (F : ConstantFolder ι ν κ) : Prop :=
  ∀ a known known' v, v ∈ F.defs a → KnownBelow F known known' →
    (definedValue F a known v).meetWith F.meetConstants (definedValue F a known' v) = definedValue F a known v

/-! ## The meet of values -/

section Values

variable {F : ConstantFolder ι ν κ}

theorem meetWith_const_const (a b : κ) : (ConstValue.const a).meetWith F.meetConstants (.const b) =
    ((F.meetConstants a b).map .const).getD .bottom := rfl

theorem meetWith_map_left (o : Option κ) (c : κ) :
    ((o.map .const).getD .bottom : ConstValue κ).meetWith F.meetConstants (.const c) =
      ((o.bind (F.meetConstants · c)).map .const).getD .bottom := by
  cases o <;> rfl

theorem meetWith_map_right (a : κ) (o : Option κ) :
    (ConstValue.const a).meetWith F.meetConstants ((o.map .const).getD .bottom) =
      ((o.bind (F.meetConstants a)).map .const).getD .bottom := by
  cases o <;> rfl

theorem bottom_meetWith (x : ConstValue κ) : ConstValue.bottom.meetWith F.meetConstants x = .bottom := by
  cases x <;> rfl

theorem meetWith_bottom (x : ConstValue κ) : x.meetWith F.meetConstants .bottom = .bottom := by
  cases x <;> rfl

theorem top_meetWith (x : ConstValue κ) : ConstValue.top.meetWith F.meetConstants x = x := by
  cases x <;> rfl

theorem meetWith_top (x : ConstValue κ) : x.meetWith F.meetConstants .top = x := by
  cases x <;> rfl

theorem ConstantFolder.Meets.commutative (hF : F.Meets) : Std.Commutative (ConstValue.meetWith F.meetConstants) where
  comm x y := by
    cases x <;> cases y <;> simp [ConstValue.meetWith, hF.comm]

theorem ConstantFolder.Meets.idempotent (hF : F.Meets) : Std.IdempotentOp (ConstValue.meetWith F.meetConstants) where
  idempotent x := by
    cases x <;> simp [ConstValue.meetWith, hF.idem]

theorem ConstantFolder.Meets.associative (hF : F.Meets) : Std.Associative (ConstValue.meetWith F.meetConstants) where
  assoc x y z := by
    cases x with
    | top => rw [top_meetWith, top_meetWith]
    | bottom => rw [bottom_meetWith, bottom_meetWith, bottom_meetWith]
    | const a =>
      cases y with
      | top => rw [meetWith_top, top_meetWith]
      | bottom => rw [meetWith_bottom, bottom_meetWith, meetWith_bottom]
      | const b =>
        cases z with
        | top => rw [meetWith_top, meetWith_top]
        | bottom => rw [meetWith_bottom, meetWith_bottom, meetWith_bottom]
        | const c =>
          rw [meetWith_const_const, meetWith_const_const, meetWith_map_left, meetWith_map_right, hF.assoc]

end Values

/-! ## The order of facts -/

/-- The fact `f` is below `g`: it knows no more of any variable. -/
def Below [DecidableEq ν] (F : ConstantFolder ι ν κ) (f g : ConstFact ν κ) : Prop := meetFacts F f g = f

section Order

variable [DecidableEq ν] {F : ConstantFolder ι ν κ} {f f' g g' k : ConstFact ν κ}

theorem meetFacts_comm (hF : F.Meets) (f g : ConstFact ν κ) : meetFacts F f g = meetFacts F g f := by
  have := hF.commutative
  ext1 v
  exact (Option.commutative_merge (ConstValue.meetWith F.meetConstants)).comm (f.get v) (g.get v)

theorem meetFacts_assoc (hF : F.Meets) (f g k : ConstFact ν κ) :
    meetFacts F (meetFacts F f g) k = meetFacts F f (meetFacts F g k) := by
  have := hF.associative
  ext1 v
  exact (Option.associative_merge (ConstValue.meetWith F.meetConstants)).assoc (f.get v) (g.get v) (k.get v)

theorem Below.refl (hF : F.Meets) (f : ConstFact ν κ) : Below F f f := by
  have := hF.idempotent
  refine FiniteMap.ext fun v => ?_
  exact (Option.idempotentOp_merge (ConstValue.meetWith F.meetConstants)).idempotent (f.get v)

theorem Below.antisymm (hF : F.Meets) (h : Below F f g) (h' : Below F g f) : f = g :=
  h.symm.trans ((meetFacts_comm hF f g).trans h')

theorem Below.meetFacts (hF : F.Meets) (h : Below F f f') (h' : Below F g g') :
    Below F (meetFacts F f g) (meetFacts F f' g') := by
  unfold Below
  calc Dataflow.meetFacts F (Dataflow.meetFacts F f g) (Dataflow.meetFacts F f' g')
      = Dataflow.meetFacts F (Dataflow.meetFacts F f f') (Dataflow.meetFacts F g g') := by
        rw [meetFacts_assoc hF f, ← meetFacts_assoc hF g, meetFacts_comm hF g f', meetFacts_assoc hF f',
          ← meetFacts_assoc hF f]
    _ = Dataflow.meetFacts F f g := by rw [h, h']

theorem below_empty (f : ConstFact ν κ) : Below F f .empty := by
  refine FiniteMap.ext fun v => ?_
  rw [get_meetFacts, FiniteMap.get_empty, Option.merge_none_right]

theorem below_iff : Below F f g ↔ ∀ v, Option.merge (ConstValue.meetWith F.meetConstants) (f.get v) (g.get v) = f.get v :=
  ⟨fun h v => (get_meetFacts f g v).symm.trans (congrArg (·.get v) h), fun h => FiniteMap.ext h⟩

theorem knownBelow_of_below {vars : Finset ν} (hg : Complete vars g) (hr : Ranges vars f) (hr' : Ranges vars g)
    (h : Below F f g) : KnownBelow F (knownOf f) (knownOf g) := by
  intro v x hx
  have hconst : f.get v = some (.const x) := by
    obtain ⟨y, hy, hyx⟩ := Option.bind_eq_some_iff.mp hx
    cases y with
    | const y =>
      cases hyx
      exact hy
    | top => cases hyx
    | bottom => cases hyx
  obtain ⟨y, hy⟩ := Option.isSome_iff_exists.mp (hg v (hr v _ hconst).1)
  have hmeet := below_iff.mp h v
  rw [hconst, hy, Option.merge_some_some] at hmeet
  cases y with
  | top => exact absurd rfl (hr' v _ hy).2
  | bottom => cases hmeet
  | const y =>
    rw [meetWith_const_const] at hmeet
    refine ⟨y, by simp [knownOf, hy, ConstValue.asConst], ?_⟩
    cases hm : F.meetConstants x y with
    | none =>
      rw [hm] at hmeet
      cases hmeet
    | some m =>
      rw [hm] at hmeet
      cases hmeet
      rfl

theorem Below.factAt (hinc : F.Increasing) {vars : Finset ν} {code : List ι}
    (hdefs : ∀ a ∈ code, ∀ v ∈ F.defs a, v ∈ vars) (hg : Complete vars g) (hr : Ranges vars f) (hr' : Ranges vars g)
    (h : Below F f g) (i : Nat) : Below F (factAt F code f i) (factAt F code g i) := by
  induction i with
  | zero => exact h
  | succ i ih =>
    cases ha : code[i]? with
    | none =>
      rw [factAt_succ_of_none ha, factAt_succ_of_none ha]
      exact ih
    | some a =>
      refine below_iff.mpr fun v => ?_
      rw [get_factAt_succ ha, get_factAt_succ ha]
      split
      · next hv =>
        rw [Option.merge_some_some, hinc a _ _ v hv (knownBelow_of_below (hg.factAt i) (hr.factAt hdefs i)
          (hr'.factAt hdefs i) ih)]
      · exact below_iff.mp ih v

end Order

/-! ## The greatest solution -/

section Rounds

variable [DecidableEq ν] {F : ConstantFolder ι ν κ} {c : Cfg ι π}

theorem Below.flowingIn (hF : F.Meets) {x y : Nat → ConstFact ν κ} (h : ∀ e, Below F (x e) (y e)) (n : Nat) :
    Below F ((constPropProblem F c).flowingIn c.edgeView n x) ((constPropProblem F c).flowingIn c.edgeView n y) :=
  joinAll_related (fun _ _ _ _ h h' => Below.meetFacts hF h h') (Below.refl hF) _ (fun e _ => h e) _ (Below.refl hF _)

theorem Below.edgeFact (hF : F.Meets) (hinc : F.Increasing) {edge : EdgeRef EdgeKind}
    (hlive : edge.source ∈ c.blockIds) {f g : ConstFact ν κ} (hg : Complete (variablesOf F.toInstrInfo c) g)
    (hr : Ranges (variablesOf F.toInstrInfo c) f) (hr' : Ranges (variablesOf F.toInstrInfo c) g)
    (h : Below F f g) : Below F (edgeFact F c edge f) (edgeFact F c edge g) := by
  have hat : ∀ i, Below F (Dataflow.factAt F (c.instructions edge.source) f i)
      (Dataflow.factAt F (c.instructions edge.source) g i) :=
    h.factAt hinc (fun a ha v hv => mem_variablesOf hlive ha hv) hg hr hr'
  cases hdeparts : departsBeforeThrows F.toInstrInfo c edge with
  | false =>
    rw [edgeFact_of_not_departs edge hdeparts, edgeFact_of_not_departs edge hdeparts]
    exact hat _
  | true =>
    rw [edgeFact_of_departs edge hdeparts, edgeFact_of_departs edge hdeparts]
    exact joinAll_related (fun _ _ _ _ h h' => Below.meetFacts hF h h') (Below.refl hF) _ (fun i _ => hat i) none
      (hat _)

structure Solves (F : ConstantFolder ι ν κ) (c : Cfg ι π) (x : Nat → ConstFact ν κ) : Prop where
  ranges : ∀ e, Ranges (variablesOf F.toInstrInfo c) (x e)
  equation : ∀ n, ReflTransGen (c.view.toGraphView.Adjacent .outgoing) c.entry n → ∀ e ∈ c.outgoing n,
    x e = edgeFact F c (c.edgeView.edge e) ((constPropProblem F c).flowingIn c.edgeView n x)

variable [DecidableEq κ]

/-- What the rounds keep while visited blocks are complete: the facts are above a solution,
and nothing is recorded at blocks that the entry does not reach. -/
structure Bounding (F : ConstantFolder ι ν κ) (c : Cfg ι π) (y : Nat → ConstFact ν κ)
    (tables : EdgeTables (ConstFact ν κ)) (w : Worklist) : Prop where
  stable : Stable c.edgeView (constPropProblem F c) (Ranges (variablesOf F.toInstrInfo c))
    (fun n => (reachableWorklist c).queued n) tables w
  reached : ∃ steps, Reached (constVisit F c) (constStart F c) ⟨tables, w, steps⟩
  reachable : ∀ n, w.queued n → ReflTransGen (c.view.toGraphView.Adjacent .outgoing) c.entry n
  above : ∀ e, Below F (y e) (tables.facts (constPropProblem F c) e)
  blank : ∀ n, ¬ ReflTransGen (c.view.toGraphView.Adjacent .outgoing) c.entry n →
    tables.input n = .empty ∧ tables.output n = .empty

theorem bounding_start (hc : c.WF) (y : Nat → ConstFact ν κ) :
    Bounding F c y (constStart F c).facts (constStart F c).worklist where
  stable := (falling_start hc).stable
  reached := (falling_start hc).reached
  reachable n hn := ((reachableWorklist_spec hc).2 n).mp hn
  above e := by
    have hempty : (constStart F c).facts.facts (constPropProblem F c) e = .empty := by
      change ((if e ∈ c.edgeView.edgeIds then some FiniteMap.empty else none).getD FiniteMap.empty) = _
      split <;> rfl
    rw [hempty]
    exact below_empty _
  blank _ _ := ⟨rfl, rfl⟩

theorem Bounding.visit (hc : c.WF) (hF : F.Meets) (hinc : F.Increasing) (hcomplete : VisitsComplete F c)
    {y : Nat → ConstFact ν κ} (hy : Solves F c y) {tables : EdgeTables (ConstFact ν κ)} {w w₁ : Worklist} {node : Nat}
    (h : Bounding F c y tables w) (hpop : w.popFirst = (w₁, some node)) :
    ∃ tables' w', constVisit F c node (tables, w₁) = .ok (tables', w') ∧ Bounding F c y tables' w' := by
  obtain ⟨tables', w', hrun, hstable, hnode, hvisit⟩ := h.stable.visit hc.lawful_edgeView (ranges_value hc) hpop
  obtain ⟨steps, hreached⟩ := h.reached
  have hreach := h.reachable node hvisit.queued
  refine ⟨tables', w', hrun, hstable, ⟨_, hreached.round (advance_of_visit hpop hrun)⟩, fun n hn => ?_,
    fun e => ?_, fun n hn => ?_⟩
  · rcases (hvisit.queue_iff n).mp hn with ⟨hn, _⟩ | ⟨e, he, _, hread⟩
    · exact h.reachable n hn
    · obtain ⟨r, hr, hs⟩ := hc.mem_outgoing.mp he
      have htarget : n = (c.edgeView.edge e).target := List.mem_singleton.mp hread
      rw [Cfg.edge_edgeView hr] at htarget
      exact hreach.tail (hc.mem_successors.mpr ⟨e, r, hr, hs, htarget.symm⟩)
  · by_cases he : e ∈ c.outgoing node
    · rw [show tables'.facts (constPropProblem F c) e = _ from hvisit.written e he, value_constProp hc hnode he,
        hy.equation node hreach e he]
      exact Below.edgeFact hF hinc
        (hc.lawful_edgeView.source_live e ((hc.lawful_edgeView.mem_outgoing node hnode e).mp he).1)
        (hcomplete _ hreached w₁ node hpop) (ranges_flowingIn hy.ranges) (ranges_flowingIn h.stable.facts)
        (Below.flowingIn hF h.above node)
    · rw [show tables'.facts (constPropProblem F c) e = tables.facts (constPropProblem F c) e from hvisit.kept e he]
      exact h.above e
  · have hne : n ≠ node := by
      rintro rfl
      exact hn hreach
    obtain ⟨hin, hout⟩ := Prod.mk.inj (hvisit.records_kept n hne)
    obtain ⟨hin', hout'⟩ := h.blank n hn
    exact ⟨hin.trans hin', hout.trans hout'⟩

/-- While visited blocks are complete a solve that returns leaves the greatest solution. -/
theorem greatest_of_compute (hc : c.WF) (hF : F.Meets) (hinc : F.Increasing) (hcomplete : VisitsComplete F c)
    {fuel : Nat} {facts : Facts (ConstFact ν κ)} (h : ConstantPropagation.compute F c fuel = some facts) :
    ∃ x, Solves F c x ∧ (∀ y, Solves F c y → ∀ e, Below F (y e) (x e)) ∧
      (∀ n, ReflTransGen (c.view.toGraphView.Adjacent .outgoing) c.entry n →
        facts.input n = (constPropProblem F c).flowingIn c.edgeView n x ∧
          facts.output n = Dataflow.factAt F (c.instructions n) (facts.input n) (c.instructions n).length) ∧
      ∀ n, ¬ ReflTransGen (c.view.toGraphView.Adjacent .outgoing) c.entry n →
        facts.input n = .empty ∧ facts.output n = .empty := by
  obtain ⟨r, hdrive, rfl⟩ := (compute_eq_some hc).mp h
  obtain ⟨hreached, hend⟩ := reached_of_drive fuel .start hdrive
  have hbounding : ∀ y, Solves F c y → Bounding F c y r.facts r.worklist := fun y hy =>
    hreached.invariant (I := Bounding F c y) (bounding_start hc y) fun _ _ _ _ hI hpop =>
      hI.visit hc hF hinc hcomplete hy hpop
  obtain ⟨hstable, hdone⟩ := stable_of_solve (p := constPropProblem F c) hc.lawful_edgeView
    (P := Ranges (variablesOf F.toInstrInfo c)) ranges_empty (ranges_value hc) (reachableWorklist_spec hc).1
    (fun n hn => reachableWorklist_live hc hn) hdrive
  have hsettled : ∀ n, ReflTransGen (c.view.toGraphView.Adjacent .outgoing) c.entry n →
      (r.facts.input n = (constPropProblem F c).flowingIn c.edgeView n (r.facts.facts (constPropProblem F c)) ∧
        r.facts.output n = Dataflow.factAt F (c.instructions n) (r.facts.input n) (c.instructions n).length) ∧
      ∀ e ∈ c.outgoing n, r.facts.facts (constPropProblem F c) e = edgeFact F c (c.edgeView.edge e)
        ((constPropProblem F c).flowingIn c.edgeView n (r.facts.facts (constPropProblem F c))) := by
    intro n hn
    have hlive := reachable_live hc hn
    obtain ⟨hnode, hedges⟩ := hstable.settled n (((reachableWorklist_spec hc).2 n).mpr hn) hlive (hdone n)
    rw [nodeFacts_constProp] at hnode
    obtain ⟨hin, hout⟩ := Prod.mk.inj hnode
    exact ⟨⟨hin, hout.trans (by rw [← hin])⟩, fun e he => (hedges e he).trans (value_constProp hc hlive he _)⟩
  have hsolves : Solves F c (r.facts.facts (constPropProblem F c)) :=
    ⟨hstable.facts, fun n hn => (hsettled n hn).2⟩
  exact ⟨_, hsolves, fun y hy => (hbounding y hy).above, fun n hn => (hsettled n hn).1,
    (hbounding _ hsolves).blank⟩

end Rounds

/-! ## Renumbering -/

end Dataflow

/-- `c'` is `c` with its blocks and edges renumbered and its adjacency lists reordered. -/
structure Cfg.Renumbered {ι π : Type} (c c' : Cfg ι π) (ν ρ : Nat ≃ Nat) : Prop where
  view : c.edgeView.Renumbered c'.edgeView ν ρ
  entry : c'.entry = ν c.entry
  instructions : ∀ b, c.containsBlock b → c'.instructions (ν b) = c.instructions b

namespace Dataflow

open CfgLib.Lib Relation

variable {ι ν κ π : Type}

section Renumber

variable {c c' : Cfg ι π} {μ ρ : Nat ≃ Nat}

theorem reachable_renumbered (hc : c.WF) (hren : c.Renumbered c' μ ρ) (n : Nat) :
    ReflTransGen (c'.view.toGraphView.Adjacent .outgoing) c'.entry (μ n) ↔
      ReflTransGen (c.view.toGraphView.Adjacent .outgoing) c.entry n := by
  constructor
  · have hback : ∀ m, ReflTransGen (c'.view.toGraphView.Adjacent .outgoing) c'.entry m →
        ReflTransGen (c.view.toGraphView.Adjacent .outgoing) c.entry (μ.symm m) := by
      intro m hm
      induction hm with
      | refl =>
        rw [hren.entry, μ.symm_apply_apply]
      | @tail a b _ hab ih =>
        refine ih.tail ((hren.view.view.mem_neighbors .outgoing (reachable_live hc ih)).mp ?_)
        rw [μ.apply_symm_apply, μ.apply_symm_apply]
        exact hab
    intro hn
    rw [← μ.symm_apply_apply n]
    exact hback _ hn
  · intro hn
    induction hn with
    | refl => rw [hren.entry]
    | tail ha hab ih => exact ih.tail ((hren.view.view.mem_neighbors .outgoing (reachable_live hc ha)).mpr hab)

variable [DecidableEq ν] {F : ConstantFolder ι ν κ}

theorem variablesOf_renumbered (I : InstrInfo ι ν) (hren : c.Renumbered c' μ ρ) :
    variablesOf I c' = variablesOf I c := by
  ext v
  unfold variablesOf
  rw [List.mem_toFinset, List.mem_toFinset, List.mem_flatMap, List.mem_flatMap]
  constructor
  · rintro ⟨b, hb, hv⟩
    have hlive : μ.symm b ∈ c.blockIds := (hren.view.view.nodeIds_iff _).mp (by
      rw [μ.apply_symm_apply]
      exact hb)
    have hinst := hren.instructions _ (Cfg.mem_blockIds.mp hlive)
    rw [μ.apply_symm_apply] at hinst
    exact ⟨_, hlive, hinst ▸ hv⟩
  · rintro ⟨b, hb, hv⟩
    exact ⟨μ b, (hren.view.view.nodeIds_iff b).mpr hb,
      (hren.instructions b (Cfg.mem_blockIds.mp hb)).symm ▸ hv⟩

theorem flowingIn_renumbered (hF : F.Meets) (hren : c.Renumbered c' μ ρ) {n : Nat} (hn : n ∈ c.blockIds)
    (y : Nat → ConstFact ν κ) : (constPropProblem F c').flowingIn c'.edgeView (μ n) y =
      (constPropProblem F c).flowingIn c.edgeView n (y ∘ ρ) := by
  have hboundary : (constPropProblem F c').boundary (μ n) = (constPropProblem F c).boundary n := by
    change (if μ n = c'.entry then _ else none) = if n = c.entry then _ else none
    rw [hren.entry, variablesOf_renumbered F.toInstrInfo hren]
    simp only [μ.injective.eq_iff]
  have hperm : ((c'.incoming (μ n)).map y).Perm ((c.incoming n).map (y ∘ ρ)) := by
    have := (hren.view.edges_perm .incoming n hn).map y
    rwa [List.map_map] at this
  change (joinAll (meetFacts F) ((constPropProblem F c').boundary (μ n)) ((c'.incoming (μ n)).map y)).getD _ =
    (joinAll (meetFacts F) ((constPropProblem F c).boundary n) ((c.incoming n).map (y ∘ ρ))).getD _
  rw [hboundary, joinAll_perm (meetFacts_comm hF) (meetFacts_assoc hF) hperm]
  rfl

theorem edgeFact_renumbered (hren : c.Renumbered c' μ ρ) {edge : EdgeRef EdgeKind} (hlive : edge.source ∈ c.blockIds)
    (f : ConstFact ν κ) : edgeFact F c' (edge.renumber μ ρ) f = edgeFact F c edge f := by
  have hinst : c'.instructions (edge.renumber μ ρ).source = c.instructions edge.source :=
    hren.instructions _ (Cfg.mem_blockIds.mp hlive)
  have hdeparts : departsBeforeThrows F.toInstrInfo c' (edge.renumber μ ρ) =
      departsBeforeThrows F.toInstrInfo c edge := by
    unfold departsBeforeThrows
    rw [hinst]
    rfl
  unfold edgeFact
  change (if departsBeforeThrows F.toInstrInfo c' (edge.renumber μ ρ) then _ else none).getD _ =
    (if departsBeforeThrows F.toInstrInfo c edge then _ else none).getD _
  rw [hdeparts, hinst]

theorem solves_renumbered (hc : c.WF) (hF : F.Meets) (hren : c.Renumbered c' μ ρ) (y : Nat → ConstFact ν κ) :
    Solves F c' y ↔ Solves F c (y ∘ ρ) := by
  have hequation : ∀ n, ReflTransGen (c.view.toGraphView.Adjacent .outgoing) c.entry n → ∀ e ∈ c.outgoing n,
      edgeFact F c' (c'.edgeView.edge (ρ e)) ((constPropProblem F c').flowingIn c'.edgeView (μ n) y) =
        edgeFact F c (c.edgeView.edge e) ((constPropProblem F c).flowingIn c.edgeView n (y ∘ ρ)) := by
    intro n hn e he
    have hlive := reachable_live hc hn
    have hedge := ((hc.lawful_edgeView.mem_outgoing n hlive e).mp he).1
    rw [hren.view.edge_eq e hedge, edgeFact_renumbered hren (hc.lawful_edgeView.source_live e hedge),
      flowingIn_renumbered hF hren hlive]
  have hmem : ∀ n, ReflTransGen (c.view.toGraphView.Adjacent .outgoing) c.entry n → ∀ e,
      ρ e ∈ c'.outgoing (μ n) ↔ e ∈ c.outgoing n := by
    intro n hn e
    exact (hren.view.edges_perm .outgoing n (reachable_live hc hn)).mem_iff.trans
      (List.mem_map_of_injective ρ.injective)
  constructor
  · intro hy
    refine ⟨fun e => variablesOf_renumbered F.toInstrInfo hren ▸ hy.ranges (ρ e), fun n hn e he => ?_⟩
    rw [← hequation n hn e he]
    exact hy.equation (μ n) ((reachable_renumbered hc hren n).mpr hn) (ρ e) ((hmem n hn e).mpr he)
  · intro hy
    refine ⟨fun e => ?_, fun n hn e he => ?_⟩
    · have := hy.ranges (ρ.symm e)
      rw [Function.comp_apply, ρ.apply_symm_apply] at this
      exact (variablesOf_renumbered F.toInstrInfo hren).symm ▸ this
    · obtain ⟨n, rfl⟩ := μ.surjective n
      obtain ⟨e, rfl⟩ := ρ.surjective e
      have hreach := (reachable_renumbered hc hren n).mp hn
      have hout := (hmem n hreach e).mp he
      rw [hequation n hreach e hout]
      exact hy.equation n hreach e hout

variable [DecidableEq κ]

end Renumber

/-! ## Two numberings of one graph -/

theorem meets_moveFolder : moveFolder.Meets where
  idem a := if_pos rfl
  comm a b := by
    change (if a = b then some a else none) = if b = a then some b else none
    by_cases h : a = b
    · rw [h]
    · rw [if_neg h, if_neg (Ne.symm h)]
  assoc a b k := by
    change (if a = b then some a else none).bind (fun x => if x = k then some x else none) =
      (if b = k then some b else none).bind fun x => if a = x then some a else none
    by_cases hab : a = b
    · rw [if_pos hab, hab, Option.bind_some]
      by_cases hbk : b = k
      · rw [if_pos hbk, Option.bind_some, if_pos rfl]
      · rw [if_neg hbk, Option.bind_none]
    · rw [if_neg hab, Option.bind_none]
      by_cases hbk : b = k
      · rw [if_pos hbk, Option.bind_some, if_neg hab]
      · rw [if_neg hbk, Option.bind_none]

theorem increasing_moveFolder : moveFolder.Increasing := by
  intro a known known' v _ hknown
  cases hvalue : definedValue moveFolder a known v with
  | top => exact absurd hvalue (definedValue_ne_top a known v)
  | bottom => exact bottom_meetWith _
  | const x =>
    have hfold : moveFolder.foldConstant a known' = some (v, x) := by
      refine monotone_moveFolder a known known' v x (fun w y hy => ?_) (definedValue_eq_const.mp hvalue)
      obtain ⟨z, hz, hmeet⟩ := hknown w y hy
      change (if y = z then some y else none) = some y at hmeet
      split at hmeet
      · next hyz => rw [hyz, hz]
      · cases hmeet
    rw [definedValue_eq_const.mpr hfold, meetWith_const_const, meets_moveFolder.idem]
    rfl

/-- Two blocks that are entered from the entry and joined. -/
def joinGraph : Cfg Move Unit :=
  Cfg.ofParts [[.set 0 1], [.copy 1 0], [.set 1 1], [.copy 2 1]]
    [(0, 1, .conditionalTrue, ()), (0, 2, .conditionalFalse, ()), (1, 3, .fallthrough, ()), (2, 3, .fallthrough, ())]

/-- The same with the two blocks numbered the other way round. -/
def joinGraph' : Cfg Move Unit :=
  Cfg.ofParts [[.set 0 1], [.set 1 1], [.copy 1 0], [.copy 2 1]]
    [(0, 2, .conditionalTrue, ()), (0, 1, .conditionalFalse, ()), (2, 3, .fallthrough, ()), (1, 3, .fallthrough, ())]

/-- A block that copies variable 2 in a loop with one that goes back to itself. -/
def waitLoop : Cfg Move Unit :=
  Cfg.ofParts [[.set 1 1, .set 2 1], [.copy 1 2], []]
    [(0, 2, .fallthrough, ()), (1, 2, .fallthrough, ()), (2, 1, .conditionalTrue, ()), (2, 2, .conditionalFalse, ())]

/-- The same with the copying block numbered last. -/
def waitLoop' : Cfg Move Unit :=
  Cfg.ofParts [[.set 1 1, .set 2 1], [], [.copy 1 2]]
    [(0, 1, .fallthrough, ()), (2, 1, .fallthrough, ()), (1, 2, .conditionalTrue, ()), (1, 1, .conditionalFalse, ())]

theorem swap_mem_range {n k : Nat} (hk : 3 ≤ k) : Equiv.swap 1 2 n ∈ List.range k ↔ n ∈ List.range k := by
  rw [List.mem_range, List.mem_range, Equiv.swap_apply_def]
  split
  · omega
  · split
    · omega
    · rfl

/-- What is left to compare of two graphs whose live identities correspond. -/
theorem renumbered_of_lists {c c' : Cfg ι π} {μ : Nat ≃ Nat} (hentry : c'.entry = μ c.entry)
    (hnodes : ∀ n, μ n ∈ c'.blockIds ↔ n ∈ c.blockIds) (hedges : ∀ e, e ∈ c'.edgeView.edgeIds ↔ e ∈ c.edgeView.edgeIds)
    (hlists : ∀ n ∈ c.blockIds, (c'.successors (μ n)).Perm ((c.successors n).map μ) ∧
      (c'.predecessors (μ n)).Perm ((c.predecessors n).map μ) ∧ (c'.outgoing (μ n)).Perm (c.outgoing n) ∧
      (c'.incoming (μ n)).Perm (c.incoming n))
    (hedge : ∀ e ∈ c.edgeView.edgeIds, c'.edgeView.edge e = (c.edgeView.edge e).renumber μ (.refl Nat))
    (hinst : ∀ n ∈ c.blockIds, c'.instructions (μ n) = c.instructions n) : c.Renumbered c' μ (.refl Nat) where
  view := by
    refine ⟨⟨hnodes, fun d n hn => ?_⟩, hedges, fun d n hn => ?_, hedge⟩
    · cases d with
      | outgoing => exact (hlists n hn).1
      | incoming => exact (hlists n hn).2.1
    · rw [Equiv.coe_refl, List.map_id]
      cases d with
      | outgoing => exact (hlists n hn).2.2.1
      | incoming => exact (hlists n hn).2.2.2
  entry := hentry
  instructions b hb := hinst b (Cfg.mem_blockIds.mpr hb)

theorem renumbered_joinGraph : joinGraph.Renumbered joinGraph' (Equiv.swap 1 2) (.refl Nat) := by
  refine renumbered_of_lists rfl (fun n => swap_mem_range (k := 4) (by decide)) (fun _ => Iff.rfl)
    (by decide) ?_ ?_
  · intro e he
    have he : e ∈ [0, 1, 2, 3] := he
    obtain rfl | rfl | rfl | rfl : e = 0 ∨ e = 1 ∨ e = 2 ∨ e = 3 := by simpa using he
    all_goals rfl
  · intro n hn
    have hn : n ∈ [0, 1, 2, 3] := hn
    obtain rfl | rfl | rfl | rfl : n = 0 ∨ n = 1 ∨ n = 2 ∨ n = 3 := by simpa using hn
    all_goals rfl

theorem renumbered_waitLoop : waitLoop.Renumbered waitLoop' (Equiv.swap 1 2) (.refl Nat) := by
  refine renumbered_of_lists rfl (fun n => swap_mem_range (k := 3) (by decide)) (fun _ => Iff.rfl)
    (by decide) ?_ ?_
  · intro e he
    have he : e ∈ [0, 1, 2, 3] := he
    obtain rfl | rfl | rfl | rfl : e = 0 ∨ e = 1 ∨ e = 2 ∨ e = 3 := by simpa using he
    all_goals rfl
  · intro n hn
    have hn : n ∈ [0, 1, 2] := hn
    obtain rfl | rfl | rfl : n = 0 ∨ n = 1 ∨ n = 2 := by simpa using hn
    all_goals rfl

end Dataflow

end CfgLib
