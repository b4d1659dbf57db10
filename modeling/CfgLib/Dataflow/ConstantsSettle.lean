import CfgLib.Dataflow.ConstantsSound
import Mathlib.Algebra.Order.BigOperators.Group.Finset

/-!
# When constant propagation settles

A missing variable stands above every value of it, but a replay reads it as unknown.
While every visited block has a fact for every variable and the folder answers no less
when it knows more, the facts on the edges only fall, so the solve returns.
-/

namespace CfgLib.Dataflow

open CfgLib.Lib Relation

variable {ι ν κ π : Type}

def ConstantFolder.Monotone (F : ConstantFolder ι ν κ) : Prop :=
  ∀ a known known' v x, (∀ w y, known.get w = some y → known'.get w = some y) →
    F.foldConstant a known = some (v, x) → F.foldConstant a known' = some (v, x)

/-! ## The height of a value -/

/-- How far an entry can still fall; a missing one is on top. -/
def height : Option (ConstValue κ) → Nat
  | none => 3
  | some .top => 2
  | some (.const _) => 1
  | some .bottom => 0

def Fell (x y : Option (ConstValue κ)) : Prop := x = y ∨ height x < height y

theorem Fell.refl (x : Option (ConstValue κ)) : Fell x x := Or.inl rfl

variable {x y : Option (ConstValue κ)}

theorem Fell.trans {z : Option (ConstValue κ)} (h : Fell x y) (h' : Fell y z) : Fell x z := by
  rcases h with rfl | h
  · exact h'
  · rcases h' with rfl | h'
    · exact Or.inr h
    · exact Or.inr (h.trans h')

theorem Fell.height_le (h : Fell x y) : height x ≤ height y := by
  rcases h with rfl | h
  · exact Nat.le_refl _
  · exact Nat.le_of_lt h

theorem fell_none (x : Option (ConstValue κ)) : Fell x none := by
  rcases x with _ | x | x | x
  · exact Or.inl rfl
  all_goals exact Or.inr (by simp [height])

theorem fell_bottom (y : Option (ConstValue κ)) : Fell (some .bottom) y := by
  rcases y with _ | y | y | y
  · exact fell_none _
  · exact Or.inr (by simp [height])
  · exact Or.inr (by simp [height])
  · exact Fell.refl _

theorem eq_bottom_of_height {k : κ} (h : height x < height (some (.const k))) :
    x = some .bottom := by
  rcases x with _ | x | x | x
  · simp [height] at h
  · simp [height] at h
  · simp [height] at h
  · rfl

section Merge

variable {meet : κ → κ → Option κ}

/-- The entry that a meet of two facts leaves. -/
abbrev mergeEntry (meet : κ → κ → Option κ) (x y : Option (ConstValue κ)) : Option (ConstValue κ) :=
  Option.merge (ConstValue.meetWith meet) x y

theorem mergeEntry_bottom_left (y : Option (ConstValue κ)) : mergeEntry meet (some .bottom) y = some .bottom := by
  rcases y with _ | y | y | y <;> rfl

theorem mergeEntry_bottom_right (x : Option (ConstValue κ)) : mergeEntry meet x (some .bottom) = some .bottom := by
  rcases x with _ | x | x | x <;> rfl

/-- A meet of constants that answers only for equal ones lowers both sides. -/
theorem fell_mergeEntry (hmeet : ∀ a b m, meet a b = some m → m = a ∧ m = b) (x y : Option (ConstValue κ)) :
    Fell (mergeEntry meet x y) x ∧ Fell (mergeEntry meet x y) y := by
  rcases x with _ | x
  · rw [mergeEntry, Option.merge_none_left]
    exact ⟨fell_none _, Fell.refl _⟩
  rcases y with _ | y
  · exact ⟨Fell.refl _, fell_none _⟩
  cases x with
  | top =>
    refine ⟨?_, Fell.refl _⟩
    cases y with
    | top => exact Fell.refl _
    | const b => exact Or.inr (by simp [mergeEntry, ConstValue.meetWith, height])
    | bottom => exact fell_bottom _
  | const a =>
    cases y with
    | top => exact ⟨Fell.refl _, Or.inr (by simp [mergeEntry, ConstValue.meetWith, height])⟩
    | bottom => exact ⟨fell_bottom _, fell_bottom _⟩
    | const b =>
      cases hm : meet a b with
      | none =>
        have hbottom : mergeEntry meet (some (.const a)) (some (.const b)) = some .bottom := by
          simp [mergeEntry, ConstValue.meetWith, hm]
        rw [hbottom]
        exact ⟨fell_bottom _, fell_bottom _⟩
      | some m =>
        obtain ⟨rfl, rfl⟩ := hmeet a b m hm
        have hsame : mergeEntry meet (some (.const m)) (some (.const m)) = some (.const m) := by
          simp [mergeEntry, ConstValue.meetWith, hm]
        rw [hsame]
        exact ⟨Fell.refl _, Fell.refl _⟩
  | bottom =>
    rw [mergeEntry_bottom_left]
    exact ⟨fell_bottom _, fell_bottom _⟩

theorem Fell.merge_left (hmeet : ∀ a b m, meet a b = some m → m = a ∧ m = b) {x x' : Option (ConstValue κ)}
    (h : Fell x x') (y : Option (ConstValue κ)) : Fell (mergeEntry meet x y) (mergeEntry meet x' y) := by
  rcases h with rfl | h
  · exact Fell.refl _
  have hright := (fell_mergeEntry hmeet x y).2
  rcases x' with _ | x'
  · rw [mergeEntry, mergeEntry, Option.merge_none_left]
    exact hright
  cases x' with
  | top =>
    cases y with
    | none =>
      rw [mergeEntry, mergeEntry, Option.merge_none_right, Option.merge_none_right]
      exact Or.inr h
    | some y => exact hright
  | const a =>
    rw [eq_bottom_of_height h, mergeEntry_bottom_left]
    exact fell_bottom _
  | bottom => cases h

theorem Fell.merge_right (hmeet : ∀ a b m, meet a b = some m → m = a ∧ m = b) (x : Option (ConstValue κ))
    {y y' : Option (ConstValue κ)} (h : Fell y y') : Fell (mergeEntry meet x y) (mergeEntry meet x y') := by
  rcases h with rfl | h
  · exact Fell.refl _
  have hleft := (fell_mergeEntry hmeet x y).1
  rcases y' with _ | y'
  · rw [mergeEntry, mergeEntry, Option.merge_none_right]
    exact hleft
  cases y' with
  | top =>
    cases x with
    | none =>
      rw [mergeEntry, mergeEntry, Option.merge_none_left, Option.merge_none_left]
      exact Or.inr h
    | some x =>
      have htop : mergeEntry meet (some x) (some .top) = some x := by cases x <;> rfl
      rw [htop]
      exact hleft
  | const a =>
    rw [eq_bottom_of_height h, mergeEntry_bottom_right]
    exact fell_bottom _
  | bottom => cases h

end Merge

/-! ## Facts that fell -/

/-- A fact each entry of which is that of another or fell from it. -/
def Fallen (f g : ConstFact ν κ) : Prop := ∀ v, Fell (f.get v) (g.get v)

theorem Fallen.refl (f : ConstFact ν κ) : Fallen f f := fun _ => Fell.refl _

theorem Fallen.trans {f g k : ConstFact ν κ} (h : Fallen f g) (h' : Fallen g k) : Fallen f k :=
  fun v => (h v).trans (h' v)

theorem fallen_empty (f : ConstFact ν κ) : Fallen f .empty := fun v => fell_none (f.get v)

section Facts

variable [DecidableEq ν] {F : ConstantFolder ι ν κ} {exec : ι → (ν → κ) → (ν → κ) → Prop} {vars : Finset ν}
  {f f' g g' : ConstFact ν κ}

theorem Fallen.meetFacts (hF : F.Sound exec) (hf : Fallen f' f) (hg : Fallen g' g) :
    Fallen (meetFacts F f' g') (meetFacts F f g) := fun v =>
  ((hf v).merge_left hF.meet (g'.get v)).trans ((hg v).merge_right hF.meet (f.get v))

omit [DecidableEq ν] in
theorem Complete.fallen (hf : Complete vars f) (h : Fallen f' f) : Complete vars f' := by
  intro v hv
  obtain ⟨x, hx⟩ := Option.isSome_iff_exists.mp (hf v hv)
  have hle := (h v).height_le
  rw [hx] at hle
  cases hf' : f'.get v with
  | some _ => rfl
  | none =>
    rw [hf'] at hle
    cases x <;> simp [height] at hle

omit [DecidableEq ν] in
theorem knownOf_of_fallen (hf : Complete vars f) (hr : Ranges vars f) (hr' : Ranges vars f') (h : Fallen f' f)
    {v : ν} {k : κ} (hk : (knownOf f').get v = some k) : (knownOf f).get v = some k := by
  have hconst : ∀ {g : ConstFact ν κ}, (knownOf g).get v = some k ↔ g.get v = some (.const k) := by
    intro g
    unfold knownOf
    rw [FiniteMap.get_filterMap, Option.bind_eq_some_iff]
    constructor
    · rintro ⟨x, hx, hxk⟩
      cases x with
      | const x =>
        cases hxk
        exact hx
      | top => cases hxk
      | bottom => cases hxk
    · exact fun hg => ⟨_, hg, rfl⟩
  rw [hconst] at hk ⊢
  obtain ⟨x, hx⟩ := Option.isSome_iff_exists.mp (hf v (hr' v _ hk).1)
  rcases h v with heq | hlt
  · exact heq ▸ hk
  · rw [hk, hx] at hlt
    cases x with
    | top => exact absurd rfl (hr v _ hx).2
    | const _ => simp [height] at hlt
    | bottom => simp [height] at hlt

theorem Fallen.factAt (hmono : F.Monotone) {code : List ι} (hdefs : ∀ a ∈ code, ∀ v ∈ F.defs a, v ∈ vars)
    (hf : Complete vars f) (hr : Ranges vars f) (hr' : Ranges vars f') (h : Fallen f' f) (i : Nat) :
    Fallen (factAt F code f' i) (factAt F code f i) := by
  induction i with
  | zero => exact h
  | succ i ih =>
    cases ha : code[i]? with
    | none =>
      rw [factAt_succ_of_none ha, factAt_succ_of_none ha]
      exact ih
    | some a =>
      intro v
      rw [get_factAt_succ ha, get_factAt_succ ha]
      split
      · -- more is known before the instruction in the fact that has not fallen
        have hknown : ∀ w y, (knownOf (Dataflow.factAt F code f' i)).get w = some y →
            (knownOf (Dataflow.factAt F code f i)).get w = some y := fun w y =>
          knownOf_of_fallen (hf.factAt i) (hr.factAt hdefs i) (hr'.factAt hdefs i) ih
        cases hvalue : definedValue F a (knownOf (Dataflow.factAt F code f' i)) v with
        | top => exact absurd hvalue (definedValue_ne_top a _ v)
        | bottom => exact fell_bottom _
        | const k =>
          rw [definedValue_eq_const.mpr (hmono a _ _ v k hknown (definedValue_eq_const.mp hvalue))]
          exact Fell.refl _
      · exact ih v

/-- How far a fact can still fall. -/
def weight (vars : Finset ν) (f : ConstFact ν κ) : Nat := ∑ v ∈ vars, height (f.get v)

omit [DecidableEq ν] in
theorem weight_le (h : Fallen f' f) : weight vars f' ≤ weight vars f :=
  Finset.sum_le_sum fun v _ => (h v).height_le

omit [DecidableEq ν] in
theorem weight_lt (hr : Ranges vars f) (hr' : Ranges vars f') (h : Fallen f' f) (hne : f' ≠ f) :
    weight vars f' < weight vars f := by
  obtain ⟨v, hv⟩ : ∃ v, f'.get v ≠ f.get v := by
    by_contra hall
    push Not at hall
    exact hne (FiniteMap.ext hall)
  have hmem : v ∈ vars := by
    cases hx : f.get v with
    | some x => exact (hr v x hx).1
    | none =>
      cases hx' : f'.get v with
      | some x' => exact (hr' v x' hx').1
      | none => exact absurd (hx'.trans hx.symm) hv
  exact Finset.sum_lt_sum (fun w _ => (h w).height_le) ⟨v, hmem, (h v).resolve_left hv⟩

end Facts

/-! ## The rounds -/

section Rounds

variable [DecidableEq ν] {F : ConstantFolder ι ν κ} {exec : ι → (ν → κ) → (ν → κ) → Prop} {c : Cfg ι π}

theorem Fallen.flowingIn (hF : F.Sound exec) {x y : Nat → ConstFact ν κ} (h : ∀ e, Fallen (x e) (y e)) (n : Nat) :
    Fallen ((constPropProblem F c).flowingIn c.edgeView n x) ((constPropProblem F c).flowingIn c.edgeView n y) :=
  joinAll_related (fun _ _ _ _ => Fallen.meetFacts hF) Fallen.refl _ (fun e _ => h e) _ (Fallen.refl _)

theorem Fallen.edgeFact (hF : F.Sound exec) (hmono : F.Monotone) {edge : EdgeRef EdgeKind}
    (hlive : edge.source ∈ c.blockIds) {f f' : ConstFact ν κ} (hf : Complete (variablesOf F.toInstrInfo c) f)
    (hr : Ranges (variablesOf F.toInstrInfo c) f) (hr' : Ranges (variablesOf F.toInstrInfo c) f')
    (h : Fallen f' f) : Fallen (edgeFact F c edge f') (edgeFact F c edge f) := by
  have hat : ∀ i, Fallen (Dataflow.factAt F (c.instructions edge.source) f' i)
      (Dataflow.factAt F (c.instructions edge.source) f i) :=
    h.factAt hmono (fun a ha v hv => mem_variablesOf hlive ha hv) hf hr hr'
  cases hdeparts : departsBeforeThrows F.toInstrInfo c edge with
  | false =>
    rw [edgeFact_of_not_departs edge hdeparts, edgeFact_of_not_departs edge hdeparts]
    exact hat _
  | true =>
    rw [edgeFact_of_departs edge hdeparts, edgeFact_of_departs edge hdeparts]
    exact joinAll_related (fun _ _ _ _ => Fallen.meetFacts hF) Fallen.refl _ (fun i _ => hat i) none (hat _)

variable [DecidableEq κ]

/-- Every visited block has a fact for every variable: at no state of the run is the
popped block replayed from a fact in which a variable of the function is missing. -/
def VisitsComplete (F : ConstantFolder ι ν κ) (c : Cfg ι π) : Prop :=
  ∀ r, Reached (constVisit F c) (constStart F c) r → ∀ w₁ node, r.worklist.popFirst = (w₁, some node) →
    Complete (variablesOf F.toInstrInfo c)
      ((constPropProblem F c).flowingIn c.edgeView node (r.facts.facts (constPropProblem F c)))

/-- What the rounds keep while visited blocks are complete: the facts of a visited block
are above what the next visit gives, those of the others are empty. -/
structure Falling (F : ConstantFolder ι ν κ) (c : Cfg ι π) (tables : EdgeTables (ConstFact ν κ)) (w : Worklist) :
    Prop where
  stable : Stable c.edgeView (constPropProblem F c) (Ranges (variablesOf F.toInstrInfo c))
    (fun n => (reachableWorklist c).queued n) tables w
  reached : ∃ steps, Reached (constVisit F c) (constStart F c) ⟨tables, w, steps⟩
  visited : ∀ n ∈ c.blockIds,
    (∀ e ∈ c.outgoing n, tables.facts (constPropProblem F c) e = .empty) ∨
      Complete (variablesOf F.toInstrInfo c)
          ((constPropProblem F c).flowingIn c.edgeView n (tables.facts (constPropProblem F c))) ∧
        ∀ e ∈ c.outgoing n, Fallen (edgeFact F c (c.edgeView.edge e)
          ((constPropProblem F c).flowingIn c.edgeView n (tables.facts (constPropProblem F c))))
          (tables.facts (constPropProblem F c) e)

variable {tables : EdgeTables (ConstFact ν κ)} {node : Nat} {w w₁ : Worklist}

theorem Falling.visit (hc : c.WF) (hF : F.Sound exec) (hmono : F.Monotone) (hcomplete : VisitsComplete F c)
    (h : Falling F c tables w) (hpop : w.popFirst = (w₁, some node)) :
    ∃ tables' w', constVisit F c node (tables, w₁) = .ok (tables', w') ∧ Falling F c tables' w' ∧
      (∀ e, Fallen (tables'.facts (constPropProblem F c) e) (tables.facts (constPropProblem F c) e)) ∧
      node ∈ c.blockIds ∧ ((constPropProblem F c).system c.edgeView).Visit node
        (tables.state (constPropProblem F c) w) (tables'.state (constPropProblem F c) w') := by
  obtain ⟨tables', w', hrun, hstable, hnode, hvisit⟩ := h.stable.visit hc.lawful_edgeView (ranges_value hc) hpop
  obtain ⟨steps, hreached⟩ := h.reached
  have hfull := hcomplete _ hreached w₁ node hpop
  have hwritten : ∀ e ∈ c.outgoing node, tables'.facts (constPropProblem F c) e =
      edgeFact F c (c.edgeView.edge e)
        ((constPropProblem F c).flowingIn c.edgeView node (tables.facts (constPropProblem F c))) := fun e he =>
    (hvisit.written e he).trans (value_constProp hc hnode he _)
  -- the facts written now are below what was there
  have hfell : ∀ e, Fallen (tables'.facts (constPropProblem F c) e) (tables.facts (constPropProblem F c) e) := by
    intro e
    by_cases he : e ∈ c.outgoing node
    · rw [hwritten e he]
      rcases h.visited node hnode with hempty | ⟨_, hbelow⟩
      · rw [hempty e he]
        exact fallen_empty _
      · exact hbelow e he
    · have hkept : tables'.facts (constPropProblem F c) e = tables.facts (constPropProblem F c) e :=
        hvisit.kept e he
      rw [hkept]
      exact Fallen.refl _
  have hflow := fun n => Fallen.flowingIn (c := c) hF hfell n
  -- a block that had complete facts still has, and its next facts fell with them
  have hnext : ∀ n ∈ c.blockIds, Complete (variablesOf F.toInstrInfo c)
      ((constPropProblem F c).flowingIn c.edgeView n (tables.facts (constPropProblem F c))) →
      ∀ e ∈ c.outgoing n, Fallen
        (edgeFact F c (c.edgeView.edge e)
          ((constPropProblem F c).flowingIn c.edgeView n (tables'.facts (constPropProblem F c))))
        (edgeFact F c (c.edgeView.edge e)
          ((constPropProblem F c).flowingIn c.edgeView n (tables.facts (constPropProblem F c)))) :=
    fun n hn hcomplete e he => Fallen.edgeFact hF hmono
      (hc.lawful_edgeView.source_live e ((hc.lawful_edgeView.mem_outgoing n hn e).mp he).1) hcomplete
      (ranges_flowingIn h.stable.facts) (ranges_flowingIn hstable.facts) (hflow n)
  refine ⟨tables', w', hrun, ⟨hstable, ⟨_, hreached.round (advance_of_visit hpop hrun)⟩, fun n hn => ?_⟩,
    hfell, hnode, hvisit⟩
  by_cases hnn : n = node
  · subst hnn
    refine Or.inr ⟨hfull.fallen (hflow n), fun e he => ?_⟩
    rw [hwritten e he]
    exact hnext n hn hfull e he
  · have hkept : ∀ e ∈ c.outgoing n,
        tables'.facts (constPropProblem F c) e = tables.facts (constPropProblem F c) e := by
      intro e he
      refine hvisit.kept e fun he' => hnn ?_
      rw [← ((hc.lawful_edgeView.mem_outgoing n hn e).mp he).2,
        ((hc.lawful_edgeView.mem_outgoing node hnode e).mp he').2]
    rcases h.visited n hn with hempty | ⟨hfull, hbelow⟩
    · exact Or.inl fun e he => (hkept e he).trans (hempty e he)
    · refine Or.inr ⟨hfull.fallen (hflow n), fun e he => ?_⟩
      rw [hkept e he]
      exact (hnext n hn hfull e he).trans (hbelow e he)

theorem falling_start (hc : c.WF) : Falling F c (constStart F c).facts (constStart F c).worklist where
  stable := stable_init ranges_empty (reachableWorklist_spec hc).1 fun _ hn => reachableWorklist_live hc hn
  reached := ⟨0, .start⟩
  visited n hn := Or.inl fun e _ => by
    change ((if e ∈ c.edgeView.edgeIds then some FiniteMap.empty else none).getD FiniteMap.empty) = _
    split <;> rfl

/-- What a round lowers: how far the facts can fall, then the number of queued blocks. -/
def remaining (F : ConstantFolder ι ν κ) (c : Cfg ι π) (tables : EdgeTables (ConstFact ν κ)) (w : Worklist) : Nat :=
  total (fun e => weight (variablesOf F.toInstrInfo c) (tables.facts (constPropProblem F c) e))
    (List.range c.edgeBound) * (c.blockBound + 1) + w.size c.blockBound

theorem remaining_lt (hc : c.WF) {tables' : EdgeTables (ConstFact ν κ)} {w' : Worklist}
    (h : Falling F c tables w) (h' : Falling F c tables' w')
    (hfell : ∀ e, Fallen (tables'.facts (constPropProblem F c) e) (tables.facts (constPropProblem F c) e))
    (hnode : node ∈ c.blockIds) (hvisit : ((constPropProblem F c).system c.edgeView).Visit node
      (tables.state (constPropProblem F c) w) (tables'.state (constPropProblem F c) w')) :
    remaining F c tables' w' < remaining F c tables w := by
  have hle : ∀ e ∈ List.range c.edgeBound,
      weight (variablesOf F.toInstrInfo c) (tables'.facts (constPropProblem F c) e) ≤
        weight (variablesOf F.toInstrInfo c) (tables.facts (constPropProblem F c) e) := fun e _ => weight_le (hfell e)
  unfold remaining
  by_cases hchange : ∃ e ∈ c.outgoing node,
      tables'.facts (constPropProblem F c) e ≠ tables.facts (constPropProblem F c) e
  · obtain ⟨e, he, hne⟩ := hchange
    obtain ⟨r, hr, _⟩ := hc.mem_outgoing.mp he
    have hdrop := total_drop (d := 1) hle (List.mem_range.mpr (Cfg.edge_lt hr))
      (weight_lt (h.stable.facts e) (h'.stable.facts e) (hfell e) hne)
    have hsize : w'.size c.blockBound ≤ c.blockBound := by
      refine (total_le (f := fun _ => 1) fun i _ => ?_).trans (le_of_eq ?_)
      · split <;> decide
      · rw [total_one, List.length_range]
    have hmul := Nat.mul_le_mul_right (c.blockBound + 1) hdrop
    rw [Nat.succ_mul] at hmul
    omega
  · have hsub : ∀ i, w'.queued i → w.queued i ∧ i ≠ node := by
      intro i hi
      rcases (hvisit.queue_iff i).mp hi with hi | ⟨e, he, hne, _⟩
      · exact hi
      · exact absurd ⟨e, he, hne⟩ hchange
    have hsize := @Worklist.size_lt c.blockBound w w' (fun i hi => (hsub i hi).1) node
      (Cfg.block_lt (Cfg.mem_blockIds.mp hnode)) hvisit.queued (by
        by_contra hq
        exact (hsub node (by simpa using hq)).2 rfl)
    have hmul := Nat.mul_le_mul_right (c.blockBound + 1) (total_le hle)
    omega

/-- While visited blocks are complete every round lowers the facts on the edges, and the
solve returns. -/
theorem compute_of_visitsComplete (hc : c.WF) (hF : F.Sound exec) (hmono : F.Monotone)
    (hcomplete : VisitsComplete F c) :
    (∀ r, Reached (constVisit F c) (constStart F c) r → ∀ r', advance .new (constVisit F c) r = .ok (some r') →
      ∀ e, Fallen (r'.facts.facts (constPropProblem F c) e) (r.facts.facts (constPropProblem F c) e)) ∧
      ∃ N facts, ∀ fuel, N ≤ fuel → ConstantPropagation.compute F c fuel = some facts := by
  constructor
  · intro r hr r' hadvance
    have hfalling := hr.invariant (I := Falling F c) (falling_start hc) fun facts w w₁ node hI hpop => by
      obtain ⟨tables', w', hrun, hI', _⟩ := hI.visit hc hF hmono hcomplete hpop
      exact ⟨tables', w', hrun, hI'⟩
    rcases hpop : r.worklist.popFirst with ⟨w₁, popped⟩
    cases popped with
    | none => simp [advance, hpop] at hadvance
    | some node =>
      obtain ⟨tables', w', hrun, _, hfell, _⟩ := hfalling.visit hc hF hmono hcomplete hpop
      rw [advance_of_visit hpop hrun] at hadvance
      cases hadvance
      exact hfell
  · obtain ⟨N, r, hdrive, _⟩ := drive_terminates (constVisit F c) Nat.lt_wfRel.wf (μ := remaining F c)
      (I := Falling F c) (fun tables w w₁ node hI hpop => by
        obtain ⟨tables', w', hrun, hI', hfell, hnode, hvisit⟩ := hI.visit hc hF hmono hcomplete hpop
        exact ⟨tables', w', hrun, hI', remaining_lt hc hI hI' hfell hnode hvisit⟩)
      (constStart F c) (falling_start hc)
    exact ⟨N, _, fun fuel hfuel => (compute_eq_some hc).mpr ⟨r, hdrive fuel hfuel, rfl⟩⟩

/-! ## Numberings that settle -/

/-- Every other block that the entry reaches has an edge from a reachable block with a
smaller number. -/
def NumberedFromEntry (c : Cfg ι π) : Prop :=
  ∀ n, ReflTransGen (c.view.toGraphView.Adjacent .outgoing) c.entry n → n ≠ c.entry →
    ∃ e r, c.edge e = some r ∧ r.target = n ∧ r.source < n ∧
      ReflTransGen (c.view.toGraphView.Adjacent .outgoing) c.entry r.source

omit [DecidableEq κ] in
theorem complete_flowingIn {vars : Finset ν} {n : Nat} {x : Nat → ConstFact ν κ}
    (h : ∃ f, ((constPropProblem F c).boundary n = some f ∨ ∃ e ∈ c.incoming n, x e = f) ∧ Complete vars f) :
    Complete vars ((constPropProblem F c).flowingIn c.edgeView n x) :=
  flowingIn_inherits (P := fun _ => True) (fun _ _ _ _ => trivial) (fun _ _ _ _ h => Complete.meetFacts h)
    (fun _ _ => trivial) (fun _ => trivial) h

omit [DecidableEq κ] in
theorem complete_edgeFact {vars : Finset ν} (edge : EdgeRef EdgeKind) {f : ConstFact ν κ} (hf : Complete vars f) :
    Complete vars (edgeFact F c edge f) :=
  edgeFact_keeps (fun _ _ h _ => Complete.meetFacts (Or.inl h)) edge hf.factAt

/-- What the rounds keep under such a numbering: the edges out of a block that is not
queued are complete. -/
structure Sweeping (F : ConstantFolder ι ν κ) (c : Cfg ι π) (tables : EdgeTables (ConstFact ν κ)) (w : Worklist) :
    Prop where
  stable : Stable c.edgeView (constPropProblem F c) (Ranges (variablesOf F.toInstrInfo c))
    (fun n => (reachableWorklist c).queued n) tables w
  reachable : ∀ n, w.queued n → ReflTransGen (c.view.toGraphView.Adjacent .outgoing) c.entry n
  swept : ∀ n, ReflTransGen (c.view.toGraphView.Adjacent .outgoing) c.entry n → ¬ w.queued n →
    ∀ e ∈ c.outgoing n, Complete (variablesOf F.toInstrInfo c) (tables.facts (constPropProblem F c) e)

omit [DecidableEq κ] in
/-- The block that is popped has the least number, so a block with a smaller number has
completed one of its edges. -/
theorem Sweeping.complete (hc : c.WF) (hnum : NumberedFromEntry c) {tables : EdgeTables (ConstFact ν κ)}
    {w w₁ : Worklist} {node : Nat} (h : Sweeping F c tables w) (hpop : w.popFirst = (w₁, some node)) :
    Complete (variablesOf F.toInstrInfo c)
      ((constPropProblem F c).flowingIn c.edgeView node (tables.facts (constPropProblem F c))) := by
  have hspec := (Worklist.popFirst_spec h.stable.wf).2
  rw [hpop] at hspec
  by_cases hentry : node = c.entry
  · refine complete_flowingIn ⟨_, Or.inl (if_pos hentry), fun v hv => ?_⟩
    rw [FiniteMap.get_constant, if_pos hv]
    rfl
  · obtain ⟨e, r, hr, htarget, hlt, hreach⟩ := hnum node (h.reachable node hspec.1) hentry
    refine complete_flowingIn ⟨_, Or.inr ⟨e, hc.mem_incoming.mpr ⟨r, hr, htarget⟩, rfl⟩, ?_⟩
    refine h.swept r.source hreach (fun hq => ?_) e (hc.mem_outgoing.mpr ⟨r, hr, rfl⟩)
    exact absurd (Worklist.popFirst_le h.stable.wf hpop hq) (Nat.not_le_of_lt hlt)

theorem Sweeping.visit (hc : c.WF) (hnum : NumberedFromEntry c)
    (h : Sweeping F c tables w) (hpop : w.popFirst = (w₁, some node)) :
    ∃ tables' w', constVisit F c node (tables, w₁) = .ok (tables', w') ∧ Sweeping F c tables' w' := by
  obtain ⟨tables', w', hrun, hstable, hnode, hvisit⟩ := h.stable.visit hc.lawful_edgeView (ranges_value hc) hpop
  have hreach := h.reachable node hvisit.queued
  refine ⟨tables', w', hrun, hstable, fun n hn => ?_, fun n hn hq e he => ?_⟩
  · rcases (hvisit.queue_iff n).mp hn with ⟨hn, _⟩ | ⟨e, he, _, hread⟩
    · exact h.reachable n hn
    · obtain ⟨r, hr, hs⟩ := hc.mem_outgoing.mp he
      have htarget : n = (c.edgeView.edge e).target := List.mem_singleton.mp hread
      rw [Cfg.edge_edgeView hr] at htarget
      exact hreach.tail (hc.mem_successors.mpr ⟨e, r, hr, hs, htarget.symm⟩)
  · by_cases hnn : n = node
    · subst hnn
      rw [show tables'.facts (constPropProblem F c) e = _ from hvisit.written e he, value_constProp hc hnode he]
      exact complete_edgeFact _ (h.complete hc hnum hpop)
    · have hkept : tables'.facts (constPropProblem F c) e = tables.facts (constPropProblem F c) e := by
        refine hvisit.kept e fun he' => hnn ?_
        rw [← ((hc.lawful_edgeView.mem_outgoing n (reachable_live hc hn) e).mp he).2,
          ((hc.lawful_edgeView.mem_outgoing node hnode e).mp he').2]
      rw [hkept]
      exact h.swept n hn (fun hold => hq ((hvisit.queue_iff n).mpr (Or.inl ⟨hold, hnn⟩))) e he

theorem visitsComplete_of_numbered (hc : c.WF) (hnum : NumberedFromEntry c) : VisitsComplete F c := by
  intro r hr w₁ node hpop
  have hqueued := (reachableWorklist_spec hc).2
  have hstart : Sweeping F c (constStart F c).facts (constStart F c).worklist :=
    ⟨(falling_start hc).stable, fun n hn => (hqueued n).mp hn, fun n hn hq => absurd ((hqueued n).mpr hn) hq⟩
  exact (hr.invariant (I := Sweeping F c) hstart fun _ _ _ _ hI hpop => hI.visit hc hnum hpop).complete hc hnum hpop

/-! ## What the analysis promises -/

end Rounds

/-! ## Copies -/

inductive Move where
  | set (target value : Nat)
  | copy (target source : Nat)

/-- The constants that loads and copies move around. -/
def moveFolder : ConstantFolder Move Nat Nat where
  uses
    | .set _ _ => []
    | .copy _ source => [source]
  defs
    | .set target _ | .copy target _ => [target]
  mayUnwind _ := false
  foldConstant a known :=
    match a with
    | .set target value => some (target, value)
    | .copy target source => (known.get source).map fun value => (target, value)
  meetConstants a b := if a = b then some a else none

def moveExec : Move → (Nat → Nat) → (Nat → Nat) → Prop
  | .set target value, s, s' => s' = Function.update s target value
  | .copy target source, s, s' => s' = Function.update s target (s source)

theorem sound_moveFolder : moveFolder.Sound moveExec where
  frame := by
    intro a s s' v hexec hv
    cases a with
    | set target value =>
      cases hexec
      exact Function.update_of_ne (fun h => hv (List.mem_singleton.mpr h)) _ _
    | copy target source =>
      cases hexec
      exact Function.update_of_ne (fun h => hv (List.mem_singleton.mpr h)) _ _
  fold := by
    intro a known s s' v x hexec hknown hfold _
    cases a with
    | set target value =>
      cases hexec
      cases hfold
      exact Function.update_self _ _ _
    | copy target source =>
      cases hexec
      obtain ⟨value, hvalue, heq⟩ := Option.map_eq_some_iff.mp hfold
      cases heq
      rw [Function.update_self]
      exact hknown source _ hvalue
  meet := by
    intro a b m h
    change (if a = b then some a else none) = some m at h
    split at h
    · next hab =>
      cases h
      exact ⟨rfl, hab⟩
    · cases h

theorem monotone_moveFolder : moveFolder.Monotone := by
  intro a known known' v x hknown hfold
  cases a with
  | set target value => exact hfold
  | copy target source =>
    obtain ⟨value, hvalue, heq⟩ := Option.map_eq_some_iff.mp hfold
    exact Option.map_eq_some_iff.mpr ⟨value, hknown source value hvalue, heq⟩

/-- A loop that copies between two variables. -/
def copyLoop : Cfg Move Unit :=
  Cfg.ofParts [[.set 0 1], [.copy 1 0, .copy 0 1], [.copy 2 1]]
    [(0, 1, .fallthrough, ()), (1, 1, .back, ()), (1, 2, .fallthrough, ())]

theorem wf_copyLoop : copyLoop.WF := Cfg.wf_ofParts rfl

theorem numbered_copyLoop : NumberedFromEntry copyLoop := by
  have hfirst : ReflTransGen (copyLoop.view.toGraphView.Adjacent .outgoing) 0 1 :=
    .single (by decide : (1 : Nat) ∈ copyLoop.successors 0)
  intro n hn hentry
  have hlive : n ∈ [0, 1, 2] := reachable_live wf_copyLoop hn
  obtain rfl | rfl | rfl : n = 0 ∨ n = 1 ∨ n = 2 := by simpa using hlive
  · exact absurd rfl hentry
  · exact ⟨0, _, rfl, rfl, Nat.zero_lt_one, .refl⟩
  · exact ⟨2, _, rfl, rfl, Nat.one_lt_two, hfirst⟩

/-- A block that swaps variables 0 and 1 through 3 and goes back to itself, or to a block
with a smaller number that copies variable 2. -/
def swapLoop : Cfg Move Unit :=
  Cfg.ofParts [[.set 0 1, .set 1 1, .set 2 1], [.set 0 1, .copy 1 2], [.copy 3 0, .copy 0 1, .copy 1 3]]
    [(0, 2, .fallthrough, ()), (1, 2, .fallthrough, ()), (2, 1, .conditionalTrue, ()),
      (2, 2, .conditionalFalse, ())]

theorem wf_swapLoop : swapLoop.WF := Cfg.wf_ofParts rfl

def factOf (values : List (ConstValue Nat)) : ConstFact Nat Nat :=
  values.zipIdx.foldl (fun f entry => f.insert entry.2 entry.1) .empty

/-- What the swapping block hands on: before and after a swap of the two variables. -/
def swapFact (second : Bool) : ConstFact Nat Nat :=
  if second then factOf [.const 1, .bottom, .const 1, .bottom] else factOf [.bottom, .const 1, .const 1, .const 1]

/-- The facts on the four edges between two rounds. -/
def swapFacts (copied left again : Bool) : Nat → ConstFact Nat Nat
  | 0 => factOf [.const 1, .const 1, .const 1, .bottom]
  | 1 => factOf [.const 1, .const 1, .const 1, if copied then .const 1 else .bottom]
  | 2 => swapFact left
  | 3 => swapFact again
  | _ => .empty

/-- Whatever block is visited next, the facts stay of this form, and a visit to the
swapping block changes what it hands on to itself. -/
theorem visit_swapFacts : ∀ node ∈ [0, 1, 2], ∀ copied left again : Bool, ∃ copied' left' again' : Bool,
    (node = 2 → swapFact again' ≠ swapFact again) ∧ ∀ e ∈ List.range 4,
      (if e ∈ swapLoop.outgoing node then edgeFact moveFolder swapLoop (swapLoop.edgeView.edge e)
        ((constPropProblem moveFolder swapLoop).flowingIn swapLoop.edgeView node (swapFacts copied left again))
      else swapFacts copied left again e) = swapFacts copied' left' again' e := by
  decide

/-- The states between the rounds that go on for ever. -/
def Swapping (r : Run (EdgeTables (ConstFact Nat Nat))) : Prop :=
  Reached (constVisit moveFolder swapLoop) (constStart moveFolder swapLoop) r ∧ r.worklist.queued 2 ∧
    ∃ copied left again : Bool, ∀ e ∈ List.range 4,
      r.facts.facts (constPropProblem moveFolder swapLoop) e = swapFacts copied left again e

theorem Swapping.round {r : Run (EdgeTables (ConstFact Nat Nat))} (h : Swapping r) :
    ∃ r', advance .new (constVisit moveFolder swapLoop) r = .ok (some r') ∧ Swapping r' := by
  obtain ⟨hreached, hqueued, copied, left, again, hfacts⟩ := h
  have hstable := hreached.invariant
    (I := Stable swapLoop.edgeView (constPropProblem moveFolder swapLoop)
      (Ranges (variablesOf moveFolder.toInstrInfo swapLoop)) fun n => (reachableWorklist swapLoop).queued n)
    (falling_start wf_swapLoop).stable fun _ _ _ _ hI hpop => by
      obtain ⟨tables', w', hrun, hI', _⟩ := hI.visit wf_swapLoop.lawful_edgeView (ranges_value wf_swapLoop) hpop
      exact ⟨tables', w', hrun, hI'⟩
  rcases hpop : r.worklist.popFirst with ⟨w₁, popped⟩
  have hspec := (Worklist.popFirst_spec hstable.wf).2
  rw [hpop] at hspec
  cases popped with
  | none => exact absurd hqueued (by simp [hspec 2])
  | some node =>
    obtain ⟨tables', w', hrun, _, hnode, hvisit⟩ :=
      hstable.visit wf_swapLoop.lawful_edgeView (ranges_value wf_swapLoop) hpop
    have hnode' : node ∈ [0, 1, 2] := hnode
    have hadvance := advance_of_visit hpop hrun
    obtain ⟨copied', left', again', hchange, hnext⟩ := visit_swapFacts node hnode' copied left again
    -- the visit reads only the four edges
    have hflow : (constPropProblem moveFolder swapLoop).flowingIn swapLoop.edgeView node
        (r.facts.facts (constPropProblem moveFolder swapLoop)) =
        (constPropProblem moveFolder swapLoop).flowingIn swapLoop.edgeView node (swapFacts copied left again) :=
      flowingIn_congr fun e he => hfacts e (by
        have hedges : ∀ n ∈ [0, 1, 2], ∀ e ∈ swapLoop.incoming n, e ∈ List.range 4 := by decide
        exact hedges node hnode' e he)
    have hfacts' : ∀ e ∈ List.range 4,
        tables'.facts (constPropProblem moveFolder swapLoop) e = swapFacts copied' left' again' e := by
      intro e he
      rw [← hnext e he]
      split
      · next hout =>
        rw [← hflow, ← value_constProp wf_swapLoop hnode hout]
        exact hvisit.written e hout
      · next hout =>
        rw [← hfacts e he]
        exact hvisit.kept e hout
    refine ⟨_, hadvance, hreached.round hadvance, ?_, copied', left', again', hfacts'⟩
    by_cases htwo : node = 2
    · -- the edge from the swapping block to itself changed
      subst htwo
      refine (hvisit.queue_iff 2).mpr (Or.inr ⟨3, by decide, ?_, by decide⟩)
      have hold := hfacts 3 (by decide)
      have hnew := hfacts' 3 (by decide)
      intro heq
      exact hchange rfl (hnew.symm.trans ((show tables'.facts (constPropProblem moveFolder swapLoop) 3 =
        r.facts.facts (constPropProblem moveFolder swapLoop) 3 from heq).trans hold))
    · exact (hvisit.queue_iff 2).mpr (Or.inl ⟨hqueued, Ne.symm htwo⟩)

end CfgLib.Dataflow
