import CfgLib.Dataflow.Constants
import CfgLib.Dataflow.Rounds

/-!
# Constant propagation is sound

An execution takes normal edges from the ends of blocks and unwind edges from before
throwing instructions.  A fact that has an entry for every variable of the function
and describes the store goes on doing so along every step, whatever facts it is met
with on the way.
-/

namespace CfgLib.Dataflow

open CfgLib.Lib Relation List

variable {ι ν κ π : Type}

inductive StoreStep (F : Flow ι) (throws : ι → Bool) (exec : ι → (ν → κ) → (ν → κ) → Prop) :
    (Nat × Nat) × (ν → κ) → (Nat × Nat) × (ν → κ) → Prop
  | exec {b i : Nat} {l : List ι} {a : ι} {s s' : ν → κ} :
    F.code b = some l → l[i]? = some a → exec a s s' → StoreStep F throws exec ((b, i), s) ((b, i + 1), s')
  | leave {b t : Nat} {l : List ι} {s : ν → κ} :
    F.code b = some l → F.normal b t → StoreStep F throws exec ((b, l.length), s) ((t, 0), s)
  | raise {b t i : Nat} {l : List ι} {a : ι} {s : ν → κ} :
    F.code b = some l → l[i]? = some a → throws a = true → F.unwind b t →
      StoreStep F throws exec ((b, i), s) ((t, 0), s)

/-- A folder whose answers are right for what the instructions do to a store. -/
structure ConstantFolder.Sound (F : ConstantFolder ι ν κ) (exec : ι → (ν → κ) → (ν → κ) → Prop) : Prop where
  frame : ∀ a s s' v, exec a s s' → v ∉ F.defs a → s' v = s v
  fold : ∀ a known s s' v x, exec a s s' → (∀ w y, known.get w = some y → s w = y) →
    F.foldConstant a known = some (v, x) → v ∈ F.defs a → s' v = x
  meet : ∀ a b m, F.meetConstants a b = some m → m = a ∧ m = b

/-! ## Facts about a store -/

/-- A fact says nothing false about a store. -/
def Describes (f : ConstFact ν κ) (s : ν → κ) : Prop := ∀ v x, f.get v = some (.const x) → s v = x

/-- A fact of the variables `vars`; an entry that is there is known or overdefined. -/
def Ranges (vars : Finset ν) (f : ConstFact ν κ) : Prop := ∀ v x, f.get v = some x → v ∈ vars ∧ x ≠ .top

/-- Every variable of `vars` has been analyzed. -/
def Complete (vars : Finset ν) (f : ConstFact ν κ) : Prop := ∀ v ∈ vars, (f.get v).isSome

variable {α : Type} {P : α → Prop}

theorem joinAll_keeps {meet : α → α → α} (hmeet : ∀ a b, P a → P b → P (meet a b))
    (facts : List α) : ∀ init : Option α, (∀ a, init = some a → P a) → (∀ a ∈ facts, P a) →
      ∀ r, joinAll meet init facts = some r → P r := by
  induction facts with
  | nil => exact fun _ hinit _ r hr => hinit r hr
  | cons fact facts ih =>
    intro init hinit hfacts
    refine ih (some (init.elim fact (meet · fact))) (fun a ha => ?_) fun a ha =>
      hfacts a (mem_cons_of_mem _ ha)
    cases ha
    cases init with
    | none => exact hfacts fact mem_cons_self
    | some current => exact hmeet _ _ (hinit current rfl) (hfacts fact mem_cons_self)

/-- A merge has what one of the merged facts has, when the operation hands it on from
either side. -/
theorem joinAll_inherits {Q : α → Prop} (meet : α → α → α)
    (hmeet : ∀ a b, P a → P b → P (meet a b)) (hQ : ∀ a b, P a → P b → Q a ∨ Q b → Q (meet a b))
    (facts : List α) : ∀ init : Option α, (∀ a, init = some a → P a) → (∀ a ∈ facts, P a) →
      (∃ a, (init = some a ∨ a ∈ facts) ∧ Q a) → ∃ r, joinAll meet init facts = some r ∧ Q r := by
  induction facts with
  | nil =>
    rintro init _ _ ⟨a, ha, hq⟩
    exact ⟨a, ha.resolve_right not_mem_nil, hq⟩
  | cons fact facts ih =>
    rintro init hinit hfacts ⟨a, ha, hq⟩
    have hfact := hfacts fact mem_cons_self
    refine ih (some (init.elim fact (meet · fact))) (fun b hb => ?_)
      (fun b hb => hfacts b (mem_cons_of_mem _ hb)) ?_
    · cases hb
      cases init with
      | none => exact hfact
      | some current => exact hmeet _ _ (hinit current rfl) hfact
    · cases init with
      | none =>
        rcases mem_cons.mp (ha.resolve_left (by simp)) with rfl | ha
        · exact ⟨a, Or.inl rfl, hq⟩
        · exact ⟨a, Or.inr ha, hq⟩
      | some current =>
        have hcurrent := hinit current rfl
        rcases ha with ha | ha
        · cases ha
          exact ⟨_, Or.inl rfl, hQ _ _ hcurrent hfact (Or.inl hq)⟩
        · rcases mem_cons.mp ha with rfl | ha
          · exact ⟨_, Or.inl rfl, hQ _ _ hcurrent hfact (Or.inr hq)⟩
          · exact ⟨a, Or.inr ha, hq⟩

section Facts

variable [DecidableEq ν] {F : ConstantFolder ι ν κ} {exec : ι → (ν → κ) → (ν → κ) → Prop} {vars : Finset ν}
  {f g : ConstFact ν κ} {s s' : ν → κ} {a : ι}

theorem meetWith_ne_top {meet : κ → κ → Option κ} {x y : ConstValue κ} (hx : x ≠ .top) (hy : y ≠ .top) :
    x.meetWith meet y ≠ .top := by
  cases x with
  | top => exact absurd rfl hx
  | bottom => cases y <;> first | exact absurd rfl hy | simp [ConstValue.meetWith]
  | const x =>
    cases y with
    | top => exact absurd rfl hy
    | bottom => simp [ConstValue.meetWith]
    | const y => cases h : meet x y <;> simp [ConstValue.meetWith, h]

omit [DecidableEq ν] in
theorem meetWith_eq_const (hF : F.Sound exec) {x y : ConstValue κ} {k : κ} (hx : x ≠ .top) (hy : y ≠ .top)
    (h : x.meetWith F.meetConstants y = .const k) : x = .const k ∧ y = .const k := by
  cases x with
  | top => exact absurd rfl hx
  | bottom => cases y <;> first | exact absurd rfl hy | cases h
  | const x =>
    cases y with
    | top => exact absurd rfl hy
    | bottom => cases h
    | const y =>
      cases hm : F.meetConstants x y with
      | none => simp [ConstValue.meetWith, hm] at h
      | some m =>
        simp only [ConstValue.meetWith, hm, Option.map_some, Option.getD_some, ConstValue.const.injEq] at h
        obtain ⟨rfl, rfl⟩ := hF.meet x y m hm
        exact ⟨congrArg _ h, congrArg _ h⟩

theorem get_meetFacts (f g : ConstFact ν κ) (v : ν) :
    (meetFacts F f g).get v = Option.merge (ConstValue.meetWith F.meetConstants) (f.get v) (g.get v) := rfl

theorem Ranges.meetFacts (hf : Ranges vars f) (hg : Ranges vars g) : Ranges vars (meetFacts F f g) := by
  intro v x hx
  rw [get_meetFacts] at hx
  cases hl : f.get v with
  | none =>
    rw [hl, Option.merge_none_left] at hx
    exact hg v x hx
  | some y =>
    cases hr : g.get v with
    | none =>
      rw [hl, hr, Option.merge_none_right] at hx
      exact hf v x (hl.trans hx)
    | some z =>
      rw [hl, hr] at hx
      cases hx
      exact ⟨(hf v y hl).1, meetWith_ne_top (hf v y hl).2 (hg v z hr).2⟩

theorem Complete.meetFacts (h : Complete vars f ∨ Complete vars g) : Complete vars (meetFacts F f g) := by
  intro v hv
  rw [get_meetFacts]
  rcases h with h | h
  · obtain ⟨x, hx⟩ := Option.isSome_iff_exists.mp (h v hv)
    rw [hx]
    cases g.get v <;> rfl
  · obtain ⟨x, hx⟩ := Option.isSome_iff_exists.mp (h v hv)
    rw [hx]
    cases f.get v <;> rfl

theorem Describes.meetFacts (hF : F.Sound exec) (hf : Ranges vars f) (hg : Ranges vars g)
    (h : Complete vars f ∧ Describes f s ∨ Complete vars g ∧ Describes g s) : Describes (meetFacts F f g) s := by
  intro v k hk
  rw [get_meetFacts] at hk
  -- an entry of either fact is an entry of the complete one
  cases hl : f.get v with
  | none =>
    rw [hl, Option.merge_none_left] at hk
    rcases h with h | h
    · have := h.1 v (hg v _ hk).1
      rw [hl] at this
      cases this
    · exact h.2 v k hk
  | some x =>
    cases hr : g.get v with
    | none =>
      rw [hl, hr, Option.merge_none_right] at hk
      rcases h with h | h
      · exact h.2 v k (hl.trans hk)
      · have := h.1 v (hf v x hl).1
        rw [hr] at this
        cases this
    | some y =>
      rw [hl, hr] at hk
      obtain ⟨rfl, rfl⟩ := meetWith_eq_const hF (hf v x hl).2 (hg v y hr).2 (Option.some.inj hk)
      rcases h with h | h
      · exact h.2 v k hl
      · exact h.2 v k hr

/-! ## Replay -/

/-- What an instruction leaves in a variable that it defines. -/
def definedValue (F : ConstantFolder ι ν κ) (a : ι) (known : FiniteMap ν κ) (v : ν) : ConstValue κ :=
  (((F.foldConstant a known).filter fun f => f.1 = v).map fun f => .const f.2).getD .bottom

theorem definedValue_ne_top (a : ι) (known : FiniteMap ν κ) (v : ν) : definedValue F a known v ≠ .top := by
  unfold definedValue
  cases (F.foldConstant a known).filter fun f => f.1 = v with
  | none => simp
  | some _ => simp

theorem definedValue_eq_const {known : FiniteMap ν κ} {v : ν} {x : κ} :
    definedValue F a known v = .const x ↔ F.foldConstant a known = some (v, x) := by
  unfold definedValue
  cases hfold : F.foldConstant a known with
  | none => simp
  | some f =>
    obtain ⟨w, y⟩ := f
    by_cases hw : w = v
    · subst hw
      simp [Option.filter]
    · simp [hw, Option.filter]

theorem knownOf_define {state : ConstFact ν κ × FiniteMap ν κ} (h : state.2 = knownOf state.1)
    (definition : ν × ConstValue κ) : (define state definition).2 = knownOf (define state definition).1 := by
  ext v
  unfold define knownOf
  by_cases hv : v = definition.1
  · cases definition.2 <;> simp [hv, ConstValue.asConst]
  · cases definition.2 <;> simp [hv, h, knownOf, ConstValue.asConst]

/-- One instruction sets what it defines and nothing else; the known constants keep up. -/
theorem constStep_spec (a : ι) (f : ConstFact ν κ) :
    (constStep F (f, knownOf f) a).2 = knownOf (constStep F (f, knownOf f) a).1 ∧
      ∀ v, (constStep F (f, knownOf f) a).1.get v =
        if v ∈ F.defs a then some (definedValue F a (knownOf f) v) else f.get v := by
  have hfold : ∀ (value : ν → ConstValue κ) (defs : List ν) (state : ConstFact ν κ × FiniteMap ν κ),
      state.2 = knownOf state.1 →
      ((defs.map fun d => (d, value d)).foldl define state).2 =
          knownOf ((defs.map fun d => (d, value d)).foldl define state).1 ∧
        ∀ v, ((defs.map fun d => (d, value d)).foldl define state).1.get v =
          if v ∈ defs then some (value v) else state.1.get v := by
    intro value defs
    induction defs with
    | nil => exact fun state h => ⟨h, fun v => by simp⟩
    | cons d defs ih =>
      intro state h
      obtain ⟨h₁, h₂⟩ := ih (define state (d, value d)) (knownOf_define h _)
      refine ⟨h₁, fun v => (h₂ v).trans ?_⟩
      by_cases hv : v ∈ defs
      · simp [hv]
      · by_cases hd : v = d
        · subst hd
          simp [hv, define]
        · simp [hv, hd, define]
  exact hfold (definedValue F a (knownOf f)) (F.defs a) (f, knownOf f) rfl

/-- What is known before the instruction at a place of the code. -/
def factAt (F : ConstantFolder ι ν κ) (code : List ι) (f : ConstFact ν κ) (i : Nat) : ConstFact ν κ :=
  ((code.take i).foldl (constStep F) (f, knownOf f)).1

theorem replayConstants_fst (code : List ι) (f : ConstFact ν κ) :
    (replayConstants F code f).1 = factAt F code f code.length := by
  change (replayBlock F.mayUnwind (constStep F) code (f, knownOf f)).1.1 = _
  rw [replayBlock_fst, factAt, take_length]

theorem replayConstants_snd (code : List ι) (f : ConstFact ν κ) :
    (replayConstants F code f).2 = (throwingPlaces F.mayUnwind code).map (factAt F code f) := by
  change (replayBlock F.mayUnwind (constStep F) code (f, knownOf f)).2.map Prod.fst = _
  rw [replayBlock_snd, List.map_map]
  rfl

variable {code : List ι} {i : Nat}

theorem get_factAt_succ (ha : code[i]? = some a) (f : ConstFact ν κ) (v : ν) :
    (factAt F code f (i + 1)).get v =
      if v ∈ F.defs a then some (definedValue F a (knownOf (factAt F code f i)) v)
      else (factAt F code f i).get v := by
  have hknown : ∀ (l : List ι) (f : ConstFact ν κ), (l.foldl (constStep F) (f, knownOf f)).2 =
      knownOf (l.foldl (constStep F) (f, knownOf f)).1 := by
    intro l
    induction l with
    | nil => exact fun _ => rfl
    | cons b l ih =>
      intro f
      have hstep : constStep F (f, knownOf f) b = ((constStep F (f, knownOf f) b).1,
          knownOf (constStep F (f, knownOf f) b).1) := Prod.ext rfl (constStep_spec b f).1
      rw [foldl_cons, hstep]
      exact ih _
  have hlast : factAt F code f (i + 1) = (constStep F (factAt F code f i, knownOf (factAt F code f i)) a).1 := by
    unfold factAt
    rw [take_add_one, ha, Option.toList_some, foldl_append, foldl_cons, foldl_nil]
    congr 2
    exact Prod.ext rfl (hknown _ _)
  rw [hlast]
  exact (constStep_spec a _).2 v

theorem factAt_succ_of_none (h : code[i]? = none) (f : ConstFact ν κ) :
    factAt F code f (i + 1) = factAt F code f i := by
  have hlen := List.getElem?_eq_none_iff.mp h
  unfold factAt
  rw [take_of_length_le hlen, take_of_length_le (Nat.le_succ_of_le hlen)]

theorem factAt_induction {P : ConstFact ν κ → Prop} (hf : P f)
    (hstep : ∀ i a, code[i]? = some a → P (factAt F code f i) → P (factAt F code f (i + 1))) (i : Nat) :
    P (factAt F code f i) := by
  induction i with
  | zero => exact hf
  | succ i ih =>
    cases ha : code[i]? with
    | some a => exact hstep i a ha ih
    | none => exact (factAt_succ_of_none (F := F) ha f).symm ▸ ih

theorem Ranges.factAt (hdefs : ∀ a ∈ code, ∀ v ∈ F.defs a, v ∈ vars) (hf : Ranges vars f)
    (i : Nat) : Ranges vars (factAt F code f i) := by
  refine factAt_induction hf (fun i a ha ih v x hx => ?_) i
  rw [get_factAt_succ ha] at hx
  split at hx
  · next hv =>
    cases hx
    exact ⟨hdefs a (mem_of_getElem? ha) v hv, definedValue_ne_top a _ v⟩
  · exact ih v x hx

theorem Complete.step (ha : code[i]? = some a) (h : Complete vars (factAt F code f i)) :
    Complete vars (factAt F code f (i + 1)) := by
  intro v hv
  rw [get_factAt_succ ha]
  split
  · rfl
  · exact h v hv

theorem Complete.factAt (hf : Complete vars f) (i : Nat) : Complete vars (factAt F code f i) :=
  factAt_induction hf (fun _ _ ha ih => ih.step ha) i

/-- What the fact before an instruction says still holds after it ran. -/
theorem Describes.step (hF : F.Sound exec) (ha : code[i]? = some a)
    (h : Describes (factAt F code f i) s) (hexec : exec a s s') : Describes (factAt F code f (i + 1)) s' := by
  intro v x hx
  rw [get_factAt_succ ha] at hx
  split at hx
  · next hv =>
    refine hF.fold a _ s s' v x hexec (fun w y hy => h w y ?_) (definedValue_eq_const.mp (Option.some.inj hx)) hv
    obtain ⟨z, hz, hzy⟩ := Option.bind_eq_some_iff.mp hy
    cases z with
    | const z =>
      cases hzy
      exact hz
    | top => cases hzy
    | bottom => cases hzy
  · next hv =>
    rw [hF.frame a s s' v hexec hv]
    exact h v x hx

end Facts

/-! ## The equations -/

section Equations

variable [DecidableEq ν] {F : ConstantFolder ι ν κ} {exec : ι → (ν → κ) → (ν → κ) → Prop} {c : Cfg ι π} {s : ν → κ}

variable {f : ConstFact ν κ} {P : ConstFact ν κ → Prop} {b : Nat} {x : Nat → ConstFact ν κ} {s₀ : ν → κ}

theorem mem_variablesOf {I : InstrInfo ι ν} (hb : b ∈ c.blockIds) {a : ι} (ha : a ∈ c.instructions b)
    {v : ν} (hv : v ∈ I.defs a) : v ∈ variablesOf I c := by
  unfold variablesOf
  rw [mem_toFinset, mem_flatMap]
  exact ⟨b, hb, mem_flatMap.mpr ⟨a, ha, mem_append.mpr (Or.inr hv)⟩⟩

omit [DecidableEq ν] in
theorem ranges_empty {vars : Finset ν} : Ranges vars (.empty : ConstFact ν κ) := fun _ _ h => by cases h

variable {facts : Facts (ConstFact ν κ)} {fuel n : Nat}

theorem ranges_boundary : ∀ f, (constPropProblem F c).boundary n = some f →
    Ranges (variablesOf F.toInstrInfo c) f := by
  intro f hf v x hx
  change (if n = c.entry then some _ else none) = some f at hf
  split at hf
  · cases hf
    rw [FiniteMap.get_constant] at hx
    split at hx
    · next hv =>
      cases hx
      exact ⟨hv, nofun⟩
    · cases hx
  · cases hf

theorem ranges_flowingIn (hx : ∀ e, Ranges (variablesOf F.toInstrInfo c) (x e)) :
    Ranges (variablesOf F.toInstrInfo c) ((constPropProblem F c).flowingIn c.edgeView n x) := by
  unfold EdgeProblem.flowingIn
  cases hjoin : joinAll (constPropProblem F c).meet ((constPropProblem F c).boundary n)
      (((c.edgeView.edges (constPropProblem F c).direction.traversal.against n)).map x) with
  | none => exact ranges_empty
  | some r =>
    refine joinAll_keeps (P := Ranges _) (fun _ _ h h' => h.meetFacts h') _ _ ranges_boundary (fun a ha => ?_) r hjoin
    obtain ⟨e, _, rfl⟩ := mem_map.mp ha
    exact hx e

/-- What flows into a block has what its boundary or the fact of one edge has, when a
meet hands it on from either side. -/
theorem flowingIn_inherits {Q : ConstFact ν κ → Prop} (hmeet : ∀ f g, P f → P g → P (meetFacts F f g))
    (hQ : ∀ f g, P f → P g → Q f ∨ Q g → Q (meetFacts F f g))
    (hboundary : ∀ f, (constPropProblem F c).boundary n = some f → P f) (hx : ∀ e, P (x e))
    (h : ∃ f, ((constPropProblem F c).boundary n = some f ∨ ∃ e ∈ c.incoming n, x e = f) ∧ Q f) :
    Q ((constPropProblem F c).flowingIn c.edgeView n x) := by
  obtain ⟨f, hf, hq⟩ := h
  obtain ⟨r, hr, hq⟩ := joinAll_inherits (meetFacts F) hmeet hQ ((c.incoming n).map x) _ hboundary
    (fun a ha => by
      obtain ⟨e, _, rfl⟩ := mem_map.mp ha
      exact hx e)
    ⟨f, hf.imp_right mem_map.mpr, hq⟩
  change Q ((joinAll (meetFacts F) ((constPropProblem F c).boundary n) ((c.incoming n).map x)).getD _)
  rw [hr]
  exact hq

def edgeFact (F : ConstantFolder ι ν κ) (c : Cfg ι π) (edge : EdgeRef EdgeKind) (f : ConstFact ν κ) : ConstFact ν κ :=
  (constPropProblem F c).transferEdge edge f (factAt F (c.instructions edge.source) f (c.instructions edge.source).length)

theorem edgeFact_of_not_departs (edge : EdgeRef EdgeKind) (h : departsBeforeThrows F.toInstrInfo c edge = false)
    (f : ConstFact ν κ) : edgeFact F c edge f =
      factAt F (c.instructions edge.source) f (c.instructions edge.source).length := by
  change (if departsBeforeThrows F.toInstrInfo c edge then _ else none).getD _ = _
  rw [h]
  rfl

theorem edgeFact_of_departs (edge : EdgeRef EdgeKind) (h : departsBeforeThrows F.toInstrInfo c edge = true)
    (f : ConstFact ν κ) : edgeFact F c edge f = (joinAll (meetFacts F) none
      ((throwingPlaces F.mayUnwind (c.instructions edge.source)).map (factAt F (c.instructions edge.source) f))).getD
        (factAt F (c.instructions edge.source) f (c.instructions edge.source).length) := by
  rw [← replayConstants_snd]
  change (if departsBeforeThrows F.toInstrInfo c edge then _ else none).getD _ = _
  rw [if_pos h]

theorem edgeFact_keeps (hmeet : ∀ f g, P f → P g → P (meetFacts F f g))
    (edge : EdgeRef EdgeKind) (hat : ∀ i, P (factAt F (c.instructions edge.source) f i)) :
    P (edgeFact F c edge f) := by
  cases hdeparts : departsBeforeThrows F.toInstrInfo c edge with
  | false =>
    rw [edgeFact_of_not_departs edge hdeparts]
    exact hat _
  | true =>
    rw [edgeFact_of_departs edge hdeparts]
    cases hjoin : joinAll (meetFacts F) none ((throwingPlaces F.mayUnwind (c.instructions edge.source)).map
        (factAt F (c.instructions edge.source) f)) with
    | none => exact hat _
    | some r =>
      refine joinAll_keeps hmeet _ _ (fun _ h => by cases h) (fun x hx => ?_) r hjoin
      obtain ⟨i, _, rfl⟩ := mem_map.mp hx
      exact hat i

theorem ranges_edgeFact {edge : EdgeRef EdgeKind} (hlive : edge.source ∈ c.blockIds)
    (hf : Ranges (variablesOf F.toInstrInfo c) f) : Ranges (variablesOf F.toInstrInfo c) (edgeFact F c edge f) :=
  edgeFact_keeps (fun _ _ h h' => h.meetFacts h') edge (hf.factAt fun _ ha _ hv => mem_variablesOf hlive ha hv)

theorem nodeFacts_constProp (n : Nat) (x : Nat → ConstFact ν κ) : (constPropProblem F c).nodeFacts c.edgeView n x =
    ((constPropProblem F c).flowingIn c.edgeView n x, factAt F (c.instructions n)
      ((constPropProblem F c).flowingIn c.edgeView n x) (c.instructions n).length) :=
  Prod.ext rfl (replayConstants_fst _ _)

theorem value_constProp (hc : c.WF) {e : Nat} (hn : n ∈ c.blockIds) (he : e ∈ c.outgoing n)
    (x : Nat → ConstFact ν κ) : ((constPropProblem F c).system c.edgeView).value n x e =
      edgeFact F c (c.edgeView.edge e) ((constPropProblem F c).flowingIn c.edgeView n x) := by
  have hsource : (c.edgeView.edge e).source = n := ((hc.lawful_edgeView.mem_outgoing n hn e).mp he).2
  change (constPropProblem F c).transferEdge _ ((constPropProblem F c).nodeFacts c.edgeView n x).1
    ((constPropProblem F c).nodeFacts c.edgeView n x).2 = _
  rw [nodeFacts_constProp, edgeFact, hsource]

theorem ranges_value (hc : c.WF) : ∀ n ∈ c.edgeView.nodeIds, ∀ x : Nat → ConstFact ν κ,
    (∀ e, Ranges (variablesOf F.toInstrInfo c) (x e)) →
    ∀ e ∈ c.edgeView.edges (constPropProblem F c).direction.traversal n,
      Ranges (variablesOf F.toInstrInfo c) (((constPropProblem F c).system c.edgeView).value n x e) := by
  intro n hn x hx e he
  rw [value_constProp hc hn he]
  exact ranges_edgeFact (hc.lawful_edgeView.source_live e ((hc.lawful_edgeView.mem_outgoing n hn e).mp he).1)
    (ranges_flowingIn hx)

/-! ## The solved facts -/

variable [DecidableEq κ]

def constStart (F : ConstantFolder ι ν κ) (c : Cfg ι π) : Run (EdgeTables (ConstFact ν κ)) :=
  ⟨.init c.edgeView (constPropProblem F c).infallible, reachableWorklist c, 0⟩

abbrev constVisit (F : ConstantFolder ι ν κ) (c : Cfg ι π) :
    Nat → EdgeTables (ConstFact ν κ) × Worklist → Except Empty (EdgeTables (ConstFact ν κ) × Worklist) :=
  visitAlong c.edgeView (constPropProblem F c).infallible

/-- The solve is the loop from `constStart`. -/
theorem compute_eq_some (hc : c.WF) : ConstantPropagation.compute F c fuel = some facts ↔
      ∃ r, drive .new (constVisit F c) fuel (constStart F c) = some (.ok r) ∧
        facts = ⟨r.facts.input, r.facts.output, r.steps⟩ := by
  obtain ⟨order, horder, hmem⟩ := depthFirstPreorder_spec hc.lawful_view (Cfg.block_lt hc.entry) .outgoing
  have hseeded : Worklist.seeded c.edgeView.toGraphView order = some (reachableWorklist c) := by
    rw [reachableWorklist, horder]
    exact Worklist.seeded_eq hc.lawful_edgeView.view fun n hn => reachable_live hc ((hmem n).mp hn)
  have hsolve : ConstantPropagation.compute F c fuel =
      (((drive .new (constVisit F c) fuel (constStart F c)).map fun result => result.map fun r =>
        (⟨⟨r.facts.input, r.facts.output, r.steps⟩, r.facts.edge⟩ : EdgeFacts (ConstFact ν κ))).map
          collapseInfallible).bind fun result => result.toOption.map (·.nodes) := by
    unfold ConstantPropagation.compute solveReachable solveEdgeProblemFromWithConfig
    rw [horder]
    simp only [Option.bind_eq_bind, Option.bind_some]
    rw [hseeded, Option.bind_some, Option.map_bind]
    rfl
  rw [hsolve]
  cases drive .new (constVisit F c) fuel (constStart F c) with
  | none => simp
  | some result =>
    cases result with
    | error error =>
      cases error with
      | problem error => exact error.elim
      | solver error => simp [Except.map, collapseInfallible, Except.toOption]
    | ok r => simp [Except.map, collapseInfallible, Except.toOption, eq_comm]

/-- What is left when the solve returns: facts on the edges that solve the equations at
every block that the entry reaches. -/
theorem exists_solution (hc : c.WF) (h : ConstantPropagation.compute F c fuel = some facts) : ∃ x : Nat → ConstFact ν κ,
      (∀ e, Ranges (variablesOf F.toInstrInfo c) (x e)) ∧
      ∀ n, ReflTransGen (c.view.toGraphView.Adjacent .outgoing) c.entry n →
        facts.input n = (constPropProblem F c).flowingIn c.edgeView n x ∧
        facts.output n = factAt F (c.instructions n) (facts.input n) (c.instructions n).length ∧
        ∀ e ∈ c.outgoing n, x e = edgeFact F c (c.edgeView.edge e) (facts.input n) := by
  obtain ⟨r, hdrive, rfl⟩ := (compute_eq_some hc).mp h
  obtain ⟨hw, hqueued⟩ := reachableWorklist_spec hc
  obtain ⟨hstable, hdone⟩ := stable_of_solve (p := constPropProblem F c) hc.lawful_edgeView
    (P := Ranges (variablesOf F.toInstrInfo c)) ranges_empty (ranges_value hc) hw
    (fun n hn => reachableWorklist_live hc hn) hdrive
  refine ⟨r.facts.facts (constPropProblem F c), hstable.facts, fun n hn => ?_⟩
  have hlive := reachable_live hc hn
  obtain ⟨hnode, hedges⟩ := hstable.settled n ((hqueued n).mpr hn) hlive (hdone n)
  rw [nodeFacts_constProp] at hnode
  obtain ⟨hin, hout⟩ := Prod.mk.inj hnode
  refine ⟨hin, hout.trans (by rw [← hin]), fun e he => ?_⟩
  rw [hedges e he, value_constProp hc hlive he, ← hin]

/-! ## Executions -/

/-- A complete fact that is right for a store: what an execution carries along. -/
def Knows (vars : Finset ν) (s : ν → κ) (f : ConstFact ν κ) : Prop := Complete vars f ∧ Describes f s

omit [DecidableEq κ] in
theorem Knows.meetFacts (hF : F.Sound exec) {vars : Finset ν} {f g : ConstFact ν κ} (hf : Ranges vars f)
    (hg : Ranges vars g) (h : Knows vars s f ∨ Knows vars s g) : Knows vars s (meetFacts F f g) :=
  ⟨Complete.meetFacts (h.imp And.left And.left), Describes.meetFacts hF hf hg h⟩

omit [DecidableEq κ] in
theorem knows_flowingIn (hF : F.Sound exec) {n : Nat} {x : Nat → ConstFact ν κ}
    (hx : ∀ e, Ranges (variablesOf F.toInstrInfo c) (x e))
    (h : ∃ f, ((constPropProblem F c).boundary n = some f ∨ ∃ e ∈ c.incoming n, x e = f) ∧
      Knows (variablesOf F.toInstrInfo c) s f) :
    Knows (variablesOf F.toInstrInfo c) s ((constPropProblem F c).flowingIn c.edgeView n x) :=
  flowingIn_inherits (fun _ _ h h' => Ranges.meetFacts h h') (fun _ _ h h' => Knows.meetFacts hF h h')
    ranges_boundary hx h

omit [DecidableEq κ] in
theorem knows_entry (hF : F.Sound exec) {x : Nat → ConstFact ν κ}
    (hx : ∀ e, Ranges (variablesOf F.toInstrInfo c) (x e)) :
    Knows (variablesOf F.toInstrInfo c) s ((constPropProblem F c).flowingIn c.edgeView c.entry x) := by
  refine knows_flowingIn hF hx ⟨.constant (variablesOf F.toInstrInfo c) .bottom, Or.inl (if_pos rfl), ?_, ?_⟩
  · intro v hv
    rw [FiniteMap.get_constant, if_pos hv]
    rfl
  · intro v k hk
    rw [FiniteMap.get_constant] at hk
    split at hk <;> cases hk

omit [DecidableEq κ] in
theorem knows_edgeFact_of_departs (hF : F.Sound exec) (edge : EdgeRef EdgeKind) (hlive : edge.source ∈ c.blockIds)
    (h : departsBeforeThrows F.toInstrInfo c edge = true) {f : ConstFact ν κ}
    (hf : Ranges (variablesOf F.toInstrInfo c) f) {i : Nat} {a : ι} (ha : (c.instructions edge.source)[i]? = some a)
    (hthrow : F.mayUnwind a = true)
    (hknows : Knows (variablesOf F.toInstrInfo c) s (factAt F (c.instructions edge.source) f i)) :
    Knows (variablesOf F.toInstrInfo c) s (edgeFact F c edge f) := by
  obtain ⟨r, hr, hknows⟩ := joinAll_inherits (P := Ranges (variablesOf F.toInstrInfo c))
    (Q := Knows (variablesOf F.toInstrInfo c) s) (meetFacts F)
    (fun _ _ h h' => Ranges.meetFacts h h') (fun _ _ h h' => Knows.meetFacts hF h h')
    ((throwingPlaces F.mayUnwind (c.instructions edge.source)).map (factAt F (c.instructions edge.source) f)) none
    (fun _ h => by cases h)
    (fun x hx => by
      obtain ⟨j, _, rfl⟩ := mem_map.mp hx
      exact hf.factAt (fun a ha v hv => mem_variablesOf hlive ha hv) j)
    ⟨_, Or.inr (mem_map.mpr ⟨i, (mem_throwingPlaces _).mpr ⟨a, ha, hthrow⟩, rfl⟩), hknows⟩
  rw [edgeFact_of_departs edge h, hr]
  exact hknows

theorem knows_of_run (hc : c.WF) (hF : F.Sound exec)
    (h : ConstantPropagation.compute F c fuel = some facts) {p : (Nat × Nat) × (ν → κ)}
    (hrun : ReflTransGen (StoreStep (c.dataFlow F.toInstrInfo) F.mayUnwind exec) ((c.entry, 0), s₀) p) :
    ReflTransGen (c.view.toGraphView.Adjacent .outgoing) c.entry p.1.1 ∧
      Knows (variablesOf F.toInstrInfo c) p.2 (factAt F (c.instructions p.1.1) (facts.input p.1.1) p.1.2) := by
  obtain ⟨x, hx, hsolved⟩ := exists_solution hc h
  -- along an edge of the graph the equations hold at both ends
  have htaken : ∀ {b t : Nat} {s : ν → κ}, ReflTransGen (c.view.toGraphView.Adjacent .outgoing) c.entry b →
      ∀ e r, c.edge e = some r → r.source = b → r.target = t →
      Knows (variablesOf F.toInstrInfo c) s (edgeFact F c ⟨e, r.source, r.target, r.payload.kind⟩ (facts.input b)) →
      ReflTransGen (c.view.toGraphView.Adjacent .outgoing) c.entry t ∧
        Knows (variablesOf F.toInstrInfo c) s (factAt F (c.instructions t) (facts.input t) 0) := by
    intro b t s hb e r hr hs ht hknows
    have hreach := hb.tail (hc.mem_successors.mpr ⟨e, r, hr, hs, ht⟩)
    refine ⟨hreach, ?_⟩
    change Knows _ s (facts.input t)
    rw [(hsolved t hreach).1]
    refine knows_flowingIn hF hx ⟨x e, Or.inr ⟨e, hc.mem_incoming.mpr ⟨r, hr, ht⟩, rfl⟩, ?_⟩
    rw [(hsolved b hb).2.2 e (hc.mem_outgoing.mpr ⟨r, hr, hs⟩), Cfg.edge_edgeView hr]
    exact hknows
  induction hrun with
  | refl =>
    refine ⟨.refl, ?_⟩
    change Knows _ s₀ (facts.input c.entry)
    rw [(hsolved c.entry .refl).1]
    exact knows_entry hF hx
  | tail _ hstep ih =>
    obtain ⟨hreach, hknows⟩ := ih
    cases hstep with
    | exec hcode ha hexec =>
      obtain ⟨_, rfl⟩ := Cfg.instructions_of_code hcode
      exact ⟨hreach, hknows.1.step ha, hknows.2.step hF ha hexec⟩
    | leave hcode ht =>
      obtain ⟨_, rfl⟩ := Cfg.instructions_of_code hcode
      obtain ⟨e, r, hr, hs, ht, hdeparts⟩ := ht
      refine htaken hreach e r hr hs ht ?_
      rw [edgeFact_of_not_departs ⟨e, r.source, r.target, r.payload.kind⟩ hdeparts]
      subst hs
      exact hknows
    | raise hcode ha hthrow ht =>
      obtain ⟨hlive, rfl⟩ := Cfg.instructions_of_code hcode
      obtain ⟨e, r, hr, rfl, ht, hdeparts⟩ := ht
      refine htaken hreach e r hr rfl ht (knows_edgeFact_of_departs hF
        ⟨e, r.source, r.target, r.payload.kind⟩ (Cfg.mem_blockIds.mpr hlive) hdeparts ?_ ha hthrow hknows)
      rw [(hsolved _ hreach).1]
      exact ranges_flowingIn hx

/-- What the fact of a position says holds there at every visit, whenever the solve
returned. -/
theorem describes_of_compute (hc : c.WF) (hF : F.Sound exec)
    (h : ConstantPropagation.compute F c fuel = some facts) {i : Nat}
    (hrun : ReflTransGen (StoreStep (c.dataFlow F.toInstrInfo) F.mayUnwind exec) ((c.entry, 0), s₀) ((b, i), s)) :
    (i = 0 → Describes (facts.input b) s) ∧ (i = (c.instructions b).length → Describes (facts.output b) s) ∧
      Describes (factBefore F c facts b i) s := by
  obtain ⟨hreach, hknows⟩ := knows_of_run hc hF h hrun
  obtain ⟨x, _, hsolved⟩ := exists_solution hc h
  refine ⟨?_, ?_, ?_⟩
  · rintro rfl
    exact hknows.2
  · rintro rfl
    rw [(hsolved b hreach).2.1]
    exact hknows.2
  · have hbefore : factBefore F c facts b i = factAt F (c.instructions b) (facts.input b) i := by
      unfold factBefore
      rw [replayConstants_fst]
      unfold factAt
      rw [take_length]
    rw [hbefore]
    exact hknows.2

end Equations

end CfgLib.Dataflow
