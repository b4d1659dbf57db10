import CfgLib.Hlil.Placement
import CfgLib.Hlil.Scopes
import CfgLib.Lib.Fold

/-!
# The anchors are the narrowest

The analysis from turn to turn: a statement leaves each variable that occurs
in it at its anchor and no other changed, and a body does.  What the frames
hold between two turns is what the processed prefixes contain.
-/

namespace CfgLib.Hlil

open Relation List
open Lib

/-! ## Folds over the variables of a set -/

/-- A fold that touches what is seen of the state at one element only sees that element once. -/
theorem view_foldl {σ τ : Type} {f : σ → Nat → σ} {p : σ → τ} {g : τ → τ} {v : Nat}
    (hother : ∀ s w, w ≠ v → p (f s w) = p s) (hsame : ∀ s, p (f s v) = g (p s)) {l : List Nat}
    (hl : l.Nodup) : ∀ s, p (l.foldl f s) = if v ∈ l then g (p s) else p s := by
  induction l with
  | nil => exact fun s => rfl
  | cons w l ih =>
    intro s
    obtain ⟨hw, hl⟩ := nodup_cons.mp hl
    rw [foldl_cons, ih hl]
    by_cases hv : v = w
    · subst hv
      rw [if_neg hw, hsame, if_pos mem_cons_self]
    · rw [hother s w (Ne.symm hv)]
      simp only [mem_cons, hv, false_or]

theorem mem_foldl_collect {α : Type} {f : Finset Nat → α → Finset Nat} {P : α → Nat → Prop} {l : List α}
    (hf : ∀ a ∈ l, ∀ vars v, v ∈ f vars a ↔ v ∈ vars ∨ P a v) : ∀ vars v,
      v ∈ l.foldl f vars ↔ v ∈ vars ∨ ∃ a ∈ l, P a v := by
  induction l with
  | nil => exact fun vars v => by simp
  | cons a l ih =>
    intro vars v
    rw [foldl_cons, ih fun b hb => hf b (mem_cons_of_mem _ hb), hf a mem_cons_self,
      exists_mem_cons_iff, or_assoc]

theorem get_foldl_countComponent (vars : Finset Nat) (m : FiniteMap Nat Nat) (v : Nat) :
    (((vars.sort (· ≤ ·)).foldl countComponent m).get v) =
      if v ∈ vars then some ((m.get v).getD 0 + 1) else m.get v := by
  have h := view_foldl (f := countComponent) (p := fun m => m.get v) (g := fun c => some (c.getD 0 + 1)) (v := v)
    (fun m w hne => if_neg (Ne.symm hne)) (fun m => if_pos rfl) (vars.sort_nodup (· ≤ ·)) m
  simpa only [Finset.mem_sort] using h

theorem getElem?_place (placements : Placements) (w statement v : Nat) :
    (place placements w statement)[v]? = if w = v then (placements[v]?).map fun _ => some statement else placements[v]? := by
  rw [place, getElem?_set]
  by_cases hw : w = v
  · subst hw
    rw [if_pos rfl, if_pos rfl]
    by_cases hlt : w < placements.length
    · rw [if_pos hlt, getElem?_eq_getElem hlt, Option.map_some]
    · rw [if_neg hlt, getElem?_eq_none (not_lt.mp hlt), Option.map_none]
  · rw [if_neg hw, if_neg hw]

/-! ## What the frames compute -/

structure TakenIn (body : BodyFrame) (statement : Nat) (vars : Finset Nat) (placements : Placements) (body' : BodyFrame)
    (placements' : Placements) : Prop where
  statements : body'.statements = body.statements
  length : placements'.length = placements.length
  contained : ∀ v, v ∈ body'.contained ↔ v ∈ body.contained ∨ v ∈ vars
  first : ∀ v, body'.firstStatement.get v =
    if v ∈ vars then some ((body.firstStatement.get v).getD statement) else body.firstStatement.get v
  placed : ∀ v, placements'[v]? = if v ∈ vars then
    match body.firstStatement.get v with
    | some first => (placements[v]?).map fun _ => some first
    | none => placements[v]?
    else placements[v]?

theorem takeInStatement_spec (body : BodyFrame) (statement : Nat) (vars : Finset Nat) (placements : Placements) :
    TakenIn body statement vars placements (body.takeInStatement statement vars placements).1
      (body.takeInStatement statement vars placements).2 := by
  have hkeep := @foldl_keeps _ _ (BodyFrame.takeInVariable statement)
    ( fun s : BodyFrame × Placements => s.1.statements = body.statements ∧ s.2.length = placements.length)
    (fun s w h => by
      unfold BodyFrame.takeInVariable
      split
      · exact ⟨h.1, by rw [place, length_set, h.2]⟩
      · exact h) (vars.sort (· ≤ ·)) (body, placements) ⟨rfl, rfl⟩
  have hview : ∀ v, _ := fun v => view_foldl (f := BodyFrame.takeInVariable statement)
    (p := fun s => (decide (v ∈ s.1.contained), s.1.firstStatement.get v, s.2[v]?))
    (g := fun t => (true, some (t.2.1.getD statement),
      match t.2.1 with
      | some first => t.2.2.map fun _ => some first
      | none => t.2.2)) (v := v)
    (fun s w hne => by
      unfold BodyFrame.takeInVariable
      split
      · simp [getElem?_place, hne, Ne.symm hne]
      · simp [FiniteMap.insert, Ne.symm hne])
    (fun s => by
      unfold BodyFrame.takeInVariable
      split
      · next first hfirst => simp [getElem?_place, hfirst]
      · next hnone => simp [FiniteMap.insert, hnone]) (vars.sort_nodup (· ≤ ·)) (body, placements)
  simp only [Finset.mem_sort] at hview
  refine ⟨hkeep.1, hkeep.2, fun v => ?_, fun v => ?_, fun v => ?_⟩
  · have := congrArg (·.1) (hview v)
    by_cases hv : v ∈ vars <;> simpa [hv, BodyFrame.takeInStatement] using this
  · have := congrArg (·.2.1) (hview v)
    by_cases hv : v ∈ vars <;> simpa [hv, BodyFrame.takeInStatement] using this
  · have := congrArg (·.2.2) (hview v)
    by_cases hv : v ∈ vars <;> simpa [hv, BodyFrame.takeInStatement] using this

namespace FunctionView

variable {F : FunctionView} {fuel : Nat}

/-- Fuel with which every walk of the analysis runs to its end. -/
structure Enough (F : FunctionView) (fuel : Nat) : Prop where
  expressions : ∀ e, e < F.exprCount → ∀ f, f ∈ F.visitExpressionTree fuel e ↔ ReflTransGen F.Operand e f
  clauses : ∀ s, s < F.stmtCount → ∀ b ∈ F.clauses s, ∀ t, t ∈ F.visitStatements fuel b ↔
    ∃ u ∈ b, ReflTransGen F.Child u t

variable {bodies : List (List Nat)} {b : List Nat} {α : Type} {l : List α} {a s v : Nat}
  {initial placements : Placements} {frame : StatementFrame}

theorem exists_uniform {P : α → Nat → Prop} (h : ∀ x ∈ l, ∃ n, ∀ fuel, n ≤ fuel → P x fuel) :
    ∃ n, ∀ fuel, n ≤ fuel → ∀ x ∈ l, P x fuel := by
  induction l with
  | nil => exact ⟨0, fun fuel _ x hx => absurd hx (not_mem_nil)⟩
  | cons x l ih =>
    obtain ⟨n, hn⟩ := h x mem_cons_self
    obtain ⟨m, hm⟩ := ih fun y hy => h y (mem_cons_of_mem _ hy)
    refine ⟨max n m, fun fuel hfuel y hy => ?_⟩
    rcases mem_cons.mp hy with rfl | hy
    · exact hn fuel (le_trans (le_max_left n m) hfuel)
    · exact hm fuel (le_trans (le_max_right n m) hfuel) y hy

theorem Contract.exists_enough (hF : F.Contract) : ∃ n, ∀ fuel, n ≤ fuel → F.Enough fuel := by
  obtain ⟨n, hn⟩ := exists_uniform (l := List.range F.exprCount) fun e he =>
    hF.visitExpressionTree_spec (mem_range.mp he)
  obtain ⟨m, hm⟩ := exists_uniform (l := List.range F.stmtCount) fun s hs =>
    exists_uniform (l := F.clauses s) fun b hb => hF.visitStatements_spec fun t ht =>
      (hF.child_lt s t (mem_range.mp hs) ⟨_, mem_clauses.mp hb, ht⟩).trans (mem_range.mp hs)
  exact ⟨max n m, fun fuel hfuel =>
    ⟨fun e he => hn fuel (le_trans (le_max_left n m) hfuel) e (mem_range.mpr he),
      fun s hs => hm fuel (le_trans (le_max_right n m) hfuel) s (mem_range.mpr hs)⟩⟩

variable {c d : List Nat} {e : Nat} {placements' : Placements} {p : α → Bool}

theorem Enough.mem_collectExpression (h : F.Enough fuel) (he : e < F.exprCount) (vars : Finset Nat) (v : Nat) :
    v ∈ F.collectExpression fuel vars e ↔ v ∈ vars ∨ F.Reads e v := by
  rw [collectExpression, mem_foldl_collect (P := fun f v => F.expr f = .variable v)]
  · simp only [h.expressions e he, Reads]
  · intro f _ vars v
    split
    · next w hw =>
      rw [hw, Finset.mem_insert, ExprShape.variable.injEq, eq_comm, or_comm]
    · next hno =>
      constructor
      · exact Or.inl
      · intro hmem
        rcases hmem with hmem | hmem
        · exact hmem
        · exact absurd hmem (hno v)

theorem Enough.mem_collectStatement (hF : F.Contract) (h : F.Enough fuel) (hs : s < F.stmtCount)
    (vars : Finset Nat) (v : Nat) : v ∈ F.collectStatement fuel vars s ↔ v ∈ vars ∨ F.Mentions s v :=
  mem_foldl_collect (fun e he => h.mem_collectExpression (hF.expression_lt s hs e he)) vars v

theorem Enough.mem_collectBody (hF : F.Contract) (h : F.Enough fuel) (hs : s < F.stmtCount)
    (hb : b ∈ F.clauses s) (v : Nat) : v ∈ F.collectBody fuel b ↔
      ∃ t ∈ b, ∃ u, ReflTransGen F.Child t u ∧ F.Mentions u v := by
  rw [collectBody, mem_foldl_collect (P := F.Mentions)]
  · simp only [h.clauses s hs b hb, Finset.notMem_empty, false_or]
    constructor
    · intro hu
      obtain ⟨u, ⟨t, ht, hpath⟩, hv⟩ := hu
      exact ⟨t, ht, u, hpath, hv⟩
    · intro ht
      obtain ⟨t, ht, u, hpath, hv⟩ := ht
      exact ⟨u, ⟨t, ht, hpath⟩, hv⟩
  · intro u hu
    obtain ⟨t, ht, hpath⟩ := (h.clauses s hs b hb u).mp hu
    have htlt := (hF.child_lt s t hs ⟨_, mem_clauses.mp hb, ht⟩).trans hs
    exact h.mem_collectStatement hF ((hF.below_lt htlt hpath).trans_lt htlt)

structure NewFrame (F : FunctionView) (s : Nat) (frame : StatementFrame) : Prop where
  statement : frame.statement = s
  owned : ∀ v, v ∈ frame.owned ↔ F.Owns s v
  keys : ∀ v, (frame.components.get v).isSome ↔ F.Owns s v
  body : frame.body = .new ((F.lexicalBodies s).headD [])
  bodies : frame.bodies = (F.lexicalBodies s).tail

theorem Enough.newFrame (hF : F.Contract) (h : F.Enough fuel) (hs : s < F.stmtCount) :
    F.NewFrame s (F.newStatementFrame fuel s) := by
  have hfold : ∀ (l : List (List Nat × ChildBodyKind)), (∀ child ∈ l, child ∈ F.childBodies s) →
      ∀ acc : Finset Nat × FiniteMap Nat Nat × List (List Nat), (∀ v, (acc.2.1.get v).isSome ↔ v ∈ acc.1) →
        let acc' := l.foldl (F.takeInChild fuel) acc
        (∀ v, v ∈ acc'.1 ↔ v ∈ acc.1 ∨ ∃ b, (b, .clause) ∈ l ∧
          ∃ t ∈ b, ∃ u, ReflTransGen F.Child t u ∧ F.Mentions u v) ∧
        (∀ v, (acc'.2.1.get v).isSome ↔ v ∈ acc'.1) ∧
          acc'.2.2 = acc.2.2 ++ (l.filter (·.2 = .lexical)).map (·.1) := by
    intro l
    induction l with
    | nil => exact fun _ acc hacc => ⟨fun v => by simp, hacc, by simp⟩
    | cons child l ih =>
      intro hmem acc hacc
      obtain ⟨b, kind⟩ := child
      have hrest := ih fun child hchild => hmem child (mem_cons_of_mem _ hchild)
      cases kind with
      | lexical =>
        obtain ⟨howned, hkeys, hbodies⟩ := hrest (F.takeInChild fuel acc (b, .lexical)) hacc
        refine ⟨fun v => ?_, hkeys, ?_⟩
        · rw [foldl_cons, howned]
          simp [takeInChild]
        · rw [foldl_cons, hbodies]
          simp [takeInChild]
      | clause =>
        have hb := h.mem_collectBody hF hs (mem_clauses.mpr (hmem _ mem_cons_self))
        obtain ⟨howned, hkeys, hbodies⟩ := hrest (F.takeInChild fuel acc (b, .clause)) fun v => by
          rw [takeInChild]
          dsimp only
          rw [get_foldl_countComponent, Finset.mem_union]
          by_cases hv : v ∈ F.collectBody fuel b <;> simp [hv, hacc]
        refine ⟨fun v => ?_, hkeys, ?_⟩
        · rw [foldl_cons, howned]
          simp only [takeInChild, Finset.mem_union, hb, mem_cons, Prod.mk.injEq, and_true]
          constructor
          · intro hv
            rcases hv with (hv | hv) | ⟨c, hc, hv⟩
            · exact Or.inl hv
            · exact Or.inr ⟨b, Or.inl rfl, hv⟩
            · exact Or.inr ⟨c, Or.inr hc, hv⟩
          · intro hv
            rcases hv with hv | ⟨c, rfl | hc, hv⟩
            · exact Or.inl (Or.inl hv)
            · exact Or.inl (Or.inr hv)
            · exact Or.inr ⟨c, hc, hv⟩
        · rw [foldl_cons, hbodies]
          simp [takeInChild]
  have hown : ∀ v, v ∈ F.collectStatement fuel ∅ s ↔ F.Mentions s v := fun v => by
    rw [h.mem_collectStatement hF hs]
    simp
  obtain ⟨howned, hkeys, hbodies⟩ := hfold (F.childBodies s) (fun _ hchild => hchild)
    (F.collectStatement fuel ∅ s, .constant (F.collectStatement fuel ∅ s) 1, []) fun v => by
      rw [FiniteMap.constant]
      dsimp only
      split
      · next hv => exact iff_of_true rfl hv
      · next hv => exact iff_of_false Bool.false_ne_true hv
  have howns : ∀ v, v ∈ (F.newStatementFrame fuel s).owned ↔ F.Owns s v := fun v => by
    refine (howned v).trans ?_
    rw [hown, Owns]
    simp only [mem_clauses]
  rw [nil_append] at hbodies
  refine ⟨rfl, howns, fun v => (hkeys v).trans (howns v), ?_, ?_⟩
  · exact congrArg (fun l : List (List Nat) => BodyFrame.new (l.headD [])) hbodies
  · exact congrArg List.tail hbodies

/-! ## Turns -/

/-- Why a statement is the anchor of a variable that occurs in it. -/
def Holds (F : FunctionView) (s v : Nat) : Prop := F.Owns s v ∨
  ∃ (i j : Nat) (c d : List Nat), i ≠ j ∧ (F.lexicalBodies s)[i]? = some c ∧ (F.lexicalBodies s)[j]? = some d ∧
    F.Contains c v ∧ F.Contains d v

def AnchoredAt (F : FunctionView) (s v a : Nat) : Prop := (a = s ∧ F.Holds s v) ∨
  (¬ F.Owns s v ∧ ∃ c ∈ F.lexicalBodies s, (∀ d ∈ F.lexicalBodies s, F.Contains d v → d = c) ∧ F.Anchored v c a)

/-- What the analysis of a statement does to the anchors. -/
structure StatementPlaced (F : FunctionView) (s : Nat) (placements placements' : Placements) : Prop where
  length : placements'.length = placements.length
  other : ∀ v, ¬ F.Within s v → placements'[v]? = placements[v]?
  anchored : ∀ v, F.Within s v → ∃ a, placements'[v]? = some (some a) ∧ F.AnchoredAt s v a

/-- What the analysis of the statements of a body does to the anchors. -/
structure BodyPlaced (F : FunctionView) (b : List Nat) (placements placements' : Placements) : Prop where
  length : placements'.length = placements.length
  other : ∀ v, ¬ F.Contains b v → placements'[v]? = placements[v]?
  anchored : ∀ v, F.Contains b v → ∃ a, placements'[v]? = some (some a) ∧ F.Anchored v b a

structure Analyzed (F : FunctionView) (done : List Nat) (body : BodyFrame) : Prop where
  contained : ∀ v, v ∈ body.contained ↔ F.Contains done v
  first : ∀ v a, body.firstStatement.get v = some a ↔ F.First done v a

theorem contains_append : F.Contains (b ++ d) v ↔ F.Contains b v ∨ F.Contains d v := by
  simp only [Contains, mem_append, or_and_right, exists_or]

theorem contains_singleton : F.Contains [s] v ↔ F.Within s v := by
  simp only [Contains, mem_singleton, exists_eq_left]

theorem First.append (h : F.First b v a) (d : List Nat) : F.First (b ++ d) v a := by
  obtain ⟨before, after, rfl, hwithin, hnone⟩ := h
  exact ⟨before, after ++ d, by rw [append_assoc, cons_append], hwithin, hnone⟩

theorem First.mem (h : F.First b v a) : a ∈ b := by
  obtain ⟨before, after, rfl, -⟩ := h
  exact mem_append_right before mem_cons_self

theorem First.unique {a' : Nat} (h : F.First b v a) (h' : F.First b v a') : a = a' := by
  obtain ⟨before, after, heq, hwithin, hnone⟩ := h
  obtain ⟨before', after', heq', hwithin', hnone'⟩ := h'
  rw [heq] at heq'
  rcases append_eq_append_iff.mp heq' with ⟨l, rfl, hl⟩ | ⟨l, rfl, hl⟩
  · cases l with
    | nil => exact (List.cons.inj hl).1
    | cons s l =>
      cases hl
      exact absurd hwithin (hnone' a (mem_append_right before mem_cons_self))
  · cases l with
    | nil => exact (List.cons.inj hl).1.symm
    | cons s l =>
      cases hl
      exact absurd hwithin' (hnone a' (mem_append_right before' mem_cons_self))

theorem exists_first (h : F.Contains b v) : ∃ a, F.First b v a := by
  induction b with
  | nil =>
    obtain ⟨s, hs, -⟩ := h
    cases hs
  | cons s b ih =>
    by_cases hs : F.Within s v
    · exact ⟨s, [], b, rfl, hs, fun t ht => absurd ht not_mem_nil⟩
    · obtain ⟨t, ht, hv⟩ := h
      rcases mem_cons.mp ht with rfl | ht
      · exact absurd hv hs
      · obtain ⟨a, before, after, rfl, hwithin, hnone⟩ := ih ⟨t, ht, hv⟩
        refine ⟨a, s :: before, after, rfl, hwithin, fun u hu => ?_⟩
        rcases mem_cons.mp hu with rfl | hu
        · exact hs
        · exact hnone u hu

theorem Anchored.append (h : F.Anchored v b a) (hs : ¬ F.Within s v) :
    F.Anchored v (b ++ [s]) a := by
  cases h with
  | first hfirst hwhy =>
    refine .first (hfirst.append [s]) (hwhy.imp id (Or.imp (fun hother => ?_) id))
    obtain ⟨t, ht, hne, hv⟩ := hother
    exact ⟨t, mem_append_left [s] ht, hne, hv⟩
  | inner ht honly howns hc honlyBody hanchored =>
    refine .inner (mem_append_left [s] ht) (fun u hu hv => ?_) howns hc honlyBody hanchored
    rcases mem_append.mp hu with hu | hu
    · exact honly u hu hv
    · cases mem_singleton.mp hu
      exact absurd hv hs

theorem Analyzed.takeIn {done : List Nat} {body body' : BodyFrame} {vars : Finset Nat}
    {before : Placements} (h : F.Analyzed done body) (hs : s ∉ done)
    (hbody : F.BodyPlaced done initial before) (hvars : ∀ v, v ∈ vars ↔ F.Within s v)
    (hstatement : F.StatementPlaced s before placements) (htaken : TakenIn body s vars placements body' placements') :
    F.Analyzed (done ++ [s]) body' ∧ F.BodyPlaced (done ++ [s]) initial placements' := by
  have hfirst_none : ∀ v, body.firstStatement.get v = none ↔ ¬ F.Contains done v := by
    intro v
    constructor
    · intro hnone hv
      obtain ⟨a, ha⟩ := exists_first hv
      rw [(h.first v a).mpr ha] at hnone
      cases hnone
    · intro hv
      cases hget : body.firstStatement.get v with
      | none => rfl
      | some a =>
        obtain ⟨_, _, rfl, hwithin, -⟩ := (h.first v a).mp hget
        exact absurd ⟨a, mem_append_right _ mem_cons_self, hwithin⟩ hv
  have hnew : ∀ v, ¬ F.Contains done v → F.Within s v → F.First (done ++ [s]) v s :=
    fun v hdone hv => ⟨done, [], rfl, hv, fun t ht hwithin => hdone ⟨t, ht, hwithin⟩⟩
  refine ⟨⟨fun v => ?_, fun v a => ?_⟩, ⟨?_, fun v hv => ?_, fun v hv => ?_⟩⟩
  · rw [htaken.contained, h.contained, hvars, contains_append, contains_singleton]
  · rw [htaken.first]
    cases hget : body.firstStatement.get v with
    | some first =>
      have hfirst := (h.first v first).mp hget
      have hall : (if v ∈ vars then some ((some first).getD s) else some first) = some first := by
        split <;> rfl
      rw [hall]
      constructor
      · intro heq
        cases heq
        exact hfirst.append [s]
      · intro ha
        rw [ha.unique (hfirst.append [s])]
    | none =>
      have hdone := (hfirst_none v).mp hget
      by_cases hv : F.Within s v
      · rw [if_pos ((hvars v).mpr hv)]
        constructor
        · intro heq
          cases heq
          exact hnew v hdone hv
        · intro ha
          rw [ha.unique (hnew v hdone hv)]
          rfl
      · rw [if_neg fun hmem => hv ((hvars v).mp hmem)]
        refine iff_of_false (fun heq => by cases heq) fun ha => ?_
        obtain ⟨_, _, heq, hwithin, -⟩ := ha
        have hmem : a ∈ done ++ [s] := heq ▸ mem_append_right _ mem_cons_self
        rcases mem_append.mp hmem with hmem | hmem
        · exact hdone ⟨a, hmem, hwithin⟩
        · cases mem_singleton.mp hmem
          exact hv hwithin
  · rw [htaken.length, hstatement.length, hbody.length]
  · rw [contains_append, contains_singleton, not_or] at hv
    rw [htaken.placed, if_neg fun hmem => hv.2 ((hvars v).mp hmem), hstatement.other v hv.2, hbody.other v hv.1]
  · rw [htaken.placed]
    by_cases hwithin : F.Within s v
    · rw [if_pos ((hvars v).mpr hwithin)]
      obtain ⟨a, ha, hat⟩ := hstatement.anchored v hwithin
      cases hget : body.firstStatement.get v with
      | some first =>
        have hfirst := (h.first v first).mp hget
        refine ⟨first, by rw [ha]; rfl, .first (hfirst.append [s]) (Or.inr (Or.inl ⟨s, ?_, ?_, hwithin⟩))⟩
        · exact mem_append_right done mem_cons_self
        · rintro rfl
          exact hs hfirst.mem
      | none =>
        have hdone := (hfirst_none v).mp hget
        refine ⟨a, ha, ?_⟩
        rcases hat with ⟨rfl, howns | htwo⟩ | ⟨howns, c, hc, honly, hanchored⟩
        · exact .first (hnew v hdone hwithin) (Or.inl howns)
        · exact .first (hnew v hdone hwithin) (Or.inr (Or.inr htwo))
        · refine .inner (mem_append_right done mem_cons_self) (fun t ht hv => ?_) howns hc honly hanchored
          rcases mem_append.mp ht with ht | ht
          · exact absurd ⟨t, ht, hv⟩ hdone
          · exact mem_singleton.mp ht
    · rw [if_neg fun hmem => hwithin ((hvars v).mp hmem), hstatement.other v hwithin]
      rw [contains_append, contains_singleton] at hv
      obtain ⟨a, ha, hanchored⟩ := hbody.anchored v (hv.resolve_right hwithin)
      exact ⟨a, ha, hanchored.append hwithin⟩

theorem two_of_countP (h : 2 ≤ l.countP p) :
    ∃ (i j : Nat) (c d : α), i ≠ j ∧ l[i]? = some c ∧ l[j]? = some d ∧ p c = true ∧ p d = true := by
  induction l with
  | nil => exact absurd h (by simp)
  | cons x l ih =>
    by_cases hx : p x = true
    · rw [countP_cons_of_pos hx] at h
      obtain ⟨d, hd, hpd⟩ := countP_pos_iff.mp (show 0 < l.countP p by omega)
      obtain ⟨j, hj⟩ := mem_iff_getElem?.mp hd
      exact ⟨0, j + 1, x, d, (Nat.succ_ne_zero j).symm, rfl, hj, hx, hpd⟩
    · rw [countP_cons_of_neg hx] at h
      obtain ⟨i, j, c, d, hne, hc, hd, hpc, hpd⟩ := ih h
      exact ⟨i + 1, j + 1, c, d, fun heq => hne (Nat.succ.inj heq), hc, hd, hpc, hpd⟩

theorem one_of_countP (h : l.countP p = 1) {c d : α} (hc : c ∈ l) (hpc : p c = true)
    (hd : d ∈ l) (hpd : p d = true) : d = c := by
  induction l with
  | nil => cases hc
  | cons x l ih =>
    by_cases hx : p x = true
    · rw [countP_cons_of_pos hx] at h
      have hzero := countP_eq_zero.mp (show l.countP p = 0 by omega)
      have heq : ∀ y ∈ x :: l, p y = true → y = x := fun y hy hpy =>
        (mem_cons.mp hy).resolve_right fun hy => hzero y hy hpy
      rw [heq d hd hpd, heq c hc hpc]
    · rw [countP_cons_of_neg hx] at h
      have htail : ∀ y ∈ x :: l, p y = true → y ∈ l := fun y hy hpy =>
        (mem_cons.mp hy).resolve_left fun heq => hx (heq ▸ hpy)
      exact ih h (htail c hc hpc) (htail d hd hpd)

open Classical in
/-- How many of the bodies a variable occurs in. -/
noncomputable def components (F : FunctionView) (bodies : List (List Nat)) (v : Nat) : Nat :=
  bodies.countP fun b => decide (F.Contains b v)

theorem components_pos : 0 < F.components bodies v ↔ ∃ b ∈ bodies, F.Contains b v := by
  rw [components, countP_pos_iff]
  simp only [decide_eq_true_iff]

theorem components_append :
    F.components (bodies ++ [b]) v = F.components bodies v + F.components [b] v := by
  rw [components, countP_append]
  rfl

open Classical in
theorem components_singleton : F.components [b] v = if F.Contains b v then 1 else 0 := by
  rw [components, countP_singleton]
  simp only [decide_eq_true_iff]

open Classical in
theorem two_of_components (h : 2 ≤ F.components bodies v) :
    ∃ (i j : Nat) (c d : List Nat), i ≠ j ∧ bodies[i]? = some c ∧ bodies[j]? = some d ∧ F.Contains c v ∧
      F.Contains d v := by
  obtain ⟨i, j, c, d, hne, hc, hd, hcv, hdv⟩ := two_of_countP h
  rw [decide_eq_true_iff] at hcv hdv
  exact ⟨i, j, c, d, hne, hc, hd, hcv, hdv⟩

open Classical in
theorem one_of_components (h : F.components bodies v = 1)
    (hc : c ∈ bodies) (hcv : F.Contains c v) (hd : d ∈ bodies) (hdv : F.Contains d v) : d = c :=
  one_of_countP h hc (decide_eq_true_iff.mpr hcv) hd (decide_eq_true_iff.mpr hdv)

/-- A frame that has analyzed the lexical bodies `done` of its statement. -/
structure Progress (F : FunctionView) (s : Nat) (done : List (List Nat)) (frame : StatementFrame)
    (initial placements : Placements) : Prop where
  statement : frame.statement = s
  owned : ∀ v, v ∈ frame.owned ↔ F.Owns s v
  keys : ∀ v, (frame.components.get v).isSome ↔ F.Owns s v ∨ ∃ b ∈ done, F.Contains b v
  count : ∀ v, ¬ F.Owns s v → (frame.components.get v).getD 0 = F.components done v
  length : placements.length = initial.length
  other : ∀ v, (∀ b ∈ done, ¬ F.Contains b v) → placements[v]? = initial[v]?
  anchored : ∀ v, F.components done v = 1 → ∃ c ∈ done, F.Contains c v ∧ ∃ a, placements[v]? = some (some a) ∧
    F.Anchored v c a

theorem NewFrame.progress (h : F.NewFrame s frame) (placements : Placements) :
    F.Progress s [] frame placements placements where
  statement := h.statement
  owned := h.owned
  keys v := by
    rw [h.keys]
    simp
  count v hv := by
    have hnone : (frame.components.get v).isSome = false := Bool.eq_false_iff.mpr fun hsome => hv ((h.keys v).mp hsome)
    rw [Option.isNone_iff_eq_none.mp (Option.isSome_eq_false_iff.mp hnone)]
    rfl
  length := rfl
  other _ _ := rfl
  anchored v hv := by
    have := components_pos.mp (show 0 < F.components [] v by omega)
    obtain ⟨b, hb, -⟩ := this
    cases hb

theorem Progress.takeInBody {done : List (List Nat)} (h : F.Progress s done frame initial placements)
    (hbody : F.Analyzed c frame.body) (hplaced : F.BodyPlaced c placements placements') :
    F.Progress s (done ++ [c]) frame.takeInBody initial placements' := by
  have hget : ∀ v, frame.takeInBody.components.get v =
      if v ∈ frame.body.contained then some ((frame.components.get v).getD 0 + 1) else frame.components.get v :=
    get_foldl_countComponent frame.body.contained frame.components
  refine ⟨h.statement, h.owned, fun v => ?_, fun v howns => ?_, ?_, fun v hv => ?_, fun v hone => ?_⟩
  · rw [hget]
    by_cases hc : F.Contains c v
    · rw [if_pos ((hbody.contained v).mpr hc)]
      exact iff_of_true rfl (Or.inr ⟨c, mem_append_right done mem_cons_self, hc⟩)
    · rw [if_neg fun hmem => hc ((hbody.contained v).mp hmem), h.keys]
      refine or_congr Iff.rfl ⟨fun hd => ?_, fun hd => ?_⟩
      · obtain ⟨b, hb, hv⟩ := hd
        exact ⟨b, mem_append_left [c] hb, hv⟩
      · obtain ⟨b, hb, hv⟩ := hd
        rcases mem_append.mp hb with hb | hb
        · exact ⟨b, hb, hv⟩
        · cases mem_singleton.mp hb
          exact absurd hv hc
  · rw [hget, components_append, components_singleton]
    by_cases hc : F.Contains c v
    · rw [if_pos ((hbody.contained v).mpr hc), if_pos hc, Option.getD_some, h.count v howns]
    · rw [if_neg fun hmem => hc ((hbody.contained v).mp hmem), if_neg hc, h.count v howns, Nat.add_zero]
  · rw [hplaced.length, h.length]
  · rw [hplaced.other v (hv c (mem_append_right done mem_cons_self))]
    exact h.other v fun b hb => hv b (mem_append_left [c] hb)
  · rw [components_append, components_singleton] at hone
    by_cases hc : F.Contains c v
    · obtain ⟨a, ha, hanchored⟩ := hplaced.anchored v hc
      exact ⟨c, mem_append_right done mem_cons_self, hc, a, ha, hanchored⟩
    · rw [if_neg hc, Nat.add_zero] at hone
      obtain ⟨b, hb, hv, a, ha, hanchored⟩ := h.anchored v hone
      exact ⟨b, mem_append_left [c] hb, hv, a, by rw [hplaced.other v hc, ha], hanchored⟩

theorem Contract.operand_lt_exprCount (hF : F.Contract) {f : Nat} (he : e < F.exprCount)
    (h : ReflTransGen F.Operand e f) : f < F.exprCount := by
  induction h with
  | refl => exact he
  | tail _ hoperand ih => exact (hF.operand_lt _ ih _ hoperand).trans ih

theorem Contract.lt_variableCount (hF : F.Contract) (hs : s < F.stmtCount) (h : F.Within s v) :
    v < F.variableCount := by
  obtain ⟨t, hpath, e, he, f, hf, hv⟩ := mentions_of_within h
  have ht := (hF.below_lt hs hpath).trans_lt hs
  exact hF.variable_lt f v (hF.operand_lt_exprCount (hF.expression_lt t ht e he) hf) hv

theorem Progress.finish (hF : F.Contract) (hs : s < F.stmtCount) (h : F.Progress s bodies frame initial placements)
    (hbodies : bodies = F.lexicalBodies s ∨ (F.lexicalBodies s = [] ∧ bodies = [[]]))
    (hlength : initial.length = F.variableCount) : (∀ v, v ∈ (frame.finish placements).1 ↔ F.Within s v) ∧
      F.StatementPlaced s initial (frame.finish placements).2 := by
  have hmem : ∀ c v, F.Contains c v → (c ∈ bodies ↔ c ∈ F.lexicalBodies s) := by
    intro c v hc
    rcases hbodies with rfl | ⟨hnil, rfl⟩
    · rfl
    · rw [hnil]
      refine iff_of_false (fun hmem => ?_) not_mem_nil
      cases mem_singleton.mp hmem
      obtain ⟨t, ht, -⟩ := hc
      cases ht
  have hwithin : ∀ v, F.Within s v ↔ F.Owns s v ∨ ∃ b ∈ bodies, F.Contains b v := by
    intro v
    rw [within_iff]
    refine or_congr Iff.rfl (exists_congr fun c => and_congr_left fun hc => (hmem c v hc).symm)
  have hview : ∀ v, (frame.finish placements).2[v]? = if v ∈ frame.components.keys then
      (if v ∈ frame.owned ∨ 1 < (frame.components.get v).getD 0 then (placements[v]?).map fun _ => some frame.statement
        else placements[v]?) else placements[v]? := by
    intro v
    have := view_foldl (f := fun placements v =>
        if v ∈ frame.owned ∨ 1 < (frame.components.get v).getD 0 then place placements v frame.statement
        else placements) (p := fun placements => placements[v]?)
      (g := fun c => if v ∈ frame.owned ∨ 1 < (frame.components.get v).getD 0 then c.map fun _ => some frame.statement
        else c) (v := v)
      (fun placements w hne => by
        split
        · rw [getElem?_place, if_neg hne]
        · rfl)
      (fun placements => by
        split
        · rw [getElem?_place, if_pos rfl]
        · rfl) (frame.components.keys.sort_nodup (· ≤ ·)) placements
    simp only [Finset.mem_sort] at this
    exact this
  have hkeys : ∀ v, v ∈ frame.components.keys ↔ F.Within s v := fun v => by
    rw [frame.components.mem_keys, h.keys, hwithin]
  refine ⟨hkeys, ?_, fun v hv => ?_, fun v hv => ?_⟩
  · rw [← h.length]
    exact foldl_keeps (P := fun p : Placements => p.length = placements.length) (fun p w hp => by
      split
      · rw [place, length_set, hp]
      · exact hp) _ rfl
  · rw [hview, if_neg fun hmem => hv ((hkeys v).mp hmem)]
    exact h.other v fun b hb hc => hv ((hwithin v).mpr (Or.inr ⟨b, hb, hc⟩))
  · have hlt : v < placements.length := by
      rw [h.length, hlength]
      exact hF.lt_variableCount hs hv
    rw [hview, if_pos ((hkeys v).mpr hv)]
    by_cases howns : F.Owns s v
    · rw [if_pos (Or.inl ((h.owned v).mpr howns)), getElem?_eq_getElem hlt, h.statement]
      exact ⟨s, rfl, Or.inl ⟨rfl, Or.inl howns⟩⟩
    · have hpos : 0 < F.components bodies v := components_pos.mpr (((hwithin v).mp hv).resolve_left howns)
      rw [h.count v howns]
      by_cases htwo : 1 < F.components bodies v
      · rw [if_pos (Or.inr htwo), getElem?_eq_getElem hlt, h.statement]
        refine ⟨s, rfl, Or.inl ⟨rfl, Or.inr ?_⟩⟩
        obtain ⟨i, j, c, d, hne, hc, hd, hcv, hdv⟩ := two_of_components htwo
        rcases hbodies with rfl | ⟨hnil, rfl⟩
        · exact ⟨i, j, c, d, hne, hc, hd, hcv, hdv⟩
        · have := (hmem c v hcv).mp (mem_of_getElem? hc)
          rw [hnil] at this
          cases this
      · have hone : F.components bodies v = 1 := by omega
        rw [if_neg (not_or.mpr ⟨fun hmem => howns ((h.owned v).mp hmem), htwo⟩)]
        obtain ⟨c, hc, hcv, a, ha, hanchored⟩ := h.anchored v hone
        refine ⟨a, ha, Or.inr ⟨howns, c, (hmem c v hcv).mp hc, fun d hd hdv => ?_, hanchored⟩⟩
        exact one_of_components hone hc hcv ((hmem d v hdv).mpr hd) hdv

end FunctionView

/-! ## Runs -/

namespace Anchoring

theorem body_update (st : Anchoring) (body : BodyFrame) (placements : Placements) :
    (st.update body placements).body = body := by
  obtain ⟨root, opened, old⟩ := st
  cases opened <;> rfl

theorem placements_update (st : Anchoring) (body : BodyFrame) (placements : Placements) :
    (st.update body placements).placements = placements := by
  obtain ⟨root, opened, old⟩ := st
  cases opened <;> rfl

theorem update_update (st : Anchoring) (body body' : BodyFrame) (placements placements' : Placements) :
    (st.update body placements).update body' placements' = st.update body' placements' := by
  obtain ⟨root, opened, old⟩ := st
  cases opened <;> rfl

theorem update_self (st : Anchoring) : st.update st.body st.placements = st := by
  obtain ⟨root, opened, old⟩ := st
  cases opened <;> rfl

theorem absorb_placements (st : Anchoring) (old : Placements) (statement : Nat) (vars : Finset Nat)
    (placements : Placements) :
    ({ st with placements := old } : Anchoring).absorb statement vars placements = st.absorb statement vars placements := by
  obtain ⟨root, opened, older⟩ := st
  cases opened <;> rfl

end Anchoring

namespace FunctionView

variable {F : FunctionView} {fuel : Nat}

variable {s : Nat} {initial placements : Placements} {frame : StatementFrame}

variable {st : Anchoring} {rest : List Nat}

theorem turn_statement (h : st.body.statements = s :: rest) :
    F.anchorTurn fuel st = some ⟨(st.update ⟨rest, st.body.contained, st.body.firstStatement⟩ st.placements).root,
      F.newStatementFrame fuel s ::
        (st.update ⟨rest, st.body.contained, st.body.firstStatement⟩ st.placements).opened, st.placements⟩ := by
  rw [anchorTurn, h]
  dsimp only
  rw [Anchoring.placements_update]

theorem turn_next {root : BodyFrame} {opened : List StatementFrame}
    {next : List Nat} {more : List (List Nat)} (h : frame.body.statements = []) (hbodies : frame.bodies = next :: more) :
    F.anchorTurn fuel ⟨root, frame :: opened, placements⟩ = some ⟨root, ⟨frame.statement, frame.owned,
      frame.takeInBody.components, more, .new next⟩ :: opened, placements⟩ := by
  rw [anchorTurn, Anchoring.body, h]
  simp only [StatementFrame.takeInBody, hbodies]

theorem turn_close (h : frame.body.statements = []) (hbodies : frame.bodies = []) :
    F.anchorTurn fuel ⟨st.root, frame :: st.opened, placements⟩ = some (st.absorb frame.statement
      (frame.takeInBody.finish placements).1 (frame.takeInBody.finish placements).2) := by
  rw [← st.absorb_placements placements, anchorTurn, Anchoring.body, h]
  simp only [StatementFrame.takeInBody, hbodies]

/-- From a state whose next statement is `s` the analysis runs through `s` and its bodies. -/
def Runs (F : FunctionView) (fuel s : Nat) : Prop :=
  ∀ (st : Anchoring) (rest : List Nat), st.body.statements = s :: rest → st.placements.length = F.variableCount →
    ∃ k vars placements, Steps (F.anchorTurn fuel) k st
      ((st.update ⟨rest, st.body.contained, st.body.firstStatement⟩ st.placements).absorb s vars placements) ∧
        (∀ v, v ∈ vars ↔ F.Within s v) ∧ F.StatementPlaced s st.placements placements

theorem analyzed_new (b : List Nat) : F.Analyzed [] (.new b) where
  contained v := by
    refine iff_of_false (Finset.notMem_empty v) fun h => ?_
    obtain ⟨s, hs, -⟩ := h
    cases hs
  first v a := by
    refine iff_of_false (fun h => by cases h) fun h => ?_
    cases h.mem

theorem bodyPlaced_nil (placements : Placements) : F.BodyPlaced [] placements placements where
  length := rfl
  other _ _ := rfl
  anchored v h := by
    obtain ⟨s, hs, -⟩ := h
    cases hs

theorem run_body (hrest : ∀ s ∈ rest, F.Runs fuel s)
    (hlength : initial.length = F.variableCount) : ∀ (done : List Nat) (st : Anchoring), (done ++ rest).Nodup →
      F.Analyzed done st.body → st.body.statements = rest → F.BodyPlaced done initial st.placements →
        ∃ k body placements, Steps (F.anchorTurn fuel) k st (st.update body placements) ∧ body.statements = [] ∧
          F.Analyzed (done ++ rest) body ∧ F.BodyPlaced (done ++ rest) initial placements := by
  induction rest with
  | nil =>
    intro done st _ hdone hstatements hplaced
    rw [append_nil]
    exact ⟨0, st.body, st.placements, by rw [st.update_self]; exact .zero st, hstatements, hdone, hplaced⟩
  | cons s rest ih =>
    intro done st hnodup hdone hstatements hplaced
    obtain ⟨k, vars, placements, hsteps, hvars, hstatement⟩ := hrest s mem_cons_self st rest hstatements
      (hplaced.length.trans hlength)
    have hs : s ∉ done := fun hs => (nodup_append.mp hnodup).2.2 s hs s mem_cons_self rfl
    have htaken := takeInStatement_spec ⟨rest, st.body.contained, st.body.firstStatement⟩ s vars placements
    rw [Anchoring.absorb, Anchoring.body_update, Anchoring.update_update] at hsteps
    generalize BodyFrame.takeInStatement ⟨rest, st.body.contained, st.body.firstStatement⟩ s vars placements = taken
      at htaken hsteps
    have hadvanced : F.Analyzed done ⟨rest, st.body.contained, st.body.firstStatement⟩ :=
      ⟨hdone.contained, hdone.first⟩
    obtain ⟨hdone', hplaced'⟩ := hadvanced.takeIn hs hplaced hvars hstatement htaken
    rw [append_cons] at hnodup ⊢
    obtain ⟨l, body, placements', hsteps', hnil, hbody, hfinal⟩ := ih (fun t ht => hrest t (mem_cons_of_mem _ ht))
      (done ++ [s]) (st.update taken.1 taken.2) hnodup (by rw [Anchoring.body_update]; exact hdone')
      (by rw [Anchoring.body_update, htaken.statements]) (by rw [Anchoring.placements_update]; exact hplaced')
    rw [Anchoring.update_update] at hsteps'
    exact ⟨k + l, body, placements', hsteps.trans hsteps', hnil, hbody, hfinal⟩

theorem run_frameBody (st : Anchoring)
    (hlength : initial.length = F.variableCount) {done : List (List Nat)} {c : List Nat}
    (hprogress : F.Progress s done frame initial placements) (hbody : frame.body = .new c) (hnodup : c.Nodup)
    (hruns : ∀ t ∈ c, F.Runs fuel t) : ∃ k frame' placements', Steps (F.anchorTurn fuel) k
      ⟨st.root, frame :: st.opened, placements⟩ ⟨st.root, frame' :: st.opened, placements'⟩ ∧
        frame'.body.statements = [] ∧ frame'.bodies = frame.bodies ∧
          F.Progress s (done ++ [c]) frame'.takeInBody initial placements' := by
  have hcurrent : (⟨st.root, frame :: st.opened, placements⟩ : Anchoring).body = .new c := hbody
  obtain ⟨k, body, placements', hsteps, hnil, hanalyzed, hplaced⟩ := run_body hruns
    (hprogress.length.trans hlength) [] ⟨st.root, frame :: st.opened, placements⟩ hnodup
    (by rw [hcurrent]; exact analyzed_new c) (by rw [hcurrent]; rfl) (bodyPlaced_nil placements)
  have hprogress' : F.Progress s done ⟨frame.statement, frame.owned, frame.components, frame.bodies, body⟩ initial
      placements := ⟨hprogress.statement, hprogress.owned, hprogress.keys, hprogress.count, hprogress.length,
    hprogress.other, hprogress.anchored⟩
  exact ⟨k, _, placements', hsteps, hnil, rfl, hprogress'.takeInBody hanalyzed hplaced⟩

theorem run_frame (hF : F.Contract) (hs : s < F.stmtCount)
    (hlength : initial.length = F.variableCount) (st : Anchoring) {bodies : List (List Nat)} :
    ∀ {done : List (List Nat)} {c : List Nat} {frame : StatementFrame} {placements : Placements},
      F.Progress s done frame initial placements → frame.body = .new c → frame.bodies = bodies →
      (done ++ c :: bodies = F.lexicalBodies s ∨ (F.lexicalBodies s = [] ∧ done ++ c :: bodies = [[]])) →
      (∀ b ∈ c :: bodies, b.Nodup ∧ ∀ t ∈ b, F.Runs fuel t) →
        ∃ k vars placements', Steps (F.anchorTurn fuel) k ⟨st.root, frame :: st.opened, placements⟩
          (st.absorb s vars placements') ∧ (∀ v, v ∈ vars ↔ F.Within s v) ∧ F.StatementPlaced s initial placements' := by
  induction bodies with
  | nil =>
    intro done c frame placements hprogress hbody hbodies hall hruns
    obtain ⟨hnodup, hrunsc⟩ := hruns c mem_cons_self
    obtain ⟨k, frame', placements', hsteps, hnil, hsame, hprogress'⟩ :=
      run_frameBody st hlength hprogress hbody hnodup hrunsc
    obtain ⟨hvars, hstatement⟩ := hprogress'.finish hF hs hall hlength
    refine ⟨k + 1, _, _, hsteps.trans (.single ((turn_close hnil (hsame.trans hbodies)).trans ?_)), hvars, hstatement⟩
    rw [show frame'.statement = s from hprogress'.statement]
  | cons next bodies ih =>
    intro done c frame placements hprogress hbody hbodies hall hruns
    obtain ⟨hnodup, hrunsc⟩ := hruns c mem_cons_self
    obtain ⟨k, frame', placements', hsteps, hnil, hsame, hprogress'⟩ :=
      run_frameBody st hlength hprogress hbody hnodup hrunsc
    have hopen : F.Progress s (done ++ [c]) ⟨frame'.statement, frame'.owned, frame'.takeInBody.components, bodies,
        .new next⟩ initial placements' := ⟨hprogress'.statement, hprogress'.owned, hprogress'.keys, hprogress'.count,
      hprogress'.length, hprogress'.other, hprogress'.anchored⟩
    rw [append_cons] at hall
    obtain ⟨l, vars, final, hsteps', hvars, hstatement⟩ := ih hopen rfl rfl hall fun b hb =>
      hruns b (mem_cons_of_mem c hb)
    refine ⟨k + (l + 1), vars, final, hsteps.trans (.succ ?_ hsteps'), hvars, hstatement⟩
    exact turn_next hnil (hsame.trans hbodies)

theorem Enough.runs (hF : F.Contract) (hfuel : F.Enough fuel) (hs : s < F.stmtCount) : F.Runs fuel s := by
  induction s using Nat.strong_induction_on with
  | _ s ih =>
    intro st rest hstatements hlength
    have hnew := hfuel.newFrame hF hs
    have hchildren : ∀ b ∈ (F.lexicalBodies s).headD [] :: (F.lexicalBodies s).tail,
        b.Nodup ∧ ∀ t ∈ b, F.Runs fuel t := by
      intro b hb
      have hb' : b = [] ∨ b ∈ F.lexicalBodies s := by
        cases hl : F.lexicalBodies s with
        | nil =>
          rw [hl] at hb
          exact Or.inl (mem_singleton.mp hb)
        | cons c l =>
          rw [hl] at hb
          exact Or.inr hb
      rcases hb' with rfl | hb'
      · exact ⟨nodup_nil, fun t ht => absurd ht not_mem_nil⟩
      · refine ⟨(nodup_flatMap.mp (hF.nodup_lexicalBodies hs)).1 b hb', fun t ht => ?_⟩
        have hlt := hF.child_lt s t hs (LexicalChild.child ⟨b, hb', ht⟩)
        exact ih t hlt (hlt.trans hs)
    have hall : [] ++ (F.lexicalBodies s).headD [] :: (F.lexicalBodies s).tail = F.lexicalBodies s ∨
        (F.lexicalBodies s = [] ∧ [] ++ (F.lexicalBodies s).headD [] :: (F.lexicalBodies s).tail = [[]]) := by
      cases F.lexicalBodies s with
      | nil => exact Or.inr ⟨rfl, rfl⟩
      | cons c l => exact Or.inl rfl
    obtain ⟨k, vars, placements, hsteps, hvars, hstatement⟩ := run_frame hF hs hlength
      (st.update ⟨rest, st.body.contained, st.body.firstStatement⟩ st.placements) (hnew.progress st.placements)
      hnew.body hnew.bodies hall hchildren
    exact ⟨1 + k, vars, placements, (Steps.single (turn_statement hstatements)).trans hsteps, hvars, hstatement⟩

/-! ## The anchors of a function -/

def Occurs (F : FunctionView) (v : Nat) : Prop := ∃ s ∈ F.body, ∃ t, ReflTransGen F.Child s t ∧ F.Mentions t v

theorem occurs_iff {v : Nat} : F.Occurs v ↔ F.Contains F.body v := by
  constructor
  · intro h
    obtain ⟨s, hs, t, hpath, hv⟩ := h
    obtain ⟨o, ho, howns, -⟩ := owner_of_mentions hpath hv
    exact ⟨s, hs, o, ho, howns⟩
  · intro h
    obtain ⟨s, hs, hv⟩ := h
    obtain ⟨t, hpath, hv⟩ := mentions_of_within hv
    exact ⟨s, hs, t, hpath, hv⟩

theorem Enough.anchorVariables_spec (hF : F.Contract) (hfuel : F.Enough fuel) : ∃ n, ∀ turns, n ≤ turns →
    F.BodyPlaced F.body (List.replicate F.variableCount none) (F.anchorVariables fuel turns) := by
  obtain ⟨k, body, placements, hsteps, hnil, -, hplaced⟩ := run_body (fun s hs => hfuel.runs hF (hF.body_lt s hs))
    length_replicate [] ⟨.new F.body, [], List.replicate F.variableCount none⟩
    (nodup_append.mp hF.listed_once).1 (analyzed_new F.body) rfl (bodyPlaced_nil _)
  refine ⟨k, fun turns hturns => ?_⟩
  have hexit : F.anchorTurn fuel ⟨body, [], placements⟩ = none := by
    rw [anchorTurn, Anchoring.body, hnil]
  rw [anchorVariables, hsteps.iterate_eq hexit hturns]
  exact hplaced

/-- A variable that occurs is declared before the first statement, in source order, that it occurs
in, of the narrowest body that holds all its occurrences; so its declaration precedes them all. -/
theorem placement_narrowest (hF : F.Contract) : ∃ n, ∀ fuel, n ≤ fuel → ∃ m, ∀ turns, m ≤ turns → ∀ v,
    (¬ F.Occurs v → F.placement fuel turns v = none) ∧
    (F.Occurs v → ∃ a x, F.placement fuel turns v = some a ∧ v ∈ F.before fuel turns a ∧
      F.Narrowest v F.body x ∧ F.First x v a ∧
        ∃ earlier later, x = earlier ++ a :: later ∧ ∀ s ∈ F.body, ∀ t, ReflTransGen F.Child s t → F.Mentions t v →
          ∃ u ∈ a :: later, ReflTransGen F.Child u t) := by
  obtain ⟨n, hn⟩ := hF.exists_enough
  refine ⟨n, fun fuel hfuel => ?_⟩
  obtain ⟨m, hm⟩ := (hn fuel hfuel).anchorVariables_spec hF
  refine ⟨m, fun turns hturns v => ?_⟩
  have hplaced := hm turns hturns
  refine ⟨fun hv => ?_, fun hv => ?_⟩
  · rw [placement, hplaced.other v fun hc => hv (occurs_iff.mpr hc), getElem?_replicate]
    split <;> rfl
  · obtain ⟨a, ha, hanchored⟩ := hplaced.anchored v (occurs_iff.mp hv)
    obtain ⟨x, hnarrowest, hfirst⟩ := hanchored.narrowest hF (Or.inl rfl)
    have hplacement : F.placement fuel turns v = some a := by
      rw [placement, ha]
      rfl
    have hlt : v < F.variableCount := by
      obtain ⟨s, hs, hwithin⟩ := occurs_iff.mp hv
      exact hF.lt_variableCount (hF.body_lt s hs) hwithin
    refine ⟨a, x, hplacement, mem_filter.mpr ⟨mem_range.mpr hlt, decide_eq_true hplacement⟩, hnarrowest,
      hfirst, ?_⟩
    obtain ⟨earlier, later, rfl, hwithin, hnone⟩ := hfirst
    refine ⟨earlier, later, rfl, fun s hs t hpath hmention => ?_⟩
    obtain ⟨o, ho, howns, ht⟩ := owner_of_mentions hpath hmention
    obtain ⟨u, hu, hpath'⟩ := hnarrowest.holds o ⟨s, hs, ho⟩ howns
    refine ⟨u, (mem_append.mp hu).resolve_left fun hearlier => ?_, (below_of_lexical hpath').trans ht⟩
    exact hnone u hearlier ⟨o, hpath', howns⟩

/-- A branch whose first arm stores a variable and then reads it. -/
def branchView : FunctionView where
  stmtCount := 3
  variableCount := 1
  exprCount := 4
  body := [2]
  stmt s := if s = 0 then .assign 0 1 else if s = 1 then .expression 2 else .ifStmt 3 [0, 1] []
  switchArms _ := []
  handlers _ := []
  expr e := if e = 0 ∨ e = 2 then .variable 0 else .constant

theorem contract_branchView : branchView.Contract where
  listed_once := by decide
  body_lt := by decide
  child_lt s t hs h := by
    obtain ⟨b, hb, ht⟩ := h
    have hall : ∀ s < 3, ∀ b ∈ branchView.childBodies s, ∀ t ∈ b.1, t < s := by decide
    exact hall s hs b hb t ht
  expression_lt := by decide
  operand_lt := by decide
  variable_lt e v _ h := by
    have hvar : (if e = 0 ∨ e = 2 then .variable 0 else .constant : ExprShape) = .variable v := h
    split at hvar
    · cases hvar
      exact Nat.zero_lt_one
    · cases hvar

theorem placement_narrowest_branch : ∃ n, ∀ fuel, n ≤ fuel → ∃ m, ∀ turns, m ≤ turns → ∀ v,
    (¬ branchView.Occurs v → branchView.placement fuel turns v = none) ∧
    (branchView.Occurs v → ∃ a x, branchView.placement fuel turns v = some a ∧ v ∈ branchView.before fuel turns a ∧
      branchView.Narrowest v branchView.body x ∧ branchView.First x v a ∧
        ∃ earlier later, x = earlier ++ a :: later ∧ ∀ s ∈ branchView.body, ∀ t, ReflTransGen branchView.Child s t →
          branchView.Mentions t v → ∃ u ∈ a :: later, ReflTransGen branchView.Child u t) :=
  placement_narrowest contract_branchView

example : branchView.placement 9 20 0 = some 0 := by decide +kernel

end FunctionView

end CfgLib.Hlil
