import CfgLib.Lib.Dominance
import Mathlib.Data.List.Chain
import Mathlib.Order.WellFounded
import Mathlib.Data.Set.Finite.List
import Mathlib.Order.Preorder.Finite

/-!
# Cycles and dominance

Closed walks of a rooted directed graph, and the edges that do not lead back to a
dominator of their source.  Where those edges close no walk, every closed walk has
a vertex that dominates all of it.
-/

namespace CfgLib.Lib

open Relation List

variable {V : Type} {E : V → V → Prop} {r a b x : V} {p : List V}

/-- `p` lists the vertices of a closed walk, from where it starts to where it turns back. -/
def IsCycle (E : V → V → Prop) (p : List V) : Prop := ∃ a b, Walk E a b p ∧ E b a

/-- An edge that does not lead back to a dominator of its source. -/
def Forward (E : V → V → Prop) (r a b : V) : Prop := E a b ∧ ¬ Dominates E r b a

/-- No walk along such edges returns to a vertex that the root reaches. -/
def ForwardAcyclic (E : V → V → Prop) (r : V) : Prop :=
  ∀ a, ReflTransGen E r a → ¬ TransGen (Forward E r) a a

/-- Some vertex of a closed walk dominates all of them. -/
def HasDominator (E : V → V → Prop) (r : V) (p : List V) : Prop :=
  ∃ h ∈ p, ∀ x ∈ p, Dominates E r h x

/-! ## Walks -/

theorem Walk.within (h : Walk E a b p) {P : V → Prop} (hP : ∀ y ∈ p, P y) (hx : x ∈ p) :
    ReflTransGen (fun u v => E u v ∧ P v) a x ∧ ReflTransGen (fun u v => E u v ∧ P v) x b := by
  induction h generalizing x with
  | single =>
    rw [mem_singleton.mp hx]
    exact ⟨.refl, .refl⟩
  | @snoc b c p hw he ih =>
    have hP' : ∀ y ∈ p, P y := fun y hy => hP y (mem_append_left _ hy)
    have hc : P c := hP c (mem_append_right _ (mem_singleton_self c))
    rcases mem_append.mp hx with hx | hx
    · obtain ⟨hto, hfrom⟩ := ih hP' hx
      exact ⟨hto, hfrom.tail ⟨he, hc⟩⟩
    · rw [mem_singleton.mp hx]
      exact ⟨(ih hP' hw.target_mem).1.tail ⟨he, hc⟩, .refl⟩

theorem Walk.split (h : Walk E a b p) {before after : List V} (hp : p = before ++ x :: after) :
    Walk E a x (before ++ [x]) ∧ Walk E x b (x :: after) := by
  induction h generalizing after with
  | single =>
    cases before with
    | nil =>
      cases hp
      exact ⟨.single, .single⟩
    | cons y before => simp at hp
  | @snoc b c p hw he ih =>
    rcases eq_nil_or_concat after with rfl | ⟨after, z, rfl⟩
    · obtain ⟨rfl, heq⟩ := append_inj' hp rfl
      cases heq
      exact ⟨.snoc hw he, .single⟩
    · rw [concat_eq_append, ← cons_append, ← append_assoc] at hp
      obtain ⟨hp', heq⟩ := append_inj' hp rfl
      cases heq
      obtain ⟨hto, hfrom⟩ := ih hp'
      rw [concat_eq_append]
      exact ⟨hto, .snoc hfrom he⟩

theorem Walk.cons {c : V} (he : E a b) (h : Walk E b c p) : Walk E a c (a :: p) := by
  induction h with
  | single => exact .snoc .single he
  | snoc _ hstep ih => exact .snoc ih hstep

theorem Walk.cases_head (h : Walk E a b p) :
    (p = [a] ∧ b = a) ∨ ∃ c p', E a c ∧ Walk E c b p' ∧ p = a :: p' := by
  induction h with
  | single => exact Or.inl ⟨rfl, rfl⟩
  | @snoc b d p _ he ih =>
    rcases ih with ⟨rfl, rfl⟩ | ⟨c, p', hac, hw', rfl⟩
    · exact Or.inr ⟨d, [d], he, .single, rfl⟩
    · exact Or.inr ⟨c, p' ++ [d], hac, .snoc hw' he, rfl⟩

/-- A walk read backwards, along the edges turned round. -/
theorem Walk.reverse (h : Walk E a b p) : Walk (fun u v => E v u) b a p.reverse := by
  induction h with
  | single => exact .single
  | snoc _ he ih =>
    rw [reverse_append, reverse_singleton]
    exact ih.cons he

theorem dominates_reverse : Dominates (fun u v => E v u) r a b ↔ ∀ p, Walk E b r p → a ∈ p :=
  ⟨fun h _ hp => mem_reverse.mp (h _ hp.reverse), fun h _ hp => mem_reverse.mp (h _ hp.reverse)⟩

/-- A vertex that leads to finitely many leads to one that all it reaches lead back to. -/
theorem exists_sink {s : Set V} (hs : s.Finite) (ha : ∀ b, ReflTransGen E a b → b ∈ s) :
    ∃ b, ReflTransGen E a b ∧ ∀ c, ReflTransGen E b c → ReflTransGen E c b := by
  obtain ⟨b, hb, hmin⟩ := Set.Finite.exists_minimalFor (fun b => {c | ReflTransGen E b c}) {b | ReflTransGen E a b}
    (hs.subset ha) ⟨a, .refl⟩
  exact ⟨b, hb, fun c hc => hmin (hb.trans hc) (fun _ h => hc.trans h) ReflTransGen.refl⟩

theorem walk_of_isChain {l : List V} (h : (b :: l).IsChain fun v u => E u v)
    (hlast : (b :: l).getLast? = some a) : Walk E a b (b :: l).reverse := by
  induction l generalizing b with
  | nil =>
    cases hlast
    exact .single
  | cons c l ih =>
    rw [isChain_cons_cons] at h
    rw [getLast?_cons_cons] at hlast
    rw [reverse_cons]
    exact .snoc (ih h.2 hlast) h.1

theorem IsCycle.within (h : IsCycle E p) {x y : V} (hx : x ∈ p) (hy : y ∈ p) :
    ReflTransGen (fun u v => E u v ∧ v ∈ p) x y := by
  obtain ⟨a, b, hwalk, hback⟩ := h
  have hfrom := (hwalk.within (P := fun v => v ∈ p) (fun _ hv => hv) hx).2
  have hto := (hwalk.within (P := fun v => v ∈ p) (fun _ hv => hv) hy).1
  exact (hfrom.tail ⟨hback, hwalk.source_mem⟩).trans hto

theorem exists_arrival {R : V → V → Prop} (h : ReflTransGen R a b) (hne : a ≠ b) :
    ∃ q, ReflTransGen (fun u v => R u v ∧ v ≠ b) a q ∧ R q b := by
  induction h using ReflTransGen.head_induction_on with
  | refl => exact absurd rfl hne
  | @head a c hac _ ih =>
    by_cases hcb : c = b
    · exact ⟨a, .refl, hcb ▸ hac⟩
    · obtain ⟨q, hq, hqb⟩ := ih hcb
      exact ⟨q, .head ⟨hac, hcb⟩ hq, hqb⟩

/-! ## Dominators of closed walks -/

theorem exists_first {R : V → V → Prop} {l : List V} (h : ∀ a ∈ l, ¬ TransGen R a a) (hne : l ≠ []) :
    ∃ m ∈ l, ∀ x ∈ l, ¬ TransGen R x m := by
  let leads : {a // a ∈ l} → {a // a ∈ l} → Prop := fun a b => TransGen R a.1 b.1
  have htrans : IsTrans _ leads := ⟨fun _ _ _ => TransGen.trans⟩
  have hirrefl : Std.Irrefl leads := ⟨fun a => h a.1 a.2⟩
  have hfinite : Finite {a // a ∈ l} := finite_toSet l
  have hwf : WellFounded leads := Finite.wellFounded_of_trans_of_irrefl leads
  obtain ⟨b, hb⟩ := exists_mem_of_ne_nil l hne
  obtain ⟨m, _, hmin⟩ := hwf.has_min Set.univ ⟨⟨b, hb⟩, trivial⟩
  exact ⟨m.1, m.2, fun x hx => hmin ⟨x, hx⟩ trivial⟩

theorem ForwardAcyclic.hasDominator (h : ForwardAcyclic E r) (hp : IsCycle E p)
    (hreach : ∀ x ∈ p, ReflTransGen E r x) : HasDominator E r p := by
  have hne : p ≠ [] := by
    obtain ⟨a, b, hwalk, _⟩ := hp
    exact ne_nil_of_mem hwalk.source_mem
  obtain ⟨m, hm, hmin⟩ := exists_first (fun a ha => h a (hreach a ha)) hne
  refine ⟨m, hm, fun x hx => ?_⟩
  rw [dominates_iff_not_avoids]
  intro havoids
  -- the walk goes on from `x` and comes back to `m` along an edge that is not forward
  have hxm : x ≠ m := by
    rintro rfl
    exact dominates_iff_not_avoids.mp (Dominates.refl E r x) havoids
  obtain ⟨q, hq, hqm, _⟩ := exists_arrival (hp.within hx hm) hxm
  have hqp : q ∈ p := by
    cases hq with
    | refl => exact hx
    | tail _ hstep => exact hstep.1.2
  have hdom : Dominates E r m q := by
    by_contra hnot
    exact hmin q hqp (.single ⟨hqm, hnot⟩)
  refine dominates_iff_not_avoids.mp hdom (havoids.trans ?_)
  exact ReflTransGen.mono (fun u v huv => ⟨huv.1.1, huv.2⟩) _ _ hq

/-- The dominator of a closed walk that continues a simple walk from the root is its first vertex. -/
theorem dominates_of_simple {before after : List V} (hto : Walk E r x (before ++ [x]))
    (hnodup : (before ++ x :: after).Nodup) (h : HasDominator E r (x :: after)) :
    ∀ y ∈ x :: after, Dominates E r x y := by
  obtain ⟨d, hd, hall⟩ := h
  have hdx := hall x mem_cons_self _ hto
  rcases mem_append.mp hdx with hbefore | hx
  · exact absurd hd ((nodup_append.mp hnodup).2.2 _ hbefore _ hd rfl).elim
  · rw [mem_singleton.mp hx] at hall
    exact hall

end CfgLib.Lib
