import CfgLib.Graph.Scc
import Mathlib.Logic.Relation

/-!
# Strongly connected components by low-links

`graph/scc.rs`: `tarjan_scc` numbers the nodes in one depth-first walk and keeps,
for each open node, the least number it has seen a way back to.  A node that has
seen none before its own closes a component.
-/

namespace CfgLib

open CfgLib.Lib Relation List Function

namespace Tarjan

structure Search where
  nextIndex : Nat
  stack : List Nat
  onStack : Nat → Bool
  /-- The number of each node, `none` before the walk enters it. -/
  indices : Nat → Option Nat
  lowlinks : Nat → Nat
  result : SccDecomposition
  calls : List SccFrame

/-- Pop a stack down to `node`: what is popped, and what is left. -/
def popTo (node : Nat) : List Nat → List Nat × List Nat
  | [] => ([], [])
  | member :: stack =>
    if member = node then ([member], stack)
    else
      let (members, left) := popTo node stack
      (member :: members, left)

namespace Search

def empty : Search := ⟨0, [], fun _ => false, fun _ => none, fun _ => 0, ⟨[], fun _ => none⟩, []⟩

/-- Number a node, push it and open its frame. -/
def enter (g : GraphView) (s : Search) (node : Nat) : Search :=
  { s with
    nextIndex := s.nextIndex + 1
    stack := node :: s.stack
    onStack := update s.onStack node true
    indices := update s.indices node (some s.nextIndex)
    lowlinks := update s.lowlinks node s.nextIndex
    calls := ⟨node, g.successors node⟩ :: s.calls }

/-- Mint the component of what lies on the stack from its top down to `node`. -/
def close (s : Search) (node : Nat) : Search :=
  let (members, stack) := popTo node s.stack
  { s with
    stack
    onStack := fun n => s.onStack n && !decide (n ∈ members)
    result := ⟨s.result.components ++ [members.insertionSort (· ≤ ·)],
      fun n => if n ∈ members then some s.result.components.length else s.result.componentOf n⟩ }

def lower (s : Search) (node index : Nat) : Search :=
  { s with lowlinks := update s.lowlinks node (min (s.lowlinks node) index) }

/-- Go back to the frame below, which takes over the low-link of the node. -/
def leave (s : Search) (node : Nat) (calls : List SccFrame) : Search :=
  match calls with
  | [] => { s with calls }
  | parent :: _ => { s with calls }.lower parent.node (s.lowlinks node)

def step (g : GraphView) (s : Search) : Option Search :=
  match s.calls with
  | [] => none
  | ⟨node, successor :: rest⟩ :: calls =>
    let s := { s with calls := ⟨node, rest⟩ :: calls }
    match s.indices successor with
    | none => some (s.enter g successor)
    | some index => some (if s.onStack successor then s.lower node index else s)
  | ⟨node, []⟩ :: calls =>
    if some (s.lowlinks node) = s.indices node then some ((s.close node).leave node calls)
    else some (s.leave node calls)

/-- Number everything `start` reaches that has no number yet. -/
def run (g : GraphView) (s : Search) (start : Nat) : Search :=
  if (s.indices start).isSome then s
  else
    iterate (step g) (total (fun n => (g.successors n).length + 1) (List.range g.nodeBound))
      (s.enter g start)

end Search

end Tarjan

def tarjanScc (g : GraphView) : SccDecomposition :=
  (g.nodeIds.foldl (Tarjan.Search.run g) .empty).result

/-! ## Components -/

/-- Each of two nodes reaches the other. -/
def GraphView.Mutual (g : GraphView) (a b : Nat) : Prop :=
  ReflTransGen g.Edge a b ∧ ReflTransGen g.Edge b a

structure SccDecomposition.Minted (g : GraphView) (d : SccDecomposition) : Prop where
  mem_iff : ∀ i c, d.components[i]? = some c → ∀ n, n ∈ c ↔ d.componentOf n = some i
  index_lt : ∀ n i, d.componentOf n = some i → i < d.components.length
  nonempty : ∀ c ∈ d.components, c ≠ []
  ascending : ∀ c ∈ d.components, c.Pairwise (· < ·)
  live : ∀ n, (d.componentOf n).isSome → n ∈ g.nodeIds
  same_iff : ∀ a b i j, d.componentOf a = some i → d.componentOf b = some j →
    (i = j ↔ g.Mutual a b)

theorem SccDecomposition.minted_empty (g : GraphView) :
    (⟨[], fun _ => none⟩ : SccDecomposition).Minted g :=
  ⟨by simp, by simp, by simp, by simp, by simp, by simp⟩

theorem pairwise_lt_insertionSort {l : List Nat} (h : l.Nodup) :
    (l.insertionSort (· ≤ ·)).Pairwise (· < ·) := by
  have hsorted := pairwise_insertionSort (· ≤ ·) l
  have hnodup := (perm_insertionSort (· ≤ ·) l).nodup_iff.mpr h
  exact (hsorted.and hnodup).imp fun ⟨hle, hne⟩ => lt_of_le_of_ne hle hne

theorem SccDecomposition.Minted.mint {g : GraphView} {d : SccDecomposition} (h : d.Minted g)
    {members : List Nat} (hnodup : members.Nodup) (hne : members ≠ [])
    (hlive : ∀ n ∈ members, n ∈ g.nodeIds) (hnew : ∀ n ∈ members, d.componentOf n = none)
    (hclass : ∀ a ∈ members, ∀ b ∈ members, g.Mutual a b)
    (hapart : ∀ a ∈ members, ∀ b, (d.componentOf b).isSome → ¬ g.Mutual a b)
    {componentOf : Nat → Option Nat} (hof : ∀ n, componentOf n =
      if n ∈ members then some d.components.length else d.componentOf n) :
    (⟨d.components ++ [members.insertionSort (· ≤ ·)], componentOf⟩ : SccDecomposition).Minted g := by
  have hold : ∀ n i, n ∉ members → componentOf n = some i → d.componentOf n = some i := by
    intro n i hn hi
    rwa [hof, if_neg hn] at hi
  have hmember : ∀ n i, n ∈ members → componentOf n = some i → i = d.components.length := by
    intro n i hn hi
    rw [hof, if_pos hn] at hi
    exact (Option.some.inj hi).symm
  refine ⟨?_, ?_, ?_, ?_, ?_, ?_⟩
  · intro i c hc n
    change _ ↔ componentOf n = some i
    rw [hof]
    rcases Nat.lt_or_ge i d.components.length with hlt | hge
    · rw [getElem?_append_left hlt] at hc
      rw [h.mem_iff i c hc]
      split
      · next hn =>
        rw [hnew n hn]
        refine iff_of_false (by simp) fun heq => ?_
        have := Option.some.inj heq
        omega
      · exact Iff.rfl
    · rw [getElem?_append_right hge] at hc
      have hi : i - d.components.length = 0 := by
        have := (List.getElem?_eq_some_iff.mp hc).1
        rw [length_singleton] at this
        omega
      rw [hi] at hc
      cases hc
      obtain rfl : i = d.components.length := by omega
      rw [mem_insertionSort]
      split
      · next hn => exact iff_of_true hn rfl
      · next hn =>
        refine iff_of_false hn fun heq => ?_
        exact Nat.lt_irrefl _ (h.index_lt n _ heq)
  · intro n i hi
    change i < (d.components ++ [_]).length
    rw [length_append, length_singleton]
    by_cases hn : n ∈ members
    · rw [hmember n i hn hi]
      omega
    · exact Nat.lt_succ_of_lt (h.index_lt n i (hold n i hn hi))
  · intro c hc
    rcases mem_append.mp hc with hc | hc
    · exact h.nonempty c hc
    · rw [mem_singleton.mp hc]
      intro hnil
      have := (perm_insertionSort (· ≤ ·) members).length_eq
      rw [hnil] at this
      exact hne (length_eq_zero_iff.mp this.symm)
  · intro c hc
    rcases mem_append.mp hc with hc | hc
    · exact h.ascending c hc
    · rw [mem_singleton.mp hc]
      exact pairwise_lt_insertionSort hnodup
  · intro n hn
    by_cases hmem : n ∈ members
    · exact hlive n hmem
    · refine h.live n ?_
      change (componentOf n).isSome at hn
      rwa [hof, if_neg hmem] at hn
  · intro a b i j ha hb
    by_cases hma : a ∈ members
    · by_cases hmb : b ∈ members
      · rw [hmember a i hma ha, hmember b j hmb hb]
        exact iff_of_true rfl (hclass a hma b hmb)
      · have hb' := hold b j hmb hb
        refine iff_of_false ?_ (hapart a hma b (by rw [hb']; rfl))
        rw [hmember a i hma ha]
        have := h.index_lt b j hb'
        omega
    · have ha' := hold a i hma ha
      by_cases hmb : b ∈ members
      · refine iff_of_false ?_ fun hm => hapart b hmb a (by rw [ha']; rfl) ⟨hm.2, hm.1⟩
        rw [hmember b j hmb hb]
        have := h.index_lt a i ha'
        omega
      · exact h.same_iff a b i j ha' (hold b j hmb hb)

/-! ## What the walk keeps -/

namespace Tarjan.Search

variable {g : GraphView} {s : Search} {P : Nat → Nat → Prop}

def number (s : Search) (n : Nat) : Nat := (s.indices n).getD 0

/-- The open nodes, the innermost first. -/
def path (s : Search) : List Nat := s.calls.map SccFrame.node

/-- The edge has been looked at: no frame of its source has it still to read. -/
def Examined (g : GraphView) (s : Search) (x v : Nat) : Prop :=
  g.Edge x v ∧ ∀ f ∈ s.calls, f.node = x → ∃ seen, g.successors x = seen ++ f.rest ∧ v ∈ seen

/-- What the walk keeps; `P` are the edges just looked at and not dealt with yet. -/
structure Walking (g : GraphView) (P : Nat → Nat → Prop) (s : Search) : Prop where
  index_lt : ∀ n i, s.indices n = some i → i < s.nextIndex
  index_inj : ∀ n m i, s.indices n = some i → s.indices m = some i → n = m
  visited_iff : ∀ n, (s.indices n).isSome ↔ n ∈ s.stack ∨ (s.result.componentOf n).isSome
  unassigned : ∀ n ∈ s.stack, s.result.componentOf n = none
  onStack_iff : ∀ n, s.onStack n = true ↔ n ∈ s.stack
  live : ∀ n ∈ s.stack, n ∈ g.nodeIds
  descending : s.stack.Pairwise fun a b => s.number b < s.number a
  path_sublist : s.path.Sublist s.stack
  rest_eq : ∀ f ∈ s.calls, ∃ seen, g.successors f.node = seen ++ f.rest
  examined : ∀ x v, (s.indices x).isSome → Examined g s x v → ¬ P x v → (s.indices v).isSome
  assigned_closed : ∀ x v i, s.result.componentOf x = some i → g.Edge x v →
    ∃ j, s.result.componentOf v = some j ∧ j ≤ i
  up : ∀ x ∈ s.stack, ∃ y ∈ s.path, s.number y ≤ s.number x ∧ ReflTransGen g.Edge x y
  down : ∀ x ∈ s.stack, ∀ y ∈ s.path, s.number y ≤ s.number x → ReflTransGen g.Edge y x
  low : ∀ f ∈ s.path, ∃ y ∈ s.stack, s.number y = s.lowlinks f ∧ s.number y ≤ s.number f ∧
    ReflTransGen g.Edge f y
  low_le : ∀ pre f post, s.path = pre ++ f :: post → ∀ x ∈ s.stack, s.number f ≤ s.number x →
    (∀ c ∈ pre, s.number x < s.number c) → ∀ v ∈ s.stack, Examined g s x v → ¬ P x v →
    s.lowlinks f ≤ s.number v
  minted : s.result.Minted g

abbrev Settled (g : GraphView) (s : Search) : Prop := Walking g (fun _ _ => False) s

theorem settled_empty (g : GraphView) : Settled g empty :=
  ⟨by simp [empty], by simp [empty], by simp [empty], by simp [empty], by simp [empty],
    by simp [empty], .nil, .slnil, by simp [empty], by simp [empty], by simp [empty],
    by simp [empty], by simp [empty], by simp [empty, path], by simp [empty, path],
    SccDecomposition.minted_empty g⟩

theorem number_eq {n i : Nat} (h : s.indices n = some i) : s.number n = i := by
  unfold number
  rw [h]
  rfl

section Walking

variable (h : Walking g P s)

include h

variable {n : Nat}

theorem Walking.visited_of_mem (hn : n ∈ s.stack) : (s.indices n).isSome :=
  (h.visited_iff n).mpr (Or.inl hn)

theorem Walking.number_lt (hn : (s.indices n).isSome) : s.number n < s.nextIndex := by
  obtain ⟨i, hi⟩ := Option.isSome_iff_exists.mp hn
  rw [number_eq hi]
  exact h.index_lt n i hi

theorem Walking.stack_nodup : s.stack.Nodup :=
  h.descending.imp fun hlt heq => by
    subst heq
    exact Nat.lt_irrefl _ hlt

theorem Walking.mem_of_path (hn : n ∈ s.path) : n ∈ s.stack := h.path_sublist.subset hn

theorem Walking.path_descending : s.path.Pairwise fun a b => s.number b < s.number a :=
  h.descending.sublist h.path_sublist

theorem Walking.assigned_reach {x v : Nat} (hx : (s.result.componentOf x).isSome)
    (hreach : ReflTransGen g.Edge x v) : (s.result.componentOf v).isSome := by
  induction hreach with
  | refl => exact hx
  | tail _ he ih =>
    obtain ⟨i, hi⟩ := Option.isSome_iff_exists.mp ih
    obtain ⟨j, hj, _⟩ := h.assigned_closed _ _ i hi he
    rw [hj]
    rfl

/-! ## Entering a node -/

theorem Walking.enter {node : Nat} (hnew : s.indices node = none) (hlive : node ∈ g.nodeIds)
    (hreach : ∀ y ∈ s.path, ReflTransGen g.Edge y node) (hpending : ∀ x v, P x v → v = node) :
    Settled g (s.enter g node) := by
  have hunvisited : ¬ (s.indices node).isSome := by
    rw [hnew]
    exact Bool.false_ne_true
  have hnotin : node ∉ s.stack := fun hmem => hunvisited (h.visited_of_mem hmem)
  have hnotpath : node ∉ s.path := fun hmem => hnotin (h.mem_of_path hmem)
  have hself : (s.enter g node).indices node = some s.nextIndex := update_self ..
  have hother : ∀ n, n ≠ node → (s.enter g node).indices n = s.indices n :=
    fun n hn => update_of_ne hn _ _
  have hnumber : ∀ n, n ≠ node → (s.enter g node).number n = s.number n := by
    intro n hn
    unfold number
    rw [hother n hn]
  have hnumberSelf : (s.enter g node).number node = s.nextIndex := number_eq hself
  have hnumberIn : ∀ n ∈ s.stack, (s.enter g node).number n = s.number n :=
    fun n hn => hnumber n fun he => hnotin (he ▸ hn)
  have hbelow : ∀ n ∈ s.stack, s.number n < s.nextIndex := fun n hn =>
    h.number_lt (h.visited_of_mem hn)
  have hpath : (s.enter g node).path = node :: s.path := rfl
  have hstack : (s.enter g node).stack = node :: s.stack := rfl
  have hexamined : ∀ x v, x ≠ node → Examined g (s.enter g node) x v → Examined g s x v :=
    fun x v _ he => ⟨he.1, fun f hf => he.2 f (mem_cons_of_mem _ hf)⟩
  -- the edges of the node itself are all still to read
  have hfresh : ∀ v, ¬ Examined g (s.enter g node) node v := by
    intro v he
    obtain ⟨seen, hseen, hv⟩ := he.2 ⟨node, g.successors node⟩ mem_cons_self rfl
    have : seen = [] := by
      have hlen : (g.successors node).length = (seen ++ g.successors node).length :=
        congrArg List.length hseen
      rw [length_append] at hlen
      exact length_eq_zero_iff.mp (by omega)
    rw [this] at hv
    cases hv
  refine ⟨?_, ?_, ?_, ?_, ?_, ?_, ?_, ?_, ?_, ?_, h.assigned_closed, ?_, ?_, ?_, ?_, h.minted⟩
  · intro n i hi
    change i < s.nextIndex + 1
    by_cases hn : n = node
    · rw [hn, hself] at hi
      have := Option.some.inj hi
      omega
    · rw [hother n hn] at hi
      exact Nat.lt_succ_of_lt (h.index_lt n i hi)
  · intro n m i hn hm
    by_cases hen : n = node
    · by_cases hem : m = node
      · rw [hen, hem]
      · rw [hen, hself] at hn
        rw [hother m hem] at hm
        have := h.index_lt m i hm
        have := Option.some.inj hn
        omega
    · rw [hother n hen] at hn
      by_cases hem : m = node
      · rw [hem, hself] at hm
        have := h.index_lt n i hn
        have := Option.some.inj hm
        omega
      · rw [hother m hem] at hm
        exact h.index_inj n m i hn hm
  · intro n
    rw [hstack, mem_cons]
    by_cases hn : n = node
    · rw [hn, hself]
      exact iff_of_true rfl (Or.inl (Or.inl rfl))
    · rw [hother n hn, h.visited_iff n, or_assoc]
      exact (or_iff_right hn).symm
  · intro n hn
    rcases mem_cons.mp hn with rfl | hn
    · change s.result.componentOf n = none
      cases hc : s.result.componentOf n with
      | none => rfl
      | some i => exact absurd ((h.visited_iff n).mpr (Or.inr (by rw [hc]; rfl))) hunvisited
    · exact h.unassigned n hn
  · intro n
    change update s.onStack node true n = true ↔ _
    rw [hstack, mem_cons]
    by_cases hn : n = node
    · simp [hn]
    · rw [update_of_ne hn, h.onStack_iff]
      exact (or_iff_right hn).symm
  · intro n hn
    rcases mem_cons.mp hn with rfl | hn
    · exact hlive
    · exact h.live n hn
  · rw [hstack]
    refine pairwise_cons.mpr ⟨fun b hb => ?_, ?_⟩
    · rw [hnumberSelf, hnumberIn b hb]
      exact hbelow b hb
    · refine h.descending.imp_of_mem fun {a b} ha hb hlt => ?_
      rw [hnumberIn a ha, hnumberIn b hb]
      exact hlt
  · rw [hpath, hstack]
    exact h.path_sublist.cons_cons node
  · intro f hf
    rcases mem_cons.mp hf with rfl | hf
    · exact ⟨[], rfl⟩
    · exact h.rest_eq f hf
  · intro x v hx he _
    by_cases hxn : x = node
    · exact absurd (hxn ▸ he) (hfresh v)
    · by_cases hv : v = node
      · rw [hv, hself]
        rfl
      · rw [hother x hxn] at hx
        rw [hother v hv]
        exact h.examined x v hx (hexamined x v hxn he) fun hp => hv (hpending x v hp)
  · intro x hx
    rw [hpath]
    rcases mem_cons.mp hx with rfl | hx
    · exact ⟨x, mem_cons_self, Nat.le_refl _, .refl⟩
    · obtain ⟨y, hy, hle, hxy⟩ := h.up x hx
      refine ⟨y, mem_cons_of_mem _ hy, ?_, hxy⟩
      rw [hnumberIn x hx, hnumberIn y (h.mem_of_path hy)]
      exact hle
  · intro x hx y hy hle
    rw [hpath] at hy
    rcases mem_cons.mp hy with rfl | hy'
    · rcases mem_cons.mp hx with rfl | hx
      · exact .refl
      · rw [hnumberSelf, hnumberIn x hx] at hle
        have := hbelow x hx
        omega
    · rcases mem_cons.mp hx with rfl | hx
      · exact hreach y hy'
      · rw [hnumberIn x hx, hnumberIn y (h.mem_of_path hy')] at hle
        exact h.down x hx y hy' hle
  · intro f hf
    rw [hpath] at hf
    change ∃ y ∈ _, _ = update s.lowlinks node s.nextIndex f ∧ _
    rcases mem_cons.mp hf with rfl | hf
    · exact ⟨f, mem_cons_self, by rw [hnumberSelf, update_self], Nat.le_refl _, .refl⟩
    · obtain ⟨y, hy, heq, hle, hfy⟩ := h.low f hf
      refine ⟨y, mem_cons_of_mem _ hy, ?_, ?_, hfy⟩
      · rw [hnumberIn y hy, update_of_ne fun he : f = node => hnotpath (he ▸ hf)]
        exact heq
      · rw [hnumberIn y hy, hnumberIn f (h.mem_of_path hf)]
        exact hle
  · intro pre f post hsplit x hx hle habove v hv he _
    rw [hpath] at hsplit
    have hxn : x ≠ node := by
      rintro rfl
      exact hfresh v he
    have hx' : x ∈ s.stack := (mem_cons.mp hx).resolve_left hxn
    cases pre with
    | nil =>
      -- only the node itself lies in its stretch of the stack
      obtain ⟨rfl, _⟩ := List.cons.inj hsplit
      rw [hnumberSelf, hnumberIn x hx'] at hle
      have := hbelow x hx'
      omega
    | cons c pre =>
      obtain ⟨rfl, hrest⟩ := List.cons.inj hsplit
      have hf : f ∈ s.path := by
        rw [hrest]
        exact mem_append_right _ mem_cons_self
      rw [hnumberIn x hx', hnumberIn f (h.mem_of_path hf)] at hle
      change update s.lowlinks node s.nextIndex f ≤ _
      rw [update_of_ne fun heq : f = node => hnotpath (heq ▸ hf)]
      obtain ⟨y, _, hlow, hyf, _⟩ := h.low f hf
      rcases mem_cons.mp hv with rfl | hv
      · rw [hnumberSelf]
        have := hbelow f (h.mem_of_path hf)
        omega
      · rw [hnumberIn v hv]
        have hvn : v ≠ node := fun heq => hnotin (heq ▸ hv)
        refine h.low_le pre f post hrest x hx' hle (fun c' hc' => ?_) v hv
          (hexamined x v hxn he) fun hp => hvn (hpending x v hp)
        have hc'path : c' ∈ s.path := by
          rw [hrest]
          exact mem_append_left _ hc'
        have := habove c' (mem_cons_of_mem _ hc')
        rwa [hnumberIn x hx', hnumberIn c' (h.mem_of_path hc'path)] at this

/-! ## Looking at an edge -/

omit h in
theorem Walking.advance (hsettled : Settled g s) {node successor : Nat} {rest : List Nat}
    {calls : List SccFrame} (hcalls : s.calls = ⟨node, successor :: rest⟩ :: calls) :
    Walking g (fun x v => x = node ∧ v = successor) { s with calls := ⟨node, rest⟩ :: calls } := by
  have hpath : path { s with calls := ⟨node, rest⟩ :: calls } = s.path := by
    unfold path
    rw [hcalls]
    rfl
  have hexamined : ∀ x v, Examined g { s with calls := ⟨node, rest⟩ :: calls } x v →
      ¬ (x = node ∧ v = successor) → Examined g s x v := by
    intro x v he hne
    refine ⟨he.1, fun f hf hfx => ?_⟩
    rw [hcalls] at hf
    rcases mem_cons.mp hf with rfl | hf
    · subst hfx
      obtain ⟨seen, hseen, hv⟩ := he.2 ⟨node, rest⟩ mem_cons_self rfl
      obtain ⟨seen', hseen'⟩ := hsettled.rest_eq _ (by rw [hcalls]; exact mem_cons_self)
      have heq : seen' ++ [successor] = seen := by
        refine @append_cancel_right _ _ rest _ ?_
        rw [append_assoc]
        exact hseen'.symm.trans hseen
      rw [← heq] at hv
      refine ⟨seen', hseen', (mem_append.mp hv).resolve_right fun hv => ?_⟩
      exact hne ⟨rfl, mem_singleton.mp hv⟩
    · exact he.2 f (mem_cons_of_mem _ hf) hfx
  refine ⟨hsettled.index_lt, hsettled.index_inj, hsettled.visited_iff, hsettled.unassigned,
    hsettled.onStack_iff, hsettled.live, hsettled.descending, ?_, ?_, ?_, hsettled.assigned_closed,
    ?_, ?_, ?_, ?_, hsettled.minted⟩
  · rw [hpath]
    exact hsettled.path_sublist
  · intro f hf
    rcases mem_cons.mp hf with rfl | hf
    · obtain ⟨seen, hseen⟩ := hsettled.rest_eq _ (by rw [hcalls]; exact mem_cons_self)
      refine ⟨seen ++ [successor], ?_⟩
      rw [append_assoc]
      exact hseen
    · exact hsettled.rest_eq f (by rw [hcalls]; exact mem_cons_of_mem _ hf)
  · exact fun x v hx he hne => hsettled.examined x v hx (hexamined x v he hne) not_false
  · rw [hpath]
    exact hsettled.up
  · rw [hpath]
    exact hsettled.down
  · rw [hpath]
    exact hsettled.low
  · rw [hpath]
    intro pre f post hsplit x hx hle habove v hv he hne
    exact hsettled.low_le pre f post hsplit x hx hle habove v hv (hexamined x v he hne) not_false

theorem Walking.lower {node index : Nat} (path' : List Nat) (hpath : s.path = node :: path')
    (hindex : index < s.lowlinks node →
      ∃ y ∈ s.stack, s.number y = index ∧ ReflTransGen g.Edge node y)
    (hvisited : ∀ x v, P x v → Examined g s x v → (s.indices v).isSome)
    (hpending : ∀ x v, P x v → v ∈ s.stack → Examined g s x v →
      s.number node ≤ s.number x ∧ index ≤ s.number v) : Settled g (s.lower node index) := by
  have hlow : ∀ f, (s.lower node index).lowlinks f ≤ s.lowlinks f := by
    intro f
    change update s.lowlinks node _ f ≤ _
    by_cases hf : f = node
    · rw [hf, update_self]
      exact Nat.min_le_left _ _
    · rw [update_of_ne hf]
  have hself : (s.lower node index).lowlinks node = min (s.lowlinks node) index :=
    update_self ..
  refine ⟨h.index_lt, h.index_inj, h.visited_iff, h.unassigned, h.onStack_iff, h.live, h.descending,
    h.path_sublist, h.rest_eq, ?_, h.assigned_closed, h.up, h.down, ?_, ?_, h.minted⟩
  · intro x v hx he _
    by_cases hp : P x v
    · exact hvisited x v hp he
    · exact h.examined x v hx he hp
  · intro f hf
    obtain ⟨y, hy, heq, hle, hfy⟩ := h.low f hf
    by_cases hfn : f = node
    · subst hfn
      rw [hself]
      rcases Nat.lt_or_ge index (s.lowlinks f) with hlt | hge
      · obtain ⟨z, hz, hzindex, hreach⟩ := hindex hlt
        refine ⟨z, hz, ?_, ?_, hreach⟩
        · rw [Nat.min_eq_right hlt.le]
          exact hzindex
        · change s.number z ≤ s.number f
          omega
      · rw [Nat.min_eq_left hge]
        exact ⟨y, hy, heq, hle, hfy⟩
    · refine ⟨y, hy, ?_, hle, hfy⟩
      change _ = update s.lowlinks node _ f
      rw [update_of_ne hfn]
      exact heq
  · intro pre f post hsplit x hx hle habove v hv he _
    by_cases hp : P x v
    · obtain ⟨hnode, hnumber⟩ := hpending x v hp hv he
      change s.path = _ at hsplit
      rw [hpath] at hsplit
      cases pre with
      | nil =>
        obtain ⟨rfl, _⟩ := List.cons.inj hsplit
        rw [hself]
        exact (Nat.min_le_right _ _).trans hnumber
      | cons c pre =>
        obtain ⟨rfl, _⟩ := List.cons.inj hsplit
        have : s.number x < s.number node := habove node mem_cons_self
        omega
    · exact (hlow f).trans (h.low_le pre f post hsplit x hx hle habove v hv he hp)

theorem Walking.skip (hpending : ∀ x v, P x v → v ∉ s.stack ∧ (s.indices v).isSome) :
    Settled g s := by
  refine ⟨h.index_lt, h.index_inj, h.visited_iff, h.unassigned, h.onStack_iff, h.live, h.descending,
    h.path_sublist, h.rest_eq, ?_, h.assigned_closed, h.up, h.down, h.low, ?_, h.minted⟩
  · intro x v hx he _
    by_cases hp : P x v
    · exact (hpending x v hp).2
    · exact h.examined x v hx he hp
  · intro pre f post hsplit x hx hle habove v hv he _
    exact h.low_le pre f post hsplit x hx hle habove v hv he fun hp => (hpending x v hp).1 hv

end Walking

/-! ## Finishing a node -/

theorem popTo_append {pre post : List Nat} {node : Nat} (hnot : node ∉ pre) :
    popTo node (pre ++ node :: post) = (pre ++ [node], post) := by
  induction pre with
  | nil => simp [popTo]
  | cons x pre ih =>
    have hx : x ≠ node := fun he => hnot (he ▸ mem_cons_self)
    rw [cons_append, popTo, if_neg hx, ih fun hmem => hnot (mem_cons_of_mem _ hmem)]
    rfl

section Finish

variable (h : Settled g s) {node : Nat} {calls : List SccFrame} (hcalls : s.calls = ⟨node, []⟩ :: calls)

include h hcalls

omit h in
theorem path_eq : s.path = node :: calls.map SccFrame.node := by
  unfold path
  rw [hcalls]
  rfl

theorem Walking.node_mem : node ∈ s.stack :=
  h.mem_of_path (by rw [path_eq hcalls]; exact mem_cons_self)

theorem Walking.below_node {y : Nat} (hy : y ∈ calls.map SccFrame.node) :
    y ∈ s.path ∧ s.number y < s.number node := by
  have hpath := path_eq hcalls
  have hdesc := h.path_descending
  rw [hpath, pairwise_cons] at hdesc
  exact ⟨by rw [hpath]; exact mem_cons_of_mem _ hy, hdesc.1 y hy⟩

omit h in
theorem mem_calls {y : Nat} (hy : y ∈ s.path) (hne : y ≠ node) : y ∈ calls.map SccFrame.node := by
  rw [path_eq hcalls] at hy
  exact (mem_cons.mp hy).resolve_left hne

variable {v x : Nat}

/-- Every edge of what lies on the stack from the node up has been looked at. -/
theorem Walking.examined_of_le (hle : s.number node ≤ s.number x) (he : g.Edge x v) :
    Examined g s x v := by
  refine ⟨he, fun f hf hfx => ?_⟩
  rw [hcalls] at hf
  rcases mem_cons.mp hf with rfl | hf
  · obtain ⟨seen, hseen⟩ := h.rest_eq _ (by rw [hcalls]; exact mem_cons_self)
    subst hfx
    refine ⟨seen, hseen, ?_⟩
    have hv := he.2
    rw [hseen] at hv
    exact (mem_append.mp hv).resolve_right not_mem_nil
  · have := (h.below_node hcalls (mem_map_of_mem hf)).2
    rw [hfx] at this
    omega

/-- Dropping the frame of a finished node leaves the edges above it as they were. -/
theorem Walking.examined_of_popped {t : Search} (ht : t.calls = calls) (he : Examined g t x v) : Examined g s x v := by
  by_cases hx : x = node
  · exact h.examined_of_le hcalls (by rw [hx]) he.1
  · refine ⟨he.1, fun f hf hfx => ?_⟩
    rw [hcalls] at hf
    rcases mem_cons.mp hf with rfl | hf
    · exact absurd hfx.symm hx
    · exact he.2 f (by rw [ht]; exact hf) hfx

/-- A frame below the node, as a frame of the path before the node is dropped. -/
theorem Walking.low_le_below {pre : List Nat} {f : Nat} {post : List Nat}
    (hsplit : calls.map SccFrame.node = pre ++ f :: post) (hx : x ∈ s.stack)
    (hle : s.number f ≤ s.number x) (habove : ∀ c ∈ pre, s.number x < s.number c)
    (hbelow : s.number x < s.number node) (hv : v ∈ s.stack) (he : Examined g s x v) :
    s.lowlinks f ≤ s.number v := by
  refine h.low_le (node :: pre) f post ?_ x hx hle (fun c hc => ?_) v hv he not_false
  · rw [path_eq hcalls, hsplit]
    rfl
  · rcases mem_cons.mp hc with rfl | hc
    · exact hbelow
    · exact habove c hc

theorem Walking.leave (hlow : s.lowlinks node ≠ s.number node) : Settled g (s.leave node calls) := by
  have hpath := path_eq hcalls
  obtain ⟨y₀, hy₀, hlow₀, hle₀, hreach₀⟩ :=
    h.low node (by rw [hpath]; exact mem_cons_self)
  have hup : ∀ x ∈ s.stack, ∃ y ∈ calls.map SccFrame.node, s.number y ≤ s.number x ∧
      ReflTransGen g.Edge x y := by
    intro x hx
    obtain ⟨y, hy, hle, hxy⟩ := h.up x hx
    by_cases hyn : y = node
    · -- the way back leads below the node, and from there to a node that stays open
      obtain ⟨z, hz, hzle, hyz⟩ := h.up y₀ hy₀
      have hzn : z ≠ node := by
        rintro rfl
        omega
      rw [hyn] at hle hxy
      exact ⟨z, mem_calls hcalls hz hzn, by omega, hxy.trans (hreach₀.trans hyz)⟩
    · exact ⟨y, mem_calls hcalls hy hyn, hle, hxy⟩
  cases hc : calls with
  | nil =>
    obtain ⟨y, hy, _⟩ := hup node (h.node_mem hcalls)
    rw [hc] at hy
    cases hy
  | cons parent rest =>
    have hparent := (h.below_node hcalls (y := parent.node) (by rw [hc]; exact mem_cons_self))
    rw [← hc]
    have hpopped : Walking g (fun x _ => x ∈ s.stack ∧ s.number node ≤ s.number x)
        { s with calls } := by
      refine ⟨h.index_lt, h.index_inj, h.visited_iff, h.unassigned, h.onStack_iff, h.live,
        h.descending, ?_, ?_, ?_, h.assigned_closed, hup, ?_, ?_, ?_, h.minted⟩
      · refine List.Sublist.trans ?_ h.path_sublist
        rw [hpath]
        exact sublist_cons_self _ _
      · exact fun f hf => h.rest_eq f (by rw [hcalls]; exact mem_cons_of_mem _ hf)
      · exact fun x v hx he _ => h.examined x v hx (h.examined_of_popped hcalls rfl he) not_false
      · exact fun x hx y hy => h.down x hx y (h.below_node hcalls hy).1
      · exact fun f hf => h.low f (h.below_node hcalls hf).1
      · intro pre f post hsplit x hx hle habove v hv he hp
        exact h.low_le_below hcalls hsplit hx hle habove (Nat.lt_of_not_le fun hle => hp ⟨hx, hle⟩) hv
          (h.examined_of_popped hcalls rfl he)
    have hsettled : Settled g (Search.lower { s with calls } parent.node (s.lowlinks node)) := by
      refine hpopped.lower (rest.map SccFrame.node) ?_ ?_ ?_ ?_
      · change calls.map SccFrame.node = _
        rw [hc]
        rfl
      · intro _
        refine ⟨y₀, hy₀, hlow₀, ?_⟩
        exact (h.down node (h.node_mem hcalls) _ hparent.1 hparent.2.le).trans hreach₀
      · intro x v ⟨hx, _⟩ he
        exact h.examined x v (h.visited_of_mem hx) (h.examined_of_popped hcalls rfl he) not_false
      · intro x v ⟨hx, hle⟩ hv he
        refine ⟨hparent.2.le.trans hle, ?_⟩
        refine h.low_le [] node (calls.map SccFrame.node) hpath x hx hle (fun c hc => ?_) v hv
          (h.examined_of_popped hcalls rfl he) not_false
        cases hc
    rw [hc] at hsettled ⊢
    exact hsettled

theorem Walking.closed (hlow : s.lowlinks node = s.number node) (hx : x ∈ s.stack)
    (hle : s.number node ≤ s.number x) (he : g.Edge x v) :
    (v ∈ s.stack ∧ s.number node ≤ s.number v) ∨ (s.result.componentOf v).isSome := by
  have hexamined := h.examined_of_le hcalls hle he
  rcases (h.visited_iff v).mp (h.examined x v (h.visited_of_mem hx) hexamined not_false) with hv | hv
  · refine Or.inl ⟨hv, ?_⟩
    rw [← hlow]
    refine h.low_le [] node _ (path_eq hcalls) x hx hle (fun c hc => ?_) v hv hexamined not_false
    cases hc
  · exact Or.inr hv

theorem Walking.closed_reach (hlow : s.lowlinks node = s.number node) (hx : x ∈ s.stack)
    (hle : s.number node ≤ s.number x) (hreach : ReflTransGen g.Edge x v) :
    (v ∈ s.stack ∧ s.number node ≤ s.number v) ∨ (s.result.componentOf v).isSome := by
  induction hreach with
  | refl => exact Or.inl ⟨hx, hle⟩
  | tail _ he ih =>
    rcases ih with ⟨hv, hle⟩ | hv
    · exact h.closed hcalls hlow hv hle he
    · exact Or.inr (h.assigned_reach hv (.single he))

theorem Walking.mutual_node (hlow : s.lowlinks node = s.number node) (hx : x ∈ s.stack)
    (hle : s.number node ≤ s.number x) : g.Mutual x node := by
  have hnode : node ∈ s.path := by
    rw [path_eq hcalls]
    exact mem_cons_self
  refine ⟨?_, h.down x hx node hnode hle⟩
  obtain ⟨y, hy, _, hxy⟩ := h.up x hx
  rcases h.closed_reach hcalls hlow hx hle hxy with ⟨_, hyle⟩ | hassigned
  · by_cases hyn : y = node
    · exact hyn ▸ hxy
    · have := (h.below_node hcalls (mem_calls hcalls hy hyn)).2
      omega
  · rw [h.unassigned y (h.mem_of_path hy)] at hassigned
    cases hassigned

/-- A node that has seen no way back closes a component, and the walk goes on below it. -/
theorem Walking.close (hlow : s.lowlinks node = s.number node) :
    Settled g ((s.close node).leave node calls) := by
  obtain ⟨pre, post, hstack⟩ := append_of_mem (h.node_mem hcalls)
  have hdesc := h.descending
  rw [hstack, pairwise_append, pairwise_cons] at hdesc
  obtain ⟨_, ⟨hpost, _⟩, hcross⟩ := hdesc
  have hpre : ∀ x ∈ pre, s.number node < s.number x := fun x hx =>
    hcross x hx node mem_cons_self
  have hnotpre : node ∉ pre := fun hmem => Nat.lt_irrefl _ (hpre node hmem)
  have hpop : popTo node s.stack = (pre ++ [node], post) := by
    rw [hstack]
    exact popTo_append hnotpre
  -- the members are the stretch of the stack from the node up
  have hmembers : ∀ x, x ∈ pre ++ [node] ↔ x ∈ s.stack ∧ s.number node ≤ s.number x := by
    intro x
    rw [hstack, mem_append, mem_singleton, mem_append, mem_cons]
    constructor
    · rintro (hx | rfl)
      · exact ⟨Or.inl hx, (hpre x hx).le⟩
      · exact ⟨Or.inr (Or.inl rfl), Nat.le_refl _⟩
    · rintro ⟨hx | rfl | hx, hle⟩
      · exact Or.inl hx
      · exact Or.inr rfl
      · have := hpost x hx
        omega
  have hleft : ∀ x, x ∈ post ↔ x ∈ s.stack ∧ s.number x < s.number node := by
    intro x
    rw [hstack, mem_append, mem_cons]
    constructor
    · exact fun hx => ⟨Or.inr (Or.inr hx), hpost x hx⟩
    · rintro ⟨hx | rfl | hx, hlt⟩
      · have := hpre x hx
        omega
      · omega
      · exact hx
  have hpostsub : post.Sublist s.stack := by
    rw [hstack]
    exact (sublist_cons_self _ _).trans (sublist_append_right _ _)
  have hclose : s.close node = { s with
      stack := post
      onStack := fun n => s.onStack n && !decide (n ∈ pre ++ [node])
      result := ⟨s.result.components ++ [(pre ++ [node]).insertionSort (· ≤ ·)],
        fun n => if n ∈ pre ++ [node] then some s.result.components.length
          else s.result.componentOf n⟩ } := by
    unfold Search.close
    rw [hpop]
  have hclass : ∀ x ∈ pre ++ [node], g.Mutual x node := fun x hx =>
    h.mutual_node hcalls hlow ((hmembers x).mp hx).1 ((hmembers x).mp hx).2
  have hpopped : Settled g { s.close node with calls } := by
    rw [hclose]
    refine ⟨h.index_lt, h.index_inj, ?_, ?_, ?_, ?_, h.descending.sublist hpostsub, ?_, ?_, ?_, ?_, ?_,
      ?_, ?_, ?_, ?_⟩
    · intro n
      change _ ↔ n ∈ post ∨ (if n ∈ pre ++ [node] then some s.result.components.length
        else s.result.componentOf n).isSome
      rw [h.visited_iff n, hstack, mem_append, mem_cons]
      by_cases hn : n ∈ pre ++ [node]
      · rw [if_pos hn]
        refine iff_of_true ?_ (Or.inr rfl)
        rcases mem_append.mp hn with hn | hn
        · exact Or.inl (Or.inl hn)
        · exact Or.inl (Or.inr (Or.inl (mem_singleton.mp hn)))
      · rw [if_neg hn]
        rw [mem_append, mem_singleton, not_or] at hn
        refine or_congr_left ?_
        exact ⟨fun hx => (hx.resolve_left hn.1).resolve_left hn.2, fun hx => Or.inr (Or.inr hx)⟩
    · intro n hn
      change (if n ∈ pre ++ [node] then _ else _) = none
      obtain ⟨hmem, hlt⟩ := (hleft n).mp hn
      rw [if_neg fun hmember => ?_]
      · exact h.unassigned n hmem
      · have := ((hmembers n).mp hmember).2
        omega
    · intro n
      change (s.onStack n && !decide (n ∈ pre ++ [node])) = true ↔ n ∈ post
      rw [Bool.and_eq_true, h.onStack_iff, hleft, Bool.not_eq_true', decide_eq_false_iff_not, hmembers]
      constructor
      · exact fun ⟨hmem, hnot⟩ => ⟨hmem, Nat.lt_of_not_le fun hle => hnot ⟨hmem, hle⟩⟩
      · exact fun ⟨hmem, hlt⟩ => ⟨hmem, fun hmember => Nat.not_le_of_lt hlt hmember.2⟩
    · exact fun n hn => h.live n (hpostsub.subset hn)
    · -- the open nodes are the ones below the node
      change (calls.map SccFrame.node).Sublist post
      have hpathsub := h.path_sublist.filter fun x => decide (s.number x < s.number node)
      rw [path_eq hcalls, hstack, filter_append, filter_cons_of_neg (by simp),
        filter_cons_of_neg (by simp)] at hpathsub
      have h₁ : (calls.map SccFrame.node).filter (fun x => decide (s.number x < s.number node)) =
          calls.map SccFrame.node :=
        filter_eq_self.mpr fun y hy => decide_eq_true (h.below_node hcalls hy).2
      have h₂ : pre.filter (fun x => decide (s.number x < s.number node)) = [] :=
        filter_eq_nil_iff.mpr fun x hx hlt => by
          have := hpre x hx
          have := of_decide_eq_true hlt
          omega
      have h₃ : post.filter (fun x => decide (s.number x < s.number node)) = post :=
        filter_eq_self.mpr fun x hx => decide_eq_true (hpost x hx)
      rw [h₁, h₂, h₃] at hpathsub
      exact hpathsub
    · exact fun f hf => h.rest_eq f (by rw [hcalls]; exact mem_cons_of_mem _ hf)
    · exact fun x v hx he _ => h.examined x v hx (h.examined_of_popped hcalls rfl he) not_false
    · intro x v i hi he
      change (if x ∈ pre ++ [node] then _ else _) = some i at hi
      change ∃ j, (if v ∈ pre ++ [node] then _ else _) = some j ∧ j ≤ i
      by_cases hv : v ∈ pre ++ [node]
      · rw [if_pos hv]
        refine ⟨_, rfl, ?_⟩
        by_cases hx : x ∈ pre ++ [node]
        · rw [if_pos hx] at hi
          exact (Option.some.inj hi).le
        · -- an edge out of a component minted before stays among those
          rw [if_neg hx] at hi
          obtain ⟨j, hj, _⟩ := h.assigned_closed x v i hi he
          rw [h.unassigned v ((hmembers v).mp hv).1] at hj
          cases hj
      · rw [if_neg hv]
        by_cases hx : x ∈ pre ++ [node]
        · rw [if_pos hx] at hi
          obtain ⟨hxmem, hle⟩ := (hmembers x).mp hx
          rcases h.closed hcalls hlow hxmem hle he with hstay | hassigned
          · exact absurd ((hmembers v).mpr hstay) hv
          · obtain ⟨j, hj⟩ := Option.isSome_iff_exists.mp hassigned
            have := h.minted.index_lt v j hj
            have := Option.some.inj hi
            exact ⟨j, hj, by omega⟩
        · rw [if_neg hx] at hi
          exact h.assigned_closed x v i hi he
    · intro x hx
      obtain ⟨hmem, hlt⟩ := (hleft x).mp hx
      obtain ⟨y, hy, hle, hxy⟩ := h.up x hmem
      refine ⟨y, mem_calls hcalls hy ?_, hle, hxy⟩
      rintro rfl
      omega
    · exact fun x hx y hy => h.down x (hpostsub.subset hx) y (h.below_node hcalls hy).1
    · intro f hf
      obtain ⟨hfpath, hlt⟩ := h.below_node hcalls hf
      obtain ⟨y, hy, heq, hle, hfy⟩ := h.low f hfpath
      exact ⟨y, (hleft y).mpr ⟨hy, by omega⟩, heq, hle, hfy⟩
    · intro pre' f post' hsplit x hx hle habove v hv he _
      obtain ⟨hmem, hlt⟩ := (hleft x).mp hx
      exact h.low_le_below hcalls hsplit hmem hle habove hlt (hpostsub.subset hv)
        (h.examined_of_popped hcalls rfl he)
    · refine h.minted.mint ?_ (by simp) ?_ ?_ ?_ ?_ (fun _ => rfl)
      · have hnodup := h.stack_nodup
        rw [hstack, nodup_append, nodup_cons] at hnodup
        refine nodup_append.mpr ⟨hnodup.1, nodup_singleton _, fun a ha b hb => ?_⟩
        rw [mem_singleton.mp hb]
        exact hnodup.2.2 a ha node mem_cons_self
      · exact fun n hn => h.live n ((hmembers n).mp hn).1
      · exact fun n hn => h.unassigned n ((hmembers n).mp hn).1
      · intro a ha b hb
        obtain ⟨hab, hba⟩ := hclass a ha
        obtain ⟨hbn, hnb⟩ := hclass b hb
        exact ⟨hab.trans hnb, hbn.trans hba⟩
      · intro a ha b hb ⟨_, hba⟩
        have := h.assigned_reach hb hba
        rw [h.unassigned a ((hmembers a).mp ha).1] at this
        cases this
  -- the parent's low-link is lower already
  cases hc : calls with
  | nil =>
    rw [hc] at hpopped
    exact hpopped
  | cons parent rest =>
    have hparent := (h.below_node hcalls (y := parent.node) (by rw [hc]; exact mem_cons_self))
    obtain ⟨y, _, heq, hle, _⟩ := h.low parent.node hparent.1
    rw [hc] at hpopped
    have hsame : (s.close node).leave node (parent :: rest) =
        { s.close node with calls := parent :: rest } := by
      unfold Search.leave Search.lower
      rw [hclose]
      have hmin : min (s.lowlinks parent.node) (s.lowlinks node) = s.lowlinks parent.node := by
        have := hparent.2
        omega
      simp only [hmin, update_eq_self]
    rw [hsame]
    exact hpopped

end Finish

/-! ## The walk -/

/-- Edges still to read and frames still to close, and those that unvisited nodes may open. -/
def measure (g : GraphView) (s : Search) : Nat :=
  total (fun f : SccFrame => f.rest.length + 1) s.calls +
    total (fun n => if (s.indices n).isSome then 0 else (g.successors n).length + 1)
      (List.range g.nodeBound)

theorem measure_enter {node : Nat} (hlt : node < g.nodeBound) (hnew : s.indices node = none) :
    measure g (s.enter g node) ≤ measure g s := by
  have hdrop : total (fun n => if ((s.enter g node).indices n).isSome then 0
        else (g.successors n).length + 1) (List.range g.nodeBound) +
          ((g.successors node).length + 1) ≤
      total (fun n => if (s.indices n).isSome then 0 else (g.successors n).length + 1)
        (List.range g.nodeBound) := by
    refine total_drop ?_ (mem_range.mpr hlt) ?_
    · intro n _
      by_cases hn : n = node
      · simp [Search.enter, hn]
      · simp [Search.enter, hn]
    · simp [Search.enter, hnew]
  unfold measure
  simp only [Search.enter, total_cons] at hdrop ⊢
  omega

theorem leave_same (s : Search) (node : Nat) (calls : List SccFrame) :
    (s.leave node calls).indices = s.indices ∧ (s.leave node calls).calls = calls := by
  cases calls with
  | nil => exact ⟨rfl, rfl⟩
  | cons => exact ⟨rfl, rfl⟩

/-- What one turn of the walk does. -/
structure Turned (g : GraphView) (s s' : Search) : Prop where
  settled : Settled g s'
  measure_lt : measure g s' < measure g s
  visited : ∀ n, (s.indices n).isSome → (s'.indices n).isSome

theorem Walking.step (hg : g.Lawful) (h : Settled g s) {s' : Search} (hs : s.step g = some s') :
    Turned g s s' := by
  unfold Search.step at hs
  split at hs
  · cases hs
  · next node successor rest calls hcalls =>
    have hadvanced := Walking.advance h hcalls
    have hless : measure g { s with calls := ⟨node, rest⟩ :: calls } < measure g s := by
      simp [measure, hcalls, total_cons]
    have hnode : node ∈ s.stack := h.mem_of_path (by
      unfold path
      rw [hcalls]
      exact mem_cons_self)
    have hlive := h.live node hnode
    have hedge : g.Edge node successor := by
      obtain ⟨seen, hseen⟩ := h.rest_eq _ (by rw [hcalls]; exact mem_cons_self)
      refine ⟨hg.nodeIds_lt node hlive, ?_⟩
      change g.successors node = _ at hseen
      rw [hseen]
      exact mem_append_right _ mem_cons_self
    simp only at hs
    split at hs
    · next hnew =>
      cases hs
      have hsucc := hg.successors_live node hlive successor hedge.2
      refine ⟨hadvanced.enter hnew hsucc (fun y hy => ?_) fun x v hp => hp.2, ?_, fun n hn => ?_⟩
      · refine ReflTransGen.tail (h.down node hnode y ?_ ?_) hedge
        · unfold path at hy ⊢
          rw [hcalls]
          exact hy
        · -- the innermost node has the greatest number
          have hdesc := h.path_descending
          unfold path at hdesc hy
          rw [hcalls] at hdesc
          rcases mem_cons.mp hy with rfl | hy
          · exact Nat.le_refl _
          · exact ((pairwise_cons.mp hdesc).1 y hy).le
      · exact Nat.lt_of_le_of_lt (measure_enter (hg.nodeIds_lt _ hsucc) hnew) hless
      · by_cases he : n = successor
        · simp [Search.enter, he]
        · simpa [Search.enter, he] using hn
    · next index hindex =>
      cases hs
      split
      · next hon =>
        have hmem : successor ∈ s.stack := (h.onStack_iff successor).mp hon
        refine ⟨hadvanced.lower (calls.map SccFrame.node) rfl ?_ ?_ ?_, ?_,
          fun n hn => hn⟩
        · exact fun _ => ⟨successor, hmem, number_eq hindex, .single hedge⟩
        · rintro x v ⟨rfl, rfl⟩ _
          change (s.indices v).isSome
          rw [hindex]
          rfl
        · rintro x v ⟨rfl, rfl⟩ _ _
          exact ⟨Nat.le_refl _, (number_eq hindex).ge⟩
        · exact hless
      · next hoff =>
        refine ⟨hadvanced.skip ?_, hless, fun n hn => hn⟩
        rintro x v ⟨rfl, rfl⟩
        refine ⟨fun hmem => hoff ((h.onStack_iff v).mpr hmem), ?_⟩
        change (s.indices v).isSome
        rw [hindex]
        rfl
  · next node calls hcalls =>
    have hnumber : ∃ i, s.indices node = some i ∧ s.number node = i := by
      obtain ⟨i, hi⟩ := Option.isSome_iff_exists.mp (h.visited_of_mem (h.node_mem hcalls))
      exact ⟨i, hi, number_eq hi⟩
    obtain ⟨i, hi, hnum⟩ := hnumber
    have hmeasure : ∀ t : Search, t.indices = s.indices → t.calls = calls →
        measure g t < measure g s := by
      intro t hindices hcalls'
      unfold measure
      rw [hindices, hcalls', hcalls]
      simp only [total_cons]
      omega
    split at hs
    · next hlow =>
      cases hs
      obtain ⟨hindices, hcalls'⟩ := leave_same (s.close node) node calls
      rw [hi] at hlow
      refine ⟨h.close hcalls ?_, hmeasure _ hindices hcalls', fun n hn => ?_⟩
      · rw [hnum]
        exact Option.some.inj hlow
      · rw [hindices]
        exact hn
    · next hlow =>
      cases hs
      obtain ⟨hindices, hcalls'⟩ := leave_same s node calls
      rw [hi] at hlow
      refine ⟨h.leave hcalls ?_, hmeasure _ hindices hcalls', fun n hn => ?_⟩
      · rw [hnum]
        exact fun heq => hlow (congrArg some heq)
      · rw [hindices]
        exact hn

theorem run_spec (hg : g.Lawful) (h : Settled g s) (hcalls : s.calls = []) {start : Nat}
    (hstart : start ∈ g.nodeIds) : Settled g (s.run g start) ∧ (s.run g start).calls = [] ∧
      ((s.run g start).indices start).isSome ∧
      ∀ n, (s.indices n).isSome → ((s.run g start).indices n).isSome := by
  unfold run
  split
  · next hv => exact ⟨h, hcalls, hv, fun _ hn => hn⟩
  · next hv =>
    have hnew : s.indices start = none := Option.not_isSome_iff_eq_none.mp hv
    have hmeasure : measure g (s.enter g start) ≤
        total (fun n => (g.successors n).length + 1) (List.range g.nodeBound) := by
      refine (measure_enter (hg.nodeIds_lt _ hstart) hnew).trans ?_
      rw [measure, hcalls, total_nil, Nat.zero_add]
      exact total_le fun n _ => by split <;> omega
    have hentered : Settled g (s.enter g start) := by
      refine h.enter hnew hstart (fun y hy => ?_) fun _ _ hp => hp.elim
      unfold path at hy
      rw [hcalls] at hy
      cases hy
    obtain ⟨⟨hsettled, hmono⟩, hexit⟩ := iterate_spec
      (I := fun t => Settled g t ∧ ∀ n, ((s.enter g start).indices n).isSome → (t.indices n).isSome)
      (fun t t' ht hs => by
        have hturned := Walking.step hg ht.1 hs
        exact ⟨⟨hturned.settled, fun n hn => hturned.visited n (ht.2 n hn)⟩, hturned.measure_lt⟩)
      ⟨hentered, fun _ hn => hn⟩ hmeasure
    refine ⟨hsettled, ?_, hmono start (by simp [Search.enter]), fun n hn => hmono n ?_⟩
    · unfold Search.step at hexit
      split at hexit
      · assumption
      · simp only at hexit
        split at hexit <;> cases hexit
      · split at hexit <;> cases hexit
    · by_cases he : n = start
      · simp [Search.enter, he]
      · simpa [Search.enter, he] using hn

end Tarjan.Search

/-- What a decomposition of a whole graph says, up to the order of its components. -/
structure SccDecomposition.Decomposes (g : GraphView) (d : SccDecomposition) : Prop where
  minted : d.Minted g
  total : ∀ n ∈ g.nodeIds, ∃ i, d.componentOf n = some i

theorem tarjanScc_spec {g : GraphView} (hg : g.Lawful) : (tarjanScc g).Decomposes g ∧
    ∀ a b i j, g.Edge a b → (tarjanScc g).componentOf a = some i →
      (tarjanScc g).componentOf b = some j → j ≤ i := by
  have hfold : ∀ (l : List Nat) (s : Tarjan.Search), (∀ n ∈ l, n ∈ g.nodeIds) → s.Settled g →
      s.calls = [] → (l.foldl (Tarjan.Search.run g) s).Settled g ∧
        (l.foldl (Tarjan.Search.run g) s).calls = [] ∧
        ∀ n, n ∈ l ∨ (s.indices n).isSome → ((l.foldl (Tarjan.Search.run g) s).indices n).isSome := by
    intro l
    induction l with
    | nil => exact fun s _ h hc => ⟨h, hc, fun n hn => hn.resolve_left not_mem_nil⟩
    | cons a l ih =>
      intro s hl h hc
      obtain ⟨h₁, h₂, h₃, h₄⟩ := Tarjan.Search.run_spec hg h hc (hl a mem_cons_self)
      obtain ⟨k₁, k₂, k₃⟩ := ih _ (fun n hn => hl n (mem_cons_of_mem a hn)) h₁ h₂
      refine ⟨k₁, k₂, ?_⟩
      rintro n (hn | hn)
      · rcases mem_cons.mp hn with rfl | hn
        · exact k₃ n (Or.inr h₃)
        · exact k₃ n (Or.inl hn)
      · exact k₃ n (Or.inr (h₄ n hn))
  obtain ⟨hsettled, hcalls, hall⟩ := hfold g.nodeIds .empty (fun _ hn => hn)
    (Tarjan.Search.settled_empty g) rfl
  change (tarjanScc g).Decomposes g ∧ _
  refine ⟨⟨hsettled.minted, fun n hn => ?_⟩, fun a b i j he hi hj => ?_⟩
  · rcases (hsettled.visited_iff n).mp (hall n (Or.inl hn)) with hstack | hassigned
    · obtain ⟨y, hy, _⟩ := hsettled.up n hstack
      unfold Tarjan.Search.path at hy
      rw [hcalls] at hy
      cases hy
    · exact Option.isSome_iff_exists.mp hassigned
  · obtain ⟨j', hj', hle⟩ := hsettled.assigned_closed a b i hi he
    have heq : some j = some j' := hj.symm.trans hj'
    cases heq
    exact hle

end CfgLib
