import CfgLib.Graph.Tarjan

/-!
# Strongly connected components by finish time, continued

`graph/scc.rs`: why the reverse walk of `kosaraju_scc` mints exactly the classes of
mutual reachability.  A node that finishes before another either is reached by it or
was finished when the other was entered, and then leads to it only through nodes that
finish later.
-/

namespace CfgLib

open CfgLib.Lib Relation Kosaraju List Function

variable {g : GraphView}

/-- Before each node of the order stand nodes that had finished when it was entered, and then
nodes it leads to; the edges out of the former lead among them or behind the node. -/
structure FinishOrdered (g : GraphView) (order : List Nat) : Prop where
  nodup : order.Nodup
  split : ∀ r ∈ order, ∃ before within after, order = before ++ within ++ r :: after ∧
    (∀ x ∈ within, ReflTransGen g.Edge r x) ∧
    ∀ a ∈ before, ∀ y, g.Edge a y → y ∈ before ∨ y ∈ after

namespace Kosaraju

/-! ## The finish order -/

namespace Finishing

variable {s : Finishing} {P : Nat → Prop}

def path (s : Finishing) : List Nat := s.calls.map SccFrame.node

/-- What the finish-time walk keeps of the order; `P` are nodes just read and not entered yet. -/
structure Ordering (g : GraphView) (P : Nat → Prop) (s : Finishing) : Prop where
  wf : s.WF g
  nodup : (s.finishOrder ++ s.path).Nodup
  rest_eq : ∀ f ∈ s.calls, ∃ seen, g.successors f.node = seen ++ f.rest ∧
    ∀ v ∈ seen, s.visited v ∨ P v
  finished : ∀ a ∈ s.finishOrder, ∀ v ∈ g.successors a, s.visited v
  frames : ∀ pre f post, s.calls = pre ++ f :: post → ∃ before within,
    s.finishOrder = before ++ within ∧ (∀ x ∈ within, ReflTransGen g.Edge f.node x) ∧
      (∀ c ∈ pre, ReflTransGen g.Edge f.node c.node) ∧
      ∀ a ∈ before, ∀ y, g.Edge a y → y ∈ before ∨ y ∈ post.map SccFrame.node
  split : ∀ r ∈ s.finishOrder, ∃ before within after,
    s.finishOrder = before ++ within ++ r :: after ∧ (∀ x ∈ within, ReflTransGen g.Edge r x) ∧
      ∀ a ∈ before, ∀ y, g.Edge a y → y ∈ before ∨ y ∈ after ∨ y ∈ s.path

theorem ordering_empty : Ordering g (fun _ => False) empty :=
  ⟨wf_empty, .nil, by simp [empty], by simp [empty], by simp [empty], by simp [empty]⟩

theorem Ordering.mem_of_visited (h : Ordering g P s) {n : Nat} (hn : s.visited n) :
    n ∈ s.finishOrder ∨ n ∈ s.path := (h.wf.visited_iff n).mp hn

variable {calls : List SccFrame} {node : Nat}

theorem Ordering.enter (hg : g.Lawful) (h : Ordering g P s)
    (hnew : s.visited node = false) (hlive : node ∈ g.nodeIds) (hpending : ∀ v, P v → v = node)
    (hreach : ∀ f ∈ s.calls, ReflTransGen g.Edge f.node node) :
    Ordering g (fun _ => False) (s.enter g node) := by
  have hnot : ¬ s.visited node = true := by
    rw [hnew]
    exact Bool.false_ne_true
  have hkeep : ∀ n, s.visited n → (s.enter g node).visited n := by
    intro n hn
    by_cases he : n = node
    · simp [Finishing.enter, he]
    · simpa [Finishing.enter, he] using hn
  refine ⟨h.wf.enter hg hlive, ?_, ?_, fun a ha v hv => hkeep v (h.finished a ha v hv), ?_, ?_⟩
  · change (s.finishOrder ++ node :: s.path).Nodup
    rw [nodup_middle, nodup_cons]
    refine ⟨fun hmem => hnot ((h.wf.visited_iff node).mpr ?_), h.nodup⟩
    exact mem_append.mp hmem
  · intro f hf
    rcases mem_cons.mp hf with rfl | hf
    · exact ⟨[], rfl, fun v hv => by cases hv⟩
    · obtain ⟨seen, hseen, hall⟩ := h.rest_eq f hf
      refine ⟨seen, hseen, fun v hv => Or.inl ?_⟩
      rcases hall v hv with hv | hv
      · exact hkeep v hv
      · simp [Finishing.enter, hpending v hv]
  · intro pre f post hsplit
    change ⟨node, g.successors node⟩ :: s.calls = _ at hsplit
    cases pre with
    | nil =>
      cases hsplit
      refine ⟨s.finishOrder, [], (append_nil _).symm, fun x hx => (by cases hx),
        fun c hc => (by cases hc), fun a ha y he => ?_⟩
      exact h.mem_of_visited (h.finished a ha y he.2)
    | cons c pre =>
      obtain ⟨rfl, hrest⟩ := List.cons.inj hsplit
      obtain ⟨before, within, horder, hwithin, habove, hbefore⟩ := h.frames pre f post hrest
      refine ⟨before, within, horder, hwithin, fun c hc => ?_, hbefore⟩
      rcases mem_cons.mp hc with rfl | hc
      · exact hreach f (by rw [hrest]; exact mem_append_right _ mem_cons_self)
      · exact habove c hc
  · intro r hr
    obtain ⟨before, within, after, horder, hwithin, hbefore⟩ := h.split r hr
    refine ⟨before, within, after, horder, hwithin, fun a ha y he => ?_⟩
    rcases hbefore a ha y he with hy | hy | hy
    · exact Or.inl hy
    · exact Or.inr (Or.inl hy)
    · exact Or.inr (Or.inr (mem_cons_of_mem _ hy))

theorem Ordering.advance (h : Ordering g P s) {successor : Nat} {rest : List Nat}
    (hcalls : s.calls = ⟨node, successor :: rest⟩ :: calls)
    (hwf : WF g { s with calls := ⟨node, rest⟩ :: calls }) {P' : Nat → Prop}
    (hpending : ∀ v, P v → P' v) (hsuccessor : s.visited successor ∨ P' successor) :
    Ordering g P' { s with calls := ⟨node, rest⟩ :: calls } := by
  have hpath : path { s with calls := ⟨node, rest⟩ :: calls } = s.path := by
    unfold path
    rw [hcalls]
    rfl
  refine ⟨hwf, ?_, ?_, h.finished, ?_, ?_⟩
  · rw [hpath]
    exact h.nodup
  · intro f hf
    rcases mem_cons.mp hf with rfl | hf
    · obtain ⟨seen, hseen, hall⟩ := h.rest_eq _ (by rw [hcalls]; exact mem_cons_self)
      refine ⟨seen ++ [successor], ?_, fun v hv => ?_⟩
      · rw [append_assoc]
        exact hseen
      · rcases mem_append.mp hv with hv | hv
        · exact (hall v hv).imp_right (hpending v)
        · rw [mem_singleton.mp hv]
          exact hsuccessor
    · obtain ⟨seen, hseen, hall⟩ := h.rest_eq f (by rw [hcalls]; exact mem_cons_of_mem _ hf)
      exact ⟨seen, hseen, fun v hv => (hall v hv).imp_right (hpending v)⟩
  · intro pre f post hsplit
    cases pre with
    | nil =>
      cases hsplit
      obtain ⟨before, within, horder, hwithin, _, hbefore⟩ := h.frames [] _ calls hcalls
      exact ⟨before, within, horder, hwithin, fun c hc => (by cases hc), hbefore⟩
    | cons c pre =>
      obtain ⟨rfl, hrest⟩ := List.cons.inj hsplit
      obtain ⟨before, within, horder, hwithin, habove, hbefore⟩ :=
        h.frames (⟨node, successor :: rest⟩ :: pre) f post (by rw [hcalls, hrest]; rfl)
      refine ⟨before, within, horder, hwithin, fun c hc => ?_, hbefore⟩
      rcases mem_cons.mp hc with rfl | hc
      · exact habove ⟨node, successor :: rest⟩ mem_cons_self
      · exact habove c (mem_cons_of_mem _ hc)
  · rw [hpath]
    exact h.split

theorem Ordering.finish (h : Ordering g (fun _ => False) s) (hcalls : s.calls = ⟨node, []⟩ :: calls)
    (hwf : WF g { s with finishOrder := s.finishOrder ++ [node], calls := calls }) :
    Ordering g (fun _ => False) { s with finishOrder := s.finishOrder ++ [node], calls := calls } := by
  have hpath : s.path = node :: calls.map SccFrame.node := by
    unfold path
    rw [hcalls]
    rfl
  refine ⟨hwf, ?_, ?_, ?_, ?_, ?_⟩
  · have hnodup := h.nodup
    rw [hpath] at hnodup
    change (s.finishOrder ++ [node] ++ calls.map SccFrame.node).Nodup
    rw [append_assoc]
    exact hnodup
  · exact fun f hf => h.rest_eq f (by rw [hcalls]; exact mem_cons_of_mem _ hf)
  · intro a ha v hv
    rcases mem_append.mp ha with ha | ha
    · exact h.finished a ha v hv
    · obtain ⟨seen, hseen, hall⟩ := h.rest_eq _ (by rw [hcalls]; exact mem_cons_self)
      rw [mem_singleton.mp ha] at hv
      change g.successors node = seen ++ [] at hseen
      rw [hseen, append_nil] at hv
      exact (hall v hv).resolve_right id
  · intro pre f post hsplit
    change calls = _ at hsplit
    obtain ⟨before, within, horder, hwithin, habove, hbefore⟩ :=
      h.frames (⟨node, []⟩ :: pre) f post (by rw [hcalls, hsplit]; rfl)
    refine ⟨before, within ++ [node], ?_, fun x hx => ?_,
      fun c hc => habove c (mem_cons_of_mem _ hc), hbefore⟩
    · change s.finishOrder ++ [node] = _
      rw [horder, append_assoc]
    · rcases mem_append.mp hx with hx | hx
      · exact hwithin x hx
      · rw [mem_singleton.mp hx]
        exact habove ⟨node, []⟩ mem_cons_self
  · intro r hr
    rcases mem_append.mp hr with hr | hr
    · obtain ⟨before, within, after, horder, hwithin, hbefore⟩ := h.split r hr
      refine ⟨before, within, after ++ [node], ?_, hwithin, fun a ha y he => ?_⟩
      · change s.finishOrder ++ [node] = _
        rw [horder]
        simp
      · rcases hbefore a ha y he with hy | hy | hy
        · exact Or.inl hy
        · exact Or.inr (Or.inl (mem_append_left _ hy))
        · rw [hpath] at hy
          rcases mem_cons.mp hy with rfl | hy
          · exact Or.inr (Or.inl (mem_append_right _ (mem_singleton_self y)))
          · exact Or.inr (Or.inr hy)
    · rw [mem_singleton.mp hr]
      obtain ⟨before, within, horder, hwithin, _, hbefore⟩ := h.frames [] _ calls hcalls
      refine ⟨before, within, [], ?_, hwithin, fun a ha y he => ?_⟩
      · change s.finishOrder ++ [node] = _
        rw [horder]
      · exact (hbefore a ha y he).imp_right Or.inr

theorem Ordering.step (hg : g.Lawful) (h : Ordering g (fun _ => False) s) {s' : Finishing}
    (hs : Finishing.step g s = some s') : Ordering g (fun _ => False) s' := by
  have hwf := (h.wf.step hg hs).1
  unfold Finishing.step at hs
  split at hs
  · cases hs
  · next node successor rest calls hcalls =>
    have hrest : WF g { s with calls := ⟨node, rest⟩ :: calls } := by
      refine ⟨fun n => by rw [h.wf.visited_iff n, hcalls]; rfl, h.wf.live, ?_⟩
      intro f hf m hm
      rcases mem_cons.mp hf with rfl | hf
      · exact h.wf.rest_live ⟨node, successor :: rest⟩ (by rw [hcalls]; exact mem_cons_self) m
          (mem_cons_of_mem _ hm)
      · exact h.wf.rest_live f (by rw [hcalls]; exact mem_cons_of_mem _ hf) m hm
    have hsucc := h.wf.rest_live ⟨node, successor :: rest⟩ (by rw [hcalls]; exact mem_cons_self)
      successor mem_cons_self
    have hnode : node ∈ g.nodeIds := h.wf.live node ((h.wf.visited_iff node).mpr (Or.inr (by
      rw [hcalls]
      exact mem_cons_self)))
    cases hs
    dsimp only at hwf ⊢
    split
    · next hv => exact h.advance hcalls hrest (fun v hv => hv.elim) (Or.inl hv)
    · next hv =>
      have hadvanced : Ordering g (fun v => v = successor)
          { s with calls := ⟨node, rest⟩ :: calls } :=
        h.advance hcalls hrest (fun v hv => hv.elim) (Or.inr rfl)
      refine hadvanced.enter hg (by simpa using hv) hsucc (fun v hv => hv) fun f hf => ?_
      have hedge : g.Edge node successor := by
        obtain ⟨seen, hseen, _⟩ := h.rest_eq _ (by rw [hcalls]; exact mem_cons_self)
        refine ⟨hg.nodeIds_lt node hnode, ?_⟩
        change g.successors node = _ at hseen
        rw [hseen]
        exact mem_append_right _ mem_cons_self
      obtain ⟨pre, post, hsplit⟩ := append_of_mem hf
      obtain ⟨_, _, _, _, habove, _⟩ := hadvanced.frames pre f post hsplit
      -- the frame is the innermost one or lies below it
      cases pre with
      | nil =>
        cases hsplit
        exact .single hedge
      | cons c pre =>
        obtain ⟨rfl, _⟩ := List.cons.inj hsplit
        exact ReflTransGen.tail (habove _ mem_cons_self) hedge
  · next node calls hcalls =>
    cases hs
    exact h.finish hcalls hwf

theorem ordering_run (hg : g.Lawful) (h : Ordering g (fun _ => False) s) (hcalls : s.calls = [])
    {start : Nat} (hstart : start ∈ g.nodeIds) : Ordering g (fun _ => False) (s.run g start) := by
  unfold run
  split
  · exact h
  · next hv =>
    refine iterate_invariant (fun t t' ht hs => Ordering.step hg ht hs) _ ?_
    refine h.enter hg (by simpa using hv) hstart (fun v hv => hv.elim) fun f hf => ?_
    rw [hcalls] at hf
    cases hf

end Finishing

theorem finishOrder_ordered (hg : g.Lawful) : FinishOrdered g (finishOrder g) := by
  have hfold : ∀ (l : List Nat) (s : Finishing), (∀ n ∈ l, n ∈ g.nodeIds) →
      s.Ordering g (fun _ => False) → s.calls = [] →
      (l.foldl (Finishing.run g) s).Ordering g (fun _ => False) ∧
        (l.foldl (Finishing.run g) s).calls = [] := by
    intro l
    induction l with
    | nil => exact fun s _ h hc => ⟨h, hc⟩
    | cons a l ih =>
      intro s hl h hc
      have ha := hl a mem_cons_self
      exact ih _ (fun n hn => hl n (mem_cons_of_mem a hn)) (Finishing.ordering_run hg h hc ha)
        (Finishing.run_spec hg h.wf hc ha).2.1
  obtain ⟨h, hcalls⟩ := hfold g.nodeIds .empty (fun _ hn => hn) Finishing.ordering_empty rfl
  refine ⟨(nodup_append.mp h.nodup).1, fun r hr => ?_⟩
  obtain ⟨before, within, after, horder, hwithin, hbefore⟩ := h.split r hr
  refine ⟨before, within, after, horder, hwithin, fun a ha y he => ?_⟩
  rcases hbefore a ha y he with hy | hy | hy
  · exact Or.inl hy
  · exact Or.inr hy
  · unfold Finishing.path at hy
    rw [hcalls] at hy
    cases hy

/-! ## The reverse walk -/

namespace Collecting

variable {base : Nat → Option Nat} {index root : Nat} {s : Collecting}

def claimed (s : Collecting) : List Nat := s.nodes ++ s.stack

/-- What the reverse walk of one component keeps; `base` is what was minted before. -/
structure Gathering (g : GraphView) (base : Nat → Option Nat) (index root : Nat) (s : Collecting) :
    Prop where
  wf : s.WF g
  of_eq : ∀ n, s.componentOf n = if n ∈ s.claimed then some index else base n
  nodup : s.claimed.Nodup
  fresh : ∀ n ∈ s.claimed, base n = none
  reaches : ∀ n ∈ s.claimed, ReflTransGen g.Edge n root
  rooted : root ∈ s.claimed

/-- Every node collected has its predecessors in components. -/
def Drained (g : GraphView) (s : Collecting) : Prop :=
  ∀ n ∈ s.nodes, ∀ p, g.Edge p n → (s.componentOf p).isSome

variable {node : Nat}

theorem Gathering.claim (hg : g.Lawful) (h : Gathering g base index root s) {predecessor : Nat}
    (hnode : node ∈ s.claimed) (hp : predecessor ∈ g.predecessors node) :
    Gathering g base index root (s.claim index predecessor) ∧
      (∀ n, n ∈ s.claimed → n ∈ (s.claim index predecessor).claimed) ∧
      (s.claim index predecessor).nodes = s.nodes := by
  have hlive : node ∈ g.nodeIds := by
    refine h.wf.claimed_live node ?_
    rw [h.of_eq, if_pos hnode]
    rfl
  have hedge : g.Edge predecessor node := (hg.mem_predecessors (hg.nodeIds_lt node hlive)).mp hp
  have hwf := (claim_spec index hg h.wf (hg.predecessors_live node hlive predecessor hp)).1
  unfold Collecting.claim at hwf ⊢
  split
  · next hnone =>
    rw [if_pos hnone] at hwf
    have hnot : predecessor ∉ s.claimed := by
      intro hmem
      rw [h.of_eq, if_pos hmem] at hnone
      cases hnone
    have hmem : ∀ n, n ∈ s.nodes ++ predecessor :: s.stack ↔ n = predecessor ∨ n ∈ s.claimed := by
      intro n
      unfold claimed
      simp only [mem_append, mem_cons]
      tauto
    refine ⟨⟨hwf, ?_, ?_, ?_, ?_, (hmem root).mpr (Or.inr h.rooted)⟩,
      fun n hn => (hmem n).mpr (Or.inr hn), rfl⟩
    · intro n
      change update s.componentOf predecessor (some index) n =
        if n ∈ s.nodes ++ predecessor :: s.stack then _ else _
      by_cases hn : n = predecessor
      · rw [hn, update_self, if_pos ((hmem predecessor).mpr (Or.inl rfl))]
      · rw [update_of_ne hn, h.of_eq]
        refine if_congr ?_ rfl rfl
        rw [hmem]
        exact (or_iff_right hn).symm
    · change (s.nodes ++ predecessor :: s.stack).Nodup
      rw [nodup_middle, nodup_cons]
      exact ⟨hnot, h.nodup⟩
    · intro n hn
      rcases (hmem n).mp hn with rfl | hn
      · have := h.of_eq n
        rw [if_neg hnot] at this
        rw [← this]
        exact Option.isNone_iff_eq_none.mp hnone
      · exact h.fresh n hn
    · intro n hn
      rcases (hmem n).mp hn with rfl | hn
      · exact .head hedge (h.reaches node hnode)
      · exact h.reaches n hn
  · exact ⟨h, fun n hn => hn, rfl⟩

theorem Gathering.foldl_claim (hg : g.Lawful) (l : List Nat) :
    ∀ s : Collecting, Gathering g base index root s → node ∈ s.claimed →
      (∀ p ∈ l, p ∈ g.predecessors node) →
      Gathering g base index root (l.foldl (Collecting.claim index) s) ∧
        (l.foldl (Collecting.claim index) s).nodes = s.nodes := by
  induction l with
  | nil => exact fun s h _ _ => ⟨h, rfl⟩
  | cons p l ih =>
    intro s h hnode hl
    obtain ⟨h₁, hmono, hnodes⟩ := h.claim hg hnode (hl p mem_cons_self)
    obtain ⟨h₂, hnodes'⟩ := ih _ h₁ (hmono node hnode) fun q hq => hl q (mem_cons_of_mem p hq)
    exact ⟨h₂, hnodes'.trans hnodes⟩

theorem isSome_claim (s : Collecting) (index p : Nat) : ((s.claim index p).componentOf p).isSome := by
  unfold Collecting.claim
  split
  · simp
  · next hsome =>
    rw [Bool.not_eq_true, Option.isNone_eq_false_iff] at hsome
    exact hsome

theorem isSome_foldl_claim (hg : g.Lawful) (l : List Nat) : ∀ s : Collecting, s.WF g →
    (∀ n ∈ l, n ∈ g.nodeIds) → ∀ p ∈ l, ((l.foldl (Collecting.claim index) s).componentOf p).isSome := by
  induction l with
  | nil => exact fun s _ _ p hp => by cases hp
  | cons q l ih =>
    intro s h hl p hp
    have hq := hl q mem_cons_self
    have hrest := fun n hn => hl n (mem_cons_of_mem q hn)
    have hwf := (claim_spec index hg h hq).1
    rcases mem_cons.mp hp with rfl | hp
    · exact (foldl_claim index hg l _ hwf hrest).2.2 p (isSome_claim s index p)
    · exact ih _ hwf hrest p hp

theorem Gathering.step (hg : g.Lawful) (h : Gathering g base index root s) (hdrained : Drained g s)
    {s' : Collecting} (hs : Collecting.step g index s = some s') :
    Gathering g base index root s' ∧ Drained g s' := by
  have hmono := (h.wf.step hg hs).2.2
  unfold Collecting.step at hs
  split at hs
  · cases hs
  · next node stack hstack =>
    cases hs
    have hclaimed : claimed { s with nodes := s.nodes ++ [node], stack := stack } = s.claimed := by
      unfold claimed
      rw [hstack, append_assoc]
      rfl
    have hnode : node ∈ s.claimed := by
      unfold claimed
      rw [hstack]
      exact mem_append_right _ mem_cons_self
    have hlive := h.wf.stack_live node (by rw [hstack]; exact mem_cons_self)
    have hpopped : Gathering g base index root
        { s with nodes := s.nodes ++ [node], stack := stack } := by
      refine ⟨⟨h.wf.claimed_live, fun n hn => h.wf.stack_live n ?_, fun n hn => ?_⟩, ?_, ?_, ?_, ?_, ?_⟩
      · rw [hstack]
        exact mem_cons_of_mem _ hn
      · rcases mem_append.mp hn with hn | hn
        · exact h.wf.nodes_live n hn
        · rwa [mem_singleton.mp hn]
      · rw [hclaimed]
        exact h.of_eq
      · rw [hclaimed]
        exact h.nodup
      · rw [hclaimed]
        exact h.fresh
      · rw [hclaimed]
        exact h.reaches
      · rw [hclaimed]
        exact h.rooted
    obtain ⟨hgathering, hnodes⟩ := Gathering.foldl_claim hg (g.predecessors node) _ hpopped
      (by rw [hclaimed]; exact hnode) (fun p hp => hp)
    refine ⟨hgathering, fun n hn p hp => ?_⟩
    rw [hnodes] at hn
    rcases mem_append.mp hn with hn | hn
    · exact hmono p (hdrained n hn p hp)
    · rw [mem_singleton.mp hn] at hp
      exact isSome_foldl_claim hg (g.predecessors node) _ hpopped.wf (hg.predecessors_live node hlive) p
        ((hg.mem_predecessors (hg.nodeIds_lt node hlive)).mpr hp)

end Collecting

structure SourcesFirst (g : GraphView) (d : SccDecomposition) : Prop where
  minted : d.Minted g
  closed : ∀ a b j, g.Edge a b → d.componentOf b = some j → ∃ i, d.componentOf a = some i ∧ i ≤ j

variable {root : Nat} {d : SccDecomposition}

theorem SourcesFirst.reaches (h : SourcesFirst g d) {a b : Nat}
    (hreach : ReflTransGen g.Edge a b) (hb : (d.componentOf b).isSome) : (d.componentOf a).isSome := by
  induction hreach using ReflTransGen.head_induction_on with
  | refl => exact hb
  | head he _ ih =>
    obtain ⟨j, hj⟩ := Option.isSome_iff_exists.mp ih
    obtain ⟨i, hi, _⟩ := h.closed _ _ j he hj
    rw [hi]
    rfl

theorem exists_gathered (hg : g.Lawful) (h : SourcesFirst g d)
    (hroot : root ∈ g.nodeIds) (hnew : d.componentOf root = none) :
    ∃ s : Collecting, s.Gathering g d.componentOf d.components.length root ∧ s.Drained g ∧
      s.stack = [] ∧
      collect g d root = ⟨d.components ++ [s.nodes.insertionSort (· ≤ ·)], s.componentOf⟩ := by
  let first : Collecting :=
    ⟨update d.componentOf root (some d.components.length), [], [root]⟩
  have hwf : first.WF g := by
    refine ⟨fun n hn => ?_, fun n hn => ?_, fun n hn => (by cases hn)⟩
    · by_cases he : n = root
      · rwa [he]
      · refine h.minted.live n ?_
        change (update d.componentOf root _ n).isSome at hn
        rwa [update_of_ne he] at hn
    · rwa [mem_singleton.mp hn]
  have hfirst : first.Gathering g d.componentOf d.components.length root := by
    refine ⟨hwf, fun n => ?_, nodup_singleton root, fun n hn => ?_, fun n hn => ?_,
      mem_singleton_self root⟩
    · change update d.componentOf root _ n = if n ∈ [root] then _ else _
      by_cases he : n = root
      · rw [he, update_self, if_pos (mem_singleton_self root)]
      · rw [update_of_ne he, if_neg fun hn => he (mem_singleton.mp hn)]
    · rw [mem_singleton.mp hn]
      exact hnew
    · rw [mem_singleton.mp hn]
  have hmeasure : Collecting.measure g first ≤ g.nodeBound + 1 := by
    have hle : total (fun n => if (first.componentOf n).isSome then 0 else 1)
        (List.range g.nodeBound) ≤ total (fun _ => 1) (List.range g.nodeBound) :=
      total_le fun n _ => by split <;> omega
    rw [total_one, length_range] at hle
    change 1 + total (fun n => if (first.componentOf n).isSome then 0 else 1) _ ≤ _
    omega
  obtain ⟨⟨hgathering, hdrained⟩, hexit⟩ := iterate_spec
    (I := fun s => s.Gathering g d.componentOf d.components.length root ∧ s.Drained g)
    (fun t t' ht hs => ⟨ht.1.step hg ht.2 hs, (ht.1.wf.step hg hs).2.1⟩)
    ⟨hfirst, fun n hn => by cases hn⟩ hmeasure
  refine ⟨_, hgathering, hdrained, ?_, ?_⟩
  · unfold Collecting.step at hexit
    split at hexit
    · assumption
    · cases hexit
  · unfold collect
    rw [if_neg (by rw [hnew]; exact Bool.false_ne_true)]

theorem SourcesFirst.collect (hg : g.Lawful) (h : SourcesFirst g d)
    {before within after : List Nat} (hnodup : (before ++ within ++ root :: after).Nodup)
    (hmem : ∀ n ∈ g.nodeIds, n ∈ before ++ within ++ root :: after)
    (hroot : root ∈ g.nodeIds) (hwithin : ∀ x ∈ within, ReflTransGen g.Edge root x)
    (hbefore : ∀ a ∈ before, ∀ y, g.Edge a y → y ∈ before ∨ y ∈ after)
    (hafter : ∀ n ∈ after, (d.componentOf n).isSome) : SourcesFirst g (Kosaraju.collect g d root) := by
  by_cases hnew : (d.componentOf root).isSome
  · unfold Kosaraju.collect
    rw [if_pos hnew]
    exact h
  rw [Bool.not_eq_true, Option.isSome_eq_false_iff, Option.isNone_iff_eq_none] at hnew
  obtain ⟨s, hs, hdrained, hstack, heq⟩ := exists_gathered hg h hroot hnew
  rw [heq]
  have hclaimed : s.claimed = s.nodes := by
    unfold Collecting.claimed
    rw [hstack, append_nil]
  have hof := hs.of_eq
  rw [hclaimed] at hof
  have hfresh : ∀ n ∈ s.nodes, d.componentOf n = none := fun n hn => hs.fresh n (hclaimed ▸ hn)
  have hlive : ∀ n ∈ s.nodes, n ∈ g.nodeIds := hs.wf.nodes_live
  have hdown : ∀ n ∈ s.nodes, ReflTransGen g.Edge n root := fun n hn => hs.reaches n (hclaimed ▸ hn)
  have hnotBefore : root ∉ before := by
    intro hbad
    rw [append_assoc] at hnodup
    refine (nodup_append.mp hnodup).2.2 root hbad root ?_ rfl
    exact mem_append_right _ mem_cons_self
  -- what finished before the root was entered leads to it only through components minted before
  have hback : ∀ n ∈ s.nodes, ReflTransGen g.Edge root n := by
    intro n hn
    have hunassigned : ¬ (d.componentOf n).isSome := by
      rw [hfresh n hn]
      exact Bool.false_ne_true
    rcases mem_append.mp (hmem n (hlive n hn)) with hbw | hra
    · rcases mem_append.mp hbw with hb | hw
      · exfalso
        have hstay : ∀ y, ReflTransGen g.Edge n y → ReflTransGen g.Edge y root → y ∈ before := by
          intro y hny
          induction hny with
          | refl => exact fun _ => hb
          | @tail x y hnx he ih =>
            intro hyroot
            refine (hbefore x (ih (.head he hyroot)) y he).resolve_right fun hy => ?_
            exact hunassigned (h.reaches (hnx.tail he) (hafter y hy))
        exact hnotBefore (hstay root (hdown n hn) .refl)
      · exact hwithin n hw
    · rcases mem_cons.mp hra with rfl | ha
      · exact .refl
      · exact absurd (hafter n ha) hunassigned
  have hne : s.nodes ≠ [] := by
    have hr := hs.rooted
    rw [hclaimed] at hr
    exact ne_nil_of_mem hr
  refine ⟨h.minted.mint (hclaimed ▸ hs.nodup) hne hlive hfresh ?_ ?_ hof, ?_⟩
  · exact fun a ha b hb => ⟨(hdown a ha).trans (hback b hb), (hdown b hb).trans (hback a ha)⟩
  · intro a ha b hb hmutual
    have := h.reaches hmutual.1 hb
    rw [hfresh a ha] at this
    cases this
  · intro a b j he hj
    change s.componentOf b = some j at hj
    change ∃ i, s.componentOf a = some i ∧ i ≤ j
    rw [hof] at hj
    by_cases hb : b ∈ s.nodes
    · rw [if_pos hb] at hj
      obtain ⟨i, hi⟩ := Option.isSome_iff_exists.mp (hdrained b hb a he)
      refine ⟨i, hi, ?_⟩
      rw [hof] at hi
      have := Option.some.inj hj
      split at hi
      · have := Option.some.inj hi
        omega
      · have := h.minted.index_lt a i hi
        omega
    · rw [if_neg hb] at hj
      obtain ⟨i, hi, hle⟩ := h.closed a b j he hj
      refine ⟨i, ?_, hle⟩
      rw [hof, if_neg fun ha => ?_]
      · exact hi
      · rw [hfresh a ha] at hi
        cases hi

end Kosaraju

theorem kosarajuScc_decomposes (hg : g.Lawful) : (kosarajuScc g).Decomposes g ∧
    ∀ a b i j, g.Edge a b → (kosarajuScc g).componentOf a = some i →
      (kosarajuScc g).componentOf b = some j → i ≤ j := by
  have horder := finishOrder_ordered hg
  have hfold : ∀ (l : List Nat) (d : SccDecomposition) (done : List Nat),
      finishOrder g = l.reverse ++ done → SourcesFirst g d → (∀ n ∈ done, (d.componentOf n).isSome) →
      SourcesFirst g (l.foldl (collect g) d) := by
    intro l
    induction l with
    | nil => exact fun d _ _ h _ => h
    | cons root l ih =>
      intro d done heq h hdone
      have hroot : root ∈ finishOrder g := by
        rw [heq]
        simp
      have hlive := (mem_finishOrder hg root).mp hroot
      obtain ⟨before, within, after, hsplit, hwithin, hbefore⟩ := horder.split root hroot
      have hnodup := horder.nodup
      -- behind the root stand the nodes that have been through the walk
      have hafter : after = done := by
        rw [reverse_cons, append_assoc, singleton_append] at heq
        have hboth := hsplit.symm.trans heq
        rw [hsplit] at hnodup
        have hnot : root ∉ before ++ within := fun hmem =>
          (nodup_append.mp hnodup).2.2 root hmem root mem_cons_self rfl
        have hnot' : root ∉ after := by
          have := (nodup_append.mp hnodup).2.1
          exact (nodup_cons.mp this).1
        rcases append_eq_append_iff.mp hboth with ⟨x, hx, hy⟩ | ⟨x, hx, hy⟩
        · cases x with
          | nil => exact (List.cons.inj hy).2
          | cons z x =>
            obtain ⟨rfl, htail⟩ := List.cons.inj hy
            refine absurd ?_ hnot'
            rw [htail]
            exact mem_append_right _ mem_cons_self
        · cases x with
          | nil => exact (List.cons.inj hy).2.symm
          | cons z x =>
            obtain ⟨rfl, _⟩ := List.cons.inj hy
            refine absurd ?_ hnot
            rw [hx]
            exact mem_append_right _ mem_cons_self
      subst hafter
      have hcollected := h.collect hg (hsplit ▸ hnodup)
        (fun n hn => hsplit ▸ (mem_finishOrder hg n).mpr hn) hlive hwithin hbefore hdone
      have hspec := collect_spec hg (d := d) ⟨h.minted.live, fun c hc n hn => ?_⟩ hlive
      · refine ih _ (root :: after) ?_ hcollected fun n hn => ?_
        · rw [heq]
          simp
        · rcases mem_cons.mp hn with rfl | hn
          · exact hspec.2.1
          · exact hspec.2.2 n (hdone n hn)
      · obtain ⟨i, hi⟩ := getElem?_of_mem hc
        refine h.minted.live n ?_
        rw [(h.minted.mem_iff i c hi n).mp hn]
        rfl
  have hsources := hfold (finishOrder g).reverse ⟨[], fun _ => none⟩ []
    (by rw [reverse_reverse, append_nil])
    ⟨SccDecomposition.minted_empty g, fun a b j _ hj => by cases hj⟩ (fun n hn => by cases hn)
  refine ⟨⟨hsources.minted, fun n hn => ?_⟩, fun a b i j he hi hj => ?_⟩
  · exact Option.isSome_iff_exists.mp ((kosarajuScc_spec hg).2 n hn)
  · obtain ⟨i', hi', hle⟩ := hsources.closed a b j he hj
    have heq : some i = some i' := hi.symm.trans hi'
    cases heq
    exact hle

end CfgLib
