import CfgLib.Graph.Tarjan
import CfgLib.Graph.Dominator.Dominance
import CfgLib.Lib.ChaoticIteration

/-!
# Interprocedural summaries

`graph/call_graph.rs`: `propagate_summaries` takes the components of a call graph
callees first.  A component without a cycle is computed once; a cyclic one is
computed round after round, in place, until a round changes nothing.
-/

namespace CfgLib

open CfgLib.Lib Relation List Function

/-- Whether the nodes of one component hold a cycle. -/
def isCyclicComponent (g : GraphView) (nodes : List Nat) : Bool :=
  match nodes with
  | [node] => (g.successors node).any (· == node)
  | _ => true

def SccDecomposition.component (d : SccDecomposition) (node : Nat) : Option (List Nat) :=
  (d.componentOf node).bind fun i => d.components[i]?

/-- The summaries, one slot per identity, and the calls of `compute` that led to them:
the node of each, and the summaries it could read. -/
structure Propagation (S : Type) where
  summaries : Nat → S
  calls : List (Nat × (Nat → S))

namespace Propagation

section Run

variable {S : Type} [DecidableEq S] (compute : Nat → (Nat → S) → S)

/-- Compute one node; the flag says whether a summary changed. -/
def visit (p : Propagation S × Bool) (node : Nat) : Propagation S × Bool :=
  let updated := compute node p.1.summaries
  let calls := p.1.calls ++ [(node, p.1.summaries)]
  if updated ≠ p.1.summaries node then
    (⟨update p.1.summaries node updated, calls⟩, true)
  else (⟨p.1.summaries, calls⟩, p.2)

def pass (component : List Nat) (p : Propagation S) : Propagation S × Bool :=
  component.foldl (visit compute) (p, false)

/-- The rounds over a component; `none` when the fuel runs out. -/
def settle (component : List Nat) (cyclic : Bool) : Nat → Propagation S → Option (Propagation S)
  | 0, _ => none
  | fuel + 1, p =>
    let (p, changed) := pass compute component p
    if !cyclic || !changed then some p else settle component cyclic fuel p

def propagate (fuel : Nat) (g : GraphView) (d : SccDecomposition) (p : Propagation S)
    (component : List Nat) : Option (Propagation S) := do
  let scc ← d.component (← component.head?)
  settle compute component (isCyclicComponent g scc) fuel p

end Run

end Propagation

/-- Per-node summaries, computed callees first. -/
def propagateSummaries {S : Type} [DecidableEq S] (fuel : Nat) (g : GraphView) (bottom : S)
    (compute : Nat → (Nat → S) → S) : Option (Propagation S) :=
  let d := tarjanScc g
  d.components.foldlM (Propagation.propagate compute fuel g d) ⟨fun _ => bottom, []⟩

/-- What a summary function promises: it reads the summaries of the callees, and rises with them. -/
structure Summarizes {S : Type} [PartialOrder S] (g : GraphView) (compute : Nat → (Nat → S) → S) :
    Prop where
  reads : ∀ n ∈ g.nodeIds, ∀ s s', (∀ m ∈ g.successors n, s m = s' m) → compute n s = compute n s'
  mono : ∀ n ∈ g.nodeIds, ∀ s s', (∀ m, s m ≤ s' m) → compute n s ≤ compute n s'

namespace Propagation

variable {S : Type} [PartialOrder S] [DecidableEq S] {g : GraphView} {compute : Nat → (Nat → S) → S}
  {component : List Nat} {start p : Propagation S}

/-- What the rounds over a component keep, `start` being the state before the first. -/
structure Rising (compute : Nat → (Nat → S) → S) (component : List Nat) (start p : Propagation S) :
    Prop where
  frame : ∀ n, n ∉ component → p.summaries n = start.summaries n
  above : ∀ n, start.summaries n ≤ p.summaries n
  rising : ∀ n ∈ component, p.summaries n ≤ compute n p.summaries
  below : ∀ t, (∀ n ∈ component, compute n t ≤ t n) → (∀ n, start.summaries n ≤ t n) →
    ∀ n, p.summaries n ≤ t n
  calls : ∃ l, p.calls = start.calls ++ l ∧ ∀ call ∈ l, call.1 ∈ component

omit [DecidableEq S] in
theorem rising_start (h : ∀ n ∈ component, start.summaries n ≤ compute n start.summaries) :
    Rising compute component start start :=
  ⟨fun _ _ => rfl, fun _ => le_rfl, h, fun _ _ ht => ht, [], (append_nil _).symm,
    fun _ hc => absurd hc not_mem_nil⟩

omit [PartialOrder S] in
theorem visit_spec (p : Propagation S) (changed : Bool) (node : Nat) :
    (visit compute (p, changed) node).1.summaries =
        update p.summaries node (compute node p.summaries) ∧
      (visit compute (p, changed) node).1.calls = p.calls ++ [(node, p.summaries)] ∧
      ((visit compute (p, changed) node).2 = false ↔
        changed = false ∧ compute node p.summaries = p.summaries node) := by
  unfold visit
  dsimp only
  split
  · next hne => exact ⟨rfl, rfl, by simp [hne]⟩
  · next heq =>
    rw [not_not] at heq
    exact ⟨by rw [heq, update_eq_self], rfl, by simp [heq]⟩

variable (hcompute : ∀ n ∈ component, ∀ s s', (∀ m, s m ≤ s' m) → compute n s ≤ compute n s')
include hcompute

theorem Rising.visit (h : Rising compute component start p) {node : Nat} (hnode : node ∈ component)
    (changed : Bool) : Rising compute component start (visit compute (p, changed) node).1 := by
  obtain ⟨hsummaries, hcalls, _⟩ := @visit_spec S _ compute p changed node
  generalize (Propagation.visit compute (p, changed) node).1 = p' at hsummaries hcalls
  have hle : ∀ m, p.summaries m ≤ p'.summaries m := by
    intro m
    rw [hsummaries]
    by_cases hm : m = node
    · subst hm
      rw [update_self]
      exact h.rising m hnode
    · rw [update_of_ne hm]
  refine ⟨fun n hn => ?_, fun n => (h.above n).trans (hle n), fun n hn => ?_, fun t ht hstart n => ?_,
    ?_⟩
  · have hne : n ≠ node := fun he => hn (he ▸ hnode)
    rw [hsummaries, update_of_ne hne]
    exact h.frame n hn
  · refine le_trans ?_ (hcompute n hn _ _ hle)
    rw [hsummaries]
    by_cases hm : n = node
    · subst hm
      rw [update_self]
    · rw [update_of_ne hm]
      exact h.rising n hn
  · rw [hsummaries]
    by_cases hm : n = node
    · subst hm
      rw [update_self]
      exact (hcompute n hnode _ _ (h.below t ht hstart)).trans (ht n hnode)
    · rw [update_of_ne hm]
      exact h.below t ht hstart n
  · obtain ⟨l, hl, hmem⟩ := h.calls
    refine ⟨l ++ [(node, p.summaries)], by rw [hcalls, hl, append_assoc], ?_⟩
    intro call hcall
    rcases mem_append.mp hcall with hcall | hcall
    · exact hmem call hcall
    · rw [mem_singleton.mp hcall]
      exact hnode

/-- Part of a round: summaries rise; none changes exactly when each visited node is settled. -/
theorem Rising.visits {nodes : List Nat} (hnodes : ∀ n ∈ nodes, n ∈ component) :
    ∀ {p : Propagation S} {changed : Bool}, Rising compute component start p →
      ∃ p' changed', nodes.foldl (Propagation.visit compute) (p, changed) = (p', changed') ∧
        Rising compute component start p' ∧ (∀ n, p.summaries n ≤ p'.summaries n) ∧
        (changed' = false → changed = false ∧ p'.summaries = p.summaries ∧
          ∀ n ∈ nodes, compute n p.summaries = p.summaries n) ∧
        (changed' = true → changed = true ∨ ∃ n ∈ component, p'.summaries n ≠ p.summaries n) := by
  induction nodes with
  | nil =>
    exact fun {p changed} h => ⟨p, changed, rfl, h, fun _ => le_rfl,
      fun hc => ⟨hc, rfl, fun _ hn => absurd hn not_mem_nil⟩, Or.inl⟩
  | cons node nodes ih =>
    intro p changed h
    have hnode := hnodes node mem_cons_self
    obtain ⟨hsummaries, _, hflag⟩ := @visit_spec S _ compute p changed node
    have hrising := h.visit hcompute hnode changed
    rw [foldl_cons]
    generalize Propagation.visit compute (p, changed) node = q at hsummaries hflag hrising
    obtain ⟨p', changed', hrun, hrising', hle, hsame, hdiff⟩ :=
      @ih (fun n hn => hnodes n (mem_cons_of_mem node hn)) q.1 q.2 hrising
    have hself : q.1.summaries node = compute node p.summaries := by
      rw [hsummaries, update_self]
    have hstep : ∀ n, p.summaries n ≤ q.1.summaries n := by
      intro n
      by_cases hn : n = node
      · subst hn
        rw [hself]
        exact h.rising n hnode
      · rw [hsummaries, update_of_ne hn]
    refine ⟨p', changed', hrun, hrising', fun n => (hstep n).trans (hle n), fun hc => ?_, fun hc => ?_⟩
    · obtain ⟨hq, heq, hsettled⟩ := hsame hc
      obtain ⟨hchanged, hnodeSettled⟩ := hflag.mp hq
      have hqp : q.1.summaries = p.summaries := by
        rw [hsummaries, hnodeSettled, update_eq_self]
      rw [hqp] at heq hsettled
      refine ⟨hchanged, heq, fun n hn => ?_⟩
      rcases mem_cons.mp hn with rfl | hn
      · exact hnodeSettled
      · exact hsettled n hn
    · by_cases hq : q.2 = false
      · obtain ⟨hchanged, hnodeSettled⟩ := hflag.mp hq
        have hqp : q.1.summaries = p.summaries := by
          rw [hsummaries, hnodeSettled, update_eq_self]
        rw [hqp] at hdiff
        rcases hdiff hc with hq' | hne
        · rw [hq] at hq'
          cases hq'
        · exact Or.inr hne
      · by_cases hchanged : changed = true
        · exact Or.inl hchanged
        · have hne : compute node p.summaries ≠ p.summaries node := fun heq =>
            hq (hflag.mpr ⟨by simpa using hchanged, heq⟩)
          -- the summary of the node rose, and nothing sinks after
          refine Or.inr ⟨node, hnode, fun heq => hne (le_antisymm ?_ (h.rising node hnode))⟩
          rw [← heq, ← hself]
          exact hle node

theorem Rising.settle [WellFoundedGT S] (h : Rising compute component start p) :
    ∃ N p', (∀ fuel, N ≤ fuel → settle compute component true fuel p = some p') ∧
      Rising compute component start p' ∧ ∀ n ∈ component, compute n p'.summaries = p'.summaries n := by
  have hwf := System.wellFounded_rising (α := S) component
  generalize hx : (fun k : { k // k ∈ component } => p.summaries k.1) = x
  induction x using hwf.induction generalizing p with
  | h x ih =>
    subst hx
    obtain ⟨p', changed, hrun, hrising, hle, hsame, hdiff⟩ :
        ∃ p' changed, component.foldl (Propagation.visit compute) (p, false) = (p', changed) ∧ _ :=
      Rising.visits hcompute (fun _ hn => hn) h
    cases changed with
    | false =>
      obtain ⟨_, heq, hsettled⟩ := hsame rfl
      refine ⟨1, p', fun fuel hfuel => ?_, hrising, fun n hn => ?_⟩
      · obtain ⟨fuel, rfl⟩ := Nat.exists_eq_add_of_le' hfuel
        rw [Propagation.settle, pass, hrun]
        rfl
      · rw [heq]
        exact hsettled n hn
    | true =>
      obtain ⟨n, hn, hne⟩ := (hdiff rfl).resolve_left Bool.false_ne_true
      have hlt : (fun k : { k // k ∈ component } => p.summaries k.1) <
          fun k => p'.summaries k.1 :=
        lt_of_le_of_ne (fun k => hle k.1) fun he => hne (congrFun he ⟨n, hn⟩).symm
      obtain ⟨N, r, hr, hrest⟩ := ih _ hlt hrising rfl
      refine ⟨N + 1, r, fun fuel hfuel => ?_, hrest⟩
      obtain ⟨fuel, rfl⟩ := Nat.exists_eq_add_of_le' (Nat.le_of_add_left_le hfuel : 1 ≤ fuel)
      rw [Propagation.settle, pass, hrun]
      exact hr fuel (by omega)

omit hcompute

omit [PartialOrder S] in
theorem settle_single (p : Propagation S) (node fuel : Nat) :
    settle compute [node] false (fuel + 1) p =
      some ⟨update p.summaries node (compute node p.summaries),
        p.calls ++ [(node, p.summaries)]⟩ := by
  obtain ⟨hsummaries, hcalls, _⟩ := @visit_spec S _ compute p false node
  change some (Propagation.visit compute (p, false) node).1 = _
  rw [← hsummaries, ← hcalls]

structure Propagated (g : GraphView) (d : SccDecomposition) (bottom : S)
    (compute : Nat → (Nat → S) → S) (k : Nat) (p : Propagation S) : Prop where
  settled : ∀ n i, d.componentOf n = some i → i < k → compute n p.summaries = p.summaries n
  blank : ∀ n, (∀ i, d.componentOf n = some i → k ≤ i) → p.summaries n = bottom
  below : ∀ t, (∀ n ∈ g.nodeIds, compute n t ≤ t n) → ∀ n, p.summaries n ≤ t n
  called : ∀ call ∈ p.calls, ∃ i, d.componentOf call.1 = some i ∧ i < k
  once : ∀ n i, d.componentOf n = some i → i < k → ¬ TransGen g.Edge n n →
    ∃ s, p.calls.filter (fun call => call.1 = n) = [(n, s)] ∧
      ∀ m ∈ g.successors n, s m = p.summaries m

omit [PartialOrder S] [DecidableEq S] in
theorem eq_singleton_of_not_cyclic {c : List Nat} (h : isCyclicComponent g c = false) :
    ∃ n, c = [n] ∧ n ∉ g.successors n := by
  unfold isCyclicComponent at h
  split at h
  · next n =>
    refine ⟨n, rfl, fun hn => ?_⟩
    rw [any_eq_false] at h
    exact h n hn (beq_self_eq_true n)
  · cases h

theorem transGen_of_cyclic (hg : g.Lawful) {d : SccDecomposition} (hd : d.Decomposes g) {k : Nat}
    {c : List Nat} (hc : d.components[k]? = some c) (h : isCyclicComponent g c = true) {n : Nat}
    (hn : n ∈ c) : TransGen g.Edge n n := by
  have hk : ∀ m ∈ c, d.componentOf m = some k := fun m hm => (hd.minted.mem_iff k c hc m).mp hm
  by_cases hsingle : c = [n]
  · subst hsingle
    obtain ⟨m, hm, heq⟩ := any_eq_true.mp h
    obtain rfl : m = n := by simpa using heq
    have hlive : m ∈ g.nodeIds := hd.minted.live m (by rw [hk m hn]; rfl)
    exact .single ⟨hg.nodeIds_lt m hlive, hm⟩
  · obtain ⟨m, hm, hne⟩ : ∃ m ∈ c, m ≠ n := by
      by_contra hall
      push Not at hall
      have hnodup : c.Nodup := (hd.minted.ascending c (mem_of_getElem? hc)).imp fun hlt => hlt.ne
      match c, hn, hall, hnodup, hsingle with
      | [a], _, hall, _, hsingle => exact hsingle (by rw [hall a mem_cons_self])
      | a :: b :: _, _, hall, hnodup, _ =>
        have ha := hall a mem_cons_self
        have hb := hall b (mem_cons_of_mem a mem_cons_self)
        rw [ha, hb] at hnodup
        simp at hnodup
    obtain ⟨hto, hback⟩ := (hd.minted.same_iff n m k k (hk n hn) (hk m hm)).mp rfl
    have hpath := (reflTransGen_iff_eq_or_transGen.mp hto).resolve_left hne
    exact hpath.trans_left hback

section Components

variable {d : SccDecomposition} {bottom : S} {k : Nat} {c : List Nat} {p' : Propagation S}

omit [DecidableEq S] in
/-- What is left to check when the component `c` has been settled on top of the first `k`. -/
theorem Propagated.extend (hg : g.Lawful) (hd : d.Decomposes g)
    (horder : ∀ a b i j, g.Edge a b → d.componentOf a = some i → d.componentOf b = some j → j ≤ i)
    (hs : Summarizes g compute) (h : Propagated g d bottom compute k p)
    (hc : d.components[k]? = some c) (hframe : ∀ n, n ∉ c → p'.summaries n = p.summaries n)
    (hsettled : ∀ n ∈ c, compute n p'.summaries = p'.summaries n)
    (hbelow : ∀ t, (∀ n ∈ g.nodeIds, compute n t ≤ t n) → ∀ n, p'.summaries n ≤ t n)
    {l : List (Nat × (Nat → S))} (hcalls : p'.calls = p.calls ++ l) (hl : ∀ call ∈ l, call.1 ∈ c)
    (honce : ∀ n ∈ c, ¬ TransGen g.Edge n n → ∃ s, l.filter (fun call => call.1 = n) = [(n, s)] ∧
      ∀ m ∈ g.successors n, s m = p'.summaries m) : Propagated g d bottom compute (k + 1) p' := by
  have hmem : ∀ n, n ∈ c ↔ d.componentOf n = some k := hd.minted.mem_iff k c hc
  have hout : ∀ n i, d.componentOf n = some i → i < k → n ∉ c := by
    intro n i hi hlt hn
    rw [(hmem n).mp hn] at hi
    have := Option.some.inj hi
    omega
  -- callees of an earlier component belong to earlier components
  have hcallee : ∀ n i, d.componentOf n = some i → i < k → ∀ m ∈ g.successors n,
      p'.summaries m = p.summaries m := by
    intro n i hi hlt m hm
    have hlive : n ∈ g.nodeIds := hd.minted.live n (by rw [hi]; rfl)
    obtain ⟨j, hj⟩ := hd.total m (hg.successors_live n hlive m hm)
    have := horder n m i j ⟨hg.nodeIds_lt n hlive, hm⟩ hi hj
    exact hframe m (hout m j hj (by omega))
  refine ⟨fun n i hi hlt => ?_, fun n hn => ?_, hbelow, fun call hcall => ?_, fun n i hi hlt hcycle => ?_⟩
  · rcases Nat.lt_succ_iff_lt_or_eq.mp hlt with hlt | rfl
    · have hlive : n ∈ g.nodeIds := hd.minted.live n (by rw [hi]; rfl)
      rw [hs.reads n hlive _ _ (hcallee n i hi hlt), hframe n (hout n i hi hlt)]
      exact h.settled n i hi hlt
    · exact hsettled n ((hmem n).mpr hi)
  · have hnot : n ∉ c := fun hmem' => absurd (hn k ((hmem n).mp hmem')) (by omega)
    rw [hframe n hnot]
    exact h.blank n fun i hi => Nat.le_of_succ_le (hn i hi)
  · rw [hcalls] at hcall
    rcases mem_append.mp hcall with hcall | hcall
    · obtain ⟨i, hi, hlt⟩ := h.called call hcall
      exact ⟨i, hi, by omega⟩
    · exact ⟨k, (hmem _).mp (hl call hcall), Nat.lt_succ_self k⟩
  · rw [hcalls, filter_append]
    rcases Nat.lt_succ_iff_lt_or_eq.mp hlt with hlt | rfl
    · obtain ⟨s, hfilter, hread⟩ := h.once n i hi hlt hcycle
      have hnone : l.filter (fun call => call.1 = n) = [] := by
        rw [filter_eq_nil_iff]
        intro call hcall heq
        have heq : call.1 = n := by simpa using heq
        exact hout n i hi hlt (heq ▸ hl call hcall)
      rw [hfilter, hnone]
      exact ⟨s, rfl, fun m hm => (hread m hm).trans (hcallee n i hi hlt m hm).symm⟩
    · obtain ⟨s, hfilter, hread⟩ := honce n ((hmem n).mpr hi) hcycle
      have hnone : p.calls.filter (fun call => call.1 = n) = [] := by
        rw [filter_eq_nil_iff]
        intro call hcall heq
        have heq : call.1 = n := by simpa using heq
        obtain ⟨j, hj, hlt⟩ := h.called call hcall
        rw [heq, hi] at hj
        have := Option.some.inj hj
        omega
      rw [hnone, hfilter]
      exact ⟨s, rfl, hread⟩

theorem Propagated.propagate [WellFoundedGT S] (hg : g.Lawful) (hd : d.Decomposes g)
    (horder : ∀ a b i j, g.Edge a b → d.componentOf a = some i → d.componentOf b = some j → j ≤ i)
    (hs : Summarizes g compute) (hbottom : ∀ x, bottom ≤ x) (h : Propagated g d bottom compute k p)
    (hc : d.components[k]? = some c) :
    ∃ N p', (∀ fuel, N ≤ fuel → propagate compute fuel g d p c = some p') ∧
      Propagated g d bottom compute (k + 1) p' := by
  have hmem : ∀ n, n ∈ c ↔ d.componentOf n = some k := hd.minted.mem_iff k c hc
  have hlive : ∀ n ∈ c, n ∈ g.nodeIds := fun n hn =>
    hd.minted.live n (by rw [(hmem n).mp hn]; rfl)
  have hrun : ∀ fuel, Propagation.propagate compute fuel g d p c =
      settle compute c (isCyclicComponent g c) fuel p := by
    intro fuel
    obtain ⟨a, rest, rfl⟩ := exists_cons_of_ne_nil (hd.minted.nonempty c (mem_of_getElem? hc))
    have ha : d.component a = some (a :: rest) := by
      unfold SccDecomposition.component
      rw [(hmem a).mp mem_cons_self]
      exact hc
    unfold Propagation.propagate
    rw [head?_cons]
    change (d.component a).bind _ = _
    rw [ha]
    rfl
  have hblank : ∀ n ∈ c, p.summaries n = bottom := by
    intro n hn
    refine h.blank n fun i hi => ?_
    rw [(hmem n).mp hn] at hi
    exact le_of_eq (Option.some.inj hi)
  have hmono : ∀ n ∈ c, ∀ s s', (∀ m, s m ≤ s' m) → compute n s ≤ compute n s' :=
    fun n hn => hs.mono n (hlive n hn)
  have hstart : Rising compute c p p := rising_start fun n hn => by
    rw [hblank n hn]
    exact hbottom _
  have hbelow : ∀ {q}, Rising compute c p q → ∀ t, (∀ n ∈ g.nodeIds, compute n t ≤ t n) →
      ∀ n, q.summaries n ≤ t n :=
    fun hq t ht => hq.below t (fun n hn => ht n (hlive n hn)) (h.below t ht)
  cases hcyclic : isCyclicComponent g c with
  | true =>
    obtain ⟨N, q, hq, hrising, hsettled⟩ := hstart.settle hmono
    obtain ⟨l, hcalls, hl⟩ := hrising.calls
    refine ⟨N, q, fun fuel hfuel => by rw [hrun, hcyclic, hq fuel hfuel], ?_⟩
    exact h.extend hg hd horder hs hc hrising.frame hsettled (hbelow hrising) hcalls hl
      fun n hn hnot => absurd (transGen_of_cyclic hg hd hc hcyclic hn) hnot
  | false =>
    obtain ⟨node, rfl, hself⟩ := eq_singleton_of_not_cyclic hcyclic
    have hnode : node ∈ [node] := mem_singleton_self node
    have hat : update p.summaries node (compute node p.summaries) node =
        compute node p.summaries := update_self node _ _
    have haway : ∀ m, m ≠ node → update p.summaries node (compute node p.summaries) m =
        p.summaries m := fun m hne => update_of_ne hne _ _
    have hcallee : ∀ m ∈ g.successors node,
        update p.summaries node (compute node p.summaries) m = p.summaries m :=
      fun m hm => haway m fun heq => hself (heq ▸ hm)
    refine ⟨1, ⟨update p.summaries node (compute node p.summaries),
      p.calls ++ [(node, p.summaries)]⟩, fun fuel hfuel => ?_, ?_⟩
    · obtain ⟨fuel, rfl⟩ := Nat.exists_eq_add_of_le' hfuel
      rw [hrun, hcyclic]
      exact settle_single p node fuel
    · refine h.extend hg hd horder hs hc (fun n hn => haway n (ne_of_not_mem_cons hn))
        (fun n hn => ?_) (fun t ht n => ?_) rfl (fun call hcall => ?_) (fun n hn _ => ?_)
      · obtain rfl := mem_singleton.mp hn
        exact (hs.reads n (hlive n hn) _ _ hcallee).trans hat.symm
      · by_cases hn : n = node
        · subst hn
          exact (le_of_eq hat).trans ((hmono n hnode _ _ (h.below t ht)).trans (ht n (hlive n hnode)))
        · exact (le_of_eq (haway n hn)).trans (h.below t ht n)
      · rw [mem_singleton.mp hcall]
        exact hnode
      · obtain rfl := mem_singleton.mp hn
        exact ⟨p.summaries, by simp, fun m hm => (hcallee m hm).symm⟩

end Components

end Propagation

structure SummariesCorrect {S : Type} [PartialOrder S] (g : GraphView) (bottom : S)
    (compute : Nat → (Nat → S) → S) (p : Propagation S) : Prop where
  solves : ∀ n ∈ g.nodeIds, p.summaries n = compute n p.summaries
  removed : ∀ n, n ∉ g.nodeIds → p.summaries n = bottom
  least : ∀ s, (∀ n ∈ g.nodeIds, compute n s ≤ s n) → ∀ n, p.summaries n ≤ s n
  once : ∀ n ∈ g.nodeIds, ¬ TransGen g.Edge n n →
    ∃ s, p.calls.filter (fun call => call.1 = n) = [(n, s)] ∧
      ∀ m ∈ g.successors n, s m = p.summaries m

section Summaries

variable {S : Type} [PartialOrder S] [DecidableEq S] [WellFoundedGT S] {g : GraphView} {bottom : S}
  {compute : Nat → (Nat → S) → S}

theorem propagateSummaries_spec (hg : g.Lawful) (hbottom : ∀ x, bottom ≤ x)
    (hs : Summarizes g compute) :
    ∃ N p, (∀ fuel, N ≤ fuel → propagateSummaries fuel g bottom compute = some p) ∧
      SummariesCorrect g bottom compute p := by
  obtain ⟨hd, horder⟩ := tarjanScc_spec hg
  have hfold : ∀ (l : List (List Nat)) (k : Nat) (p : Propagation S),
      (tarjanScc g).components.drop k = l → p.Propagated g (tarjanScc g) bottom compute k →
      ∃ N p', (∀ fuel, N ≤ fuel →
          l.foldlM (Propagation.propagate compute fuel g (tarjanScc g)) p = some p') ∧
        p'.Propagated g (tarjanScc g) bottom compute (k + l.length) := by
    intro l
    induction l with
    | nil => exact fun k p _ h => ⟨0, p, fun _ _ => rfl, h⟩
    | cons c l ih =>
      intro k p hdrop h
      have hc : (tarjanScc g).components[k]? = some c := by
        rw [← head?_drop, hdrop]
        rfl
      have hrest : (tarjanScc g).components.drop (k + 1) = l := by
        rw [← tail_drop, hdrop]
        rfl
      obtain ⟨N₁, p₁, hrun₁, h₁⟩ := h.propagate hg hd horder hs hbottom hc
      obtain ⟨N₂, p₂, hrun₂, h₂⟩ := ih (k + 1) p₁ hrest h₁
      refine ⟨max N₁ N₂, p₂, fun fuel hfuel => ?_, ?_⟩
      · rw [foldlM_cons, hrun₁ fuel (by omega)]
        exact hrun₂ fuel (by omega)
      · rw [length_cons, Nat.add_comm l.length, ← Nat.add_assoc]
        exact h₂
  obtain ⟨N, p, hrun, h⟩ := hfold (tarjanScc g).components 0 ⟨fun _ => bottom, []⟩ rfl
    ⟨fun n i _ hi => absurd hi (Nat.not_lt_zero i), fun _ _ => rfl, fun s _ n => hbottom (s n),
      fun _ hc => absurd hc not_mem_nil, fun n i _ hi => absurd hi (Nat.not_lt_zero i)⟩
  rw [Nat.zero_add] at h
  refine ⟨N, p, hrun, fun n hn => ?_, fun n hn => ?_, h.below, fun n hn hcycle => ?_⟩
  · obtain ⟨i, hi⟩ := hd.total n hn
    exact (h.settled n i hi (hd.minted.index_lt n i hi)).symm
  · exact h.blank n fun i hi => absurd (hd.minted.live n (by rw [hi]; rfl)) hn
  · obtain ⟨i, hi⟩ := hd.total n hn
    exact h.once n i hi (hd.minted.index_lt n i hi) hcycle

omit [DecidableEq S] [WellFoundedGT S] in
theorem Summarizes.renumber (hs : Summarizes g compute) {g' : GraphView} {ν : Nat ≃ Nat}
    (hν : g.Renumbered g' ν) {compute' : Nat → (Nat → S) → S}
    (hcompute : ∀ n ∈ g.nodeIds, ∀ s, compute' (ν n) s = compute n (s ∘ ν)) :
    Summarizes g' compute' := by
  have hback : ∀ n ∈ g'.nodeIds, ∃ m ∈ g.nodeIds, ν m = n := by
    intro n hn
    refine ⟨ν.symm n, (hν.nodeIds_iff _).mp ?_, ν.apply_symm_apply n⟩
    rwa [ν.apply_symm_apply]
  refine ⟨fun n hn s s' h => ?_, fun n hn s s' h => ?_⟩
  · obtain ⟨m, hm, rfl⟩ := hback n hn
    rw [hcompute m hm, hcompute m hm]
    exact hs.reads m hm _ _ fun v hv => h (ν v) ((hν.mem_neighbors .outgoing hm).mpr hv)
  · obtain ⟨m, hm, rfl⟩ := hback n hn
    rw [hcompute m hm, hcompute m hm]
    exact hs.mono m hm _ _ fun v => h (ν v)

/-- Summaries propagate to the least solution, each acyclic node computed once with its callees
final, whatever the numbering and the order of the edges. -/
theorem propagateSummaries_least (hg : g.Lawful) (hbottom : ∀ x, bottom ≤ x)
    (hs : Summarizes g compute) :
    ∃ N p, (∀ fuel, N ≤ fuel → propagateSummaries fuel g bottom compute = some p) ∧
      SummariesCorrect g bottom compute p ∧
      ∀ (g' : GraphView) (ν : Nat ≃ Nat) (compute' : Nat → (Nat → S) → S), g'.Lawful →
        g.Renumbered g' ν → (∀ n ∈ g.nodeIds, ∀ s, compute' (ν n) s = compute n (s ∘ ν)) →
        ∃ N' p', (∀ fuel, N' ≤ fuel → propagateSummaries fuel g' bottom compute' = some p') ∧
          ∀ n, p'.summaries (ν n) = p.summaries n := by
  obtain ⟨N, p, hrun, h⟩ := propagateSummaries_spec hg hbottom hs
  refine ⟨N, p, hrun, h, fun g' ν compute' hg' hν hcompute => ?_⟩
  obtain ⟨N', p', hrun', h'⟩ := propagateSummaries_spec hg' hbottom (hs.renumber hν hcompute)
  -- either result, renamed, solves the other system
  have hle : ∀ n, p.summaries n ≤ (p'.summaries ∘ ν) n := h.least _ fun n hn => by
    rw [← hcompute n hn]
    exact le_of_eq (h'.solves _ ((hν.nodeIds_iff n).mpr hn)).symm
  have hge : ∀ n, p'.summaries n ≤ (p.summaries ∘ ν.symm) n := by
    refine h'.least _ fun n hn => ?_
    obtain ⟨m, rfl⟩ := ν.surjective n
    have hm := (hν.nodeIds_iff m).mp hn
    have hid : (p.summaries ∘ ν.symm) ∘ ν = p.summaries := by
      funext v
      exact congrArg p.summaries (ν.symm_apply_apply v)
    rw [hcompute m hm, hid, comp_apply, ν.symm_apply_apply]
    exact le_of_eq (h.solves m hm).symm
  refine ⟨N', p', hrun', fun n => le_antisymm ?_ (hle n)⟩
  have := hge (ν n)
  rwa [comp_apply, ν.symm_apply_apply] at this

end Summaries

/-- Whether a node reaches a self-loop. -/
def sampleSummary (n : Nat) (s : Nat → Bool) : Bool :=
  (Dominator.DominatorTree.sampleView.successors n).any fun m => m == n || s m

theorem summarizes_sampleSummary : Summarizes Dominator.DominatorTree.sampleView sampleSummary where
  reads n _ s s' h := by
    refine Bool.eq_iff_iff.mpr ?_
    simp only [sampleSummary, any_eq_true, Bool.or_eq_true]
    exact exists_congr fun m => and_congr_right fun hm => by rw [h m hm]
  mono n _ s s' h := by
    rw [Bool.le_iff_imp]
    simp only [sampleSummary, any_eq_true, Bool.or_eq_true]
    rintro ⟨m, hm, hs⟩
    exact ⟨m, hm, hs.imp id (Bool.le_iff_imp.mp (h m))⟩

theorem propagateSummaries_least_sampleView : ∃ N p, (∀ fuel, N ≤ fuel →
        propagateSummaries fuel Dominator.DominatorTree.sampleView false sampleSummary = some p) ∧
      p.summaries 1 = true ∧ p.summaries 5 = false := by
  obtain ⟨N, p, hrun, h, _⟩ := propagateSummaries_least Dominator.DominatorTree.lawful_sampleView
    Bool.false_le summarizes_sampleSummary
  refine ⟨N, p, hrun, ?_, h.removed 5 (by decide)⟩
  have h3 : p.summaries 3 = true := h.solves 3 (by decide)
  rw [h.solves 1 (by decide)]
  exact any_eq_true.mpr ⟨3, by decide, by simp [h3]⟩

end CfgLib
