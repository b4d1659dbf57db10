import CfgLib.Store.Walk

/-!
# Editing replacement runs

One specification for `with_run`, through which every relocation goes: the
node's run is handed to the edit complete, its chain drained into it, and
nothing else that a walk reads changes.
-/

namespace CfgLib.Store

open CfgLib.Lib List

/-! ## The dense index of runs -/

namespace Runs

variable {bound node : Nat} {r : Runs}

theorem get_eq_none_iff (h : r.WF bound) (n : Nat) :
    r.get n = none ↔ (r.index[n]?).join = none := by
  unfold get
  split
  · next hnone => simp [hnone]
  · next s hs =>
    have hslot : r.index[n]? = some (some s) := Option.join_eq_some_iff.mp hs
    have := h.slot_lt n s hslot
    simp [hs, this]

theorem wf_empty (bound : Nat) : empty.WF bound :=
  ⟨by simp [empty], by simp [empty], by simp [empty]⟩

@[simp] theorem get_empty (n : Nat) : empty.get n = none := by simp [empty, get]

theorem WF.mono {bound' : Nat} (h : r.WF bound) (hle : bound ≤ bound') : r.WF bound' :=
  ⟨Nat.le_trans h.length_le hle, h.slot_lt, h.slot_inj⟩

theorem grown_getElem? {index : List (Option Nat)} (hlen : index.length ≤ bound) (n : Nat) :
    ((if index.length ≤ node then
        index.take bound ++ List.replicate (bound - index.length) none
      else index)[n]?).join = (index[n]?).join := by
  split
  · rw [take_of_length_le hlen]
    by_cases hn : n < index.length
    · rw [getElem?_append_left hn]
    · rw [getElem?_append_right (by omega), getElem?_eq_none (by omega : _ ≤ n),
        getElem?_replicate]
      split <;> rfl
  · rfl

theorem insert_spec (h : r.WF bound) (hnode : node < bound) (hnone : r.get node = none) (run : List Nat) :
    ∃ r', r.insert node bound run = some r' ∧ r'.WF bound ∧
      ∀ n, r'.get n = if n = node then some run else r.get n := by
  set index := if r.index.length ≤ node then
      r.index.take bound ++ List.replicate (bound - r.index.length) none
    else r.index with hindex
  have hread : ∀ n : Nat, (index[n]?).join = (r.index[n]?).join := fun n =>
    grown_getElem? h.length_le n
  have hlen : node < index.length ∧ index.length ≤ bound := by
    have := h.length_le
    rw [hindex]
    split
    · simp only [length_append, length_take, length_replicate]; omega
    · omega
  have hfree : index[node]? = some none := by
    have hj := (get_eq_none_iff h node).mp hnone
    rw [← hread, getElem?_eq_getElem hlen.1, Option.join_some] at hj
    rw [getElem?_eq_getElem hlen.1, hj]
  have hslot : ∀ n s : Nat, (index.set node (some r.runs.length))[n]? = some (some s) →
      n = node ∧ s = r.runs.length ∨ n ≠ node ∧ r.index[n]? = some (some s) := by
    intro n s hs
    rw [getElem?_set] at hs
    by_cases hn : node = n
    · subst hn
      rw [if_pos rfl, if_pos hlen.1] at hs
      simp only [Option.some.injEq] at hs
      exact Or.inl ⟨rfl, hs.symm⟩
    · rw [if_neg hn] at hs
      have := hread n
      rw [hs, Option.join_some] at this
      exact Or.inr ⟨fun e => hn e.symm, Option.join_eq_some_iff.mp this.symm⟩
  refine ⟨{ index := index.set node (some r.runs.length), runs := r.runs ++ [run] }, ?_, ?_, ?_⟩
  · simp only [insert, ← hindex, hfree, if_true]
  · refine ⟨by simpa using hlen.2, ?_, ?_⟩
    · intro n s hs
      rcases hslot n s hs with ⟨_, rfl⟩ | ⟨_, hs⟩
      · simp
      · have := h.slot_lt n s hs
        simp only [length_append, length_singleton]
        omega
    · intro n m s hn hm
      rcases hslot n s hn with ⟨hn, hs⟩ | ⟨_, hn⟩ <;>
        rcases hslot m s hm with ⟨hm, hs'⟩ | ⟨_, hm⟩
      · rw [hn, hm]
      · exact absurd (h.slot_lt m _ hm) (by omega)
      · exact absurd (h.slot_lt n _ hn) (by omega)
      · exact h.slot_inj n m s hn hm
  · intro n
    by_cases hn : n = node
    · subst hn
      simp [get, hlen.1]
    · have hn' : ¬ node = n := fun e => hn e.symm
      simp only [get, getElem?_set, if_neg hn', hread, if_neg hn]
      split
      · rfl
      · next s hs =>
        have := h.slot_lt n s (Option.join_eq_some_iff.mp hs)
        rw [getElem?_append_left this]

theorem setRun_spec (h : r.WF bound) {old : List Nat} (hget : r.get node = some old) (run : List Nat) :
    (r.setRun node run).WF bound ∧
      ∀ n, (r.setRun node run).get n = if n = node then some run else r.get n := by
  obtain ⟨s, hs⟩ : ∃ s, (r.index[node]?).join = some s := by
    cases hj : (r.index[node]?).join with
    | none => simp [get, hj] at hget
    | some s => exact ⟨s, rfl⟩
  have hslot := Option.join_eq_some_iff.mp hs
  have hlt := h.slot_lt node s hslot
  simp only [setRun, hs]
  refine ⟨⟨h.length_le, by simpa using h.slot_lt, h.slot_inj⟩, ?_⟩
  intro n
  by_cases hn : n = node
  · subst hn
    simp [get, hs, hlt]
  · simp only [get, if_neg hn]
    split
    · rfl
    · next t ht =>
      -- another node's slot is another slot
      have hts : s ≠ t := by
        rintro rfl
        exact hn (h.slot_inj n node s (Option.join_eq_some_iff.mp ht) hslot)
      simp [hts]

end Runs

namespace Graph

variable {N E : Type}

variable {g : Graph N E} {n : Nat} {rings : Nat → TraversalDirection → List Nat}

theorem overlay_eq (n : Nat) (d : TraversalDirection) :
    g.overlay n d = ((g.relocations.getD .empty).runs d).get n := by
  unfold overlay
  cases g.relocations with
  | none => cases d <;> simp [Relocations.empty, Relocations.runs]
  | some r => rfl

theorem Rep.relocations_wf (h : g.Rep rings) (d : TraversalDirection) :
    ((g.relocations.getD .empty).runs d).WF g.nodeBound := by
  cases hr : g.relocations with
  | none => cases d <;> exact Runs.wf_empty _
  | some r => exact h.runs_wf r hr d

/-- Before an edit the node has a run: its replacement, or a copy of the live
part of its compressed run. -/
theorem Rep.ensureRun_eq (h : g.Rep rings) (hn : n < g.nodeBound) (d : TraversalDirection) :
    ∃ r, g.ensureRun n d = some { g with relocations := some r } ∧
      (∀ d', (r.runs d').WF g.nodeBound) ∧ ∀ n' d', (r.runs d').get n' =
        if n' = n ∧ d' = d then some ((g.overlay n d).getD (g.liveBaseRun n d))
        else g.overlay n' d' := by
  have hwf := h.relocations_wf
  cases hover : g.overlay n d with
  | some run =>
    have hsome : ∃ r, g.relocations = some r := by
      cases hr : g.relocations with
      | none => simp [overlay, hr] at hover
      | some r => exact ⟨r, rfl⟩
    obtain ⟨r, hr⟩ := hsome
    refine ⟨r, ?_, h.runs_wf r hr, ?_⟩
    · simp [ensureRun, hover, ← hr]
    · intro n' d'
      have hget : (r.runs d').get n' = g.overlay n' d' := by simp [overlay, hr]
      rw [hget]
      split
      · next hc => rw [hc.1, hc.2, hover]; rfl
      · rfl
  | none =>
    have hfree := hover
    rw [overlay_eq] at hfree
    obtain ⟨runs', hins, hwf', hget'⟩ := Runs.insert_spec (hwf d) hn hfree (g.liveBaseRun n d)
    refine ⟨(g.relocations.getD .empty).setRuns d runs', ?_, ?_, ?_⟩
    · simp [ensureRun, hover, startRun, hins]
    · intro d'
      rw [Relocations.runs_setRuns]
      split
      · exact hwf'
      · exact hwf d'
    · intro n' d'
      rw [Relocations.runs_setRuns, overlay_eq]
      by_cases hd : d' = d
      · subst hd
        rw [if_pos rfl, hget']
        by_cases hn' : n' = n <;> simp [hn']
      · rw [if_neg hd, if_neg (fun hc => hd hc.2)]

theorem Counted.retainLive (hc : g.Counted) {run : List Nat} (hlt : ∀ e ∈ run, e < g.edgeBound) :
    retainLive run g.edgeFilter = run.filter g.liveEdges.isLive := by
  rw [← hc.filter_edgeFilter hlt]
  cases g.edgeFilter with
  | none => exact (filter_eq_self.mpr (fun _ _ => rfl)).symm
  | some live => rfl

/-- `g'` differs from `g` in the adjacency of one node, which now reads `run`. -/
structure Edited (g g' : Graph N E) (rings rings' : Nat → TraversalDirection → List Nat)
    (n : Nat) (d : TraversalDirection) (run : List Nat) : Prop where
  frame : ∃ chains relocations, g' = { g with chains := chains, relocations := relocations }
  rep : g'.Rep rings'
  content : ∀ n' d', g'.content rings' n' d' =
    if n' = n ∧ d' = d then run else g.content rings n' d'

theorem Edited.counted {g' : Graph N E} {rings' : Nat → TraversalDirection → List Nat}
    {d : TraversalDirection} {run : List Nat} (h : Edited g g' rings rings' n d run) (hc : g.Counted) : g'.Counted := by
  obtain ⟨_, _, rfl⟩ := h.frame
  exact ⟨hc.nodes_wf, hc.nodes_len, hc.nodes_count, hc.edges_wf, hc.edges_len, hc.edges_count⟩

theorem Rep.withRun {R : Type} (h : g.Rep rings) (hc : g.Counted) (hn : n < g.nodeBound) (d : TraversalDirection)
    (edit : List Nat → Option LiveSet → List Nat × R) (hedit : ∀ run, (∀ e ∈ run, e < g.edgeBound) →
      ∀ e ∈ (edit run g.edgeFilter).1, e < g.edgeBound) :
    ∃ run g', g.withRun n d edit = some (g', (edit run g.edgeFilter).2) ∧
      run.filter g.liveEdges.isLive = (g.content rings n d).filter g.liveEdges.isLive ∧
      (∀ e ∈ run, e < g.edgeBound) ∧
      Edited g g' rings (DeltaChains.detachRings rings n d) n d (edit run g.edgeFilter).1 := by
  obtain ⟨r, hensure, hrwf, hrget⟩ := h.ensureRun_eq hn d
  set first := (g.overlay n d).getD (g.liveBaseRun n d) with hfirst
  have hget : (r.runs d).get n = some first := by rw [hrget, if_pos ⟨rfl, rfl⟩]
  have hfirst_lt : ∀ e ∈ first, e < g.edgeBound := by
    intro e he
    apply h.run_lt n d e
    rw [hfirst] at he
    unfold run
    cases hover : g.overlay n d with
    | some run => simpa [hover] using he
    | none =>
      have hlt : ∀ e ∈ g.baseRun n d, e < g.edgeBound := by
        intro x hx
        exact h.run_lt n d x (by simpa [run, hover] using hx)
      rw [hover, Option.getD_none, liveBaseRun, hc.retainLive hlt] at he
      exact (mem_filter.mp he).1
  have hfirst_live : first.filter g.liveEdges.isLive = (g.run n d).filter g.liveEdges.isLive := by
    rw [hfirst]
    unfold run
    cases hover : g.overlay n d with
    | some run => rfl
    | none =>
      have hlt : ∀ e ∈ g.baseRun n d, e < g.edgeBound := by
        intro x hx
        exact h.run_lt n d x (by simpa [run, hover] using hx)
      rw [Option.getD_none, Option.getD_none, liveBaseRun, hc.retainLive hlt, filter_filter]
      simp
  obtain ⟨hdrain, hrings, hnext⟩ := h.threaded.drainInto n d g.baseEdges.length g.edgeFilter first
  rcases hd : g.chains.drainInto n d g.baseEdges.length g.edgeFilter first with ⟨chains, run⟩
  rw [hd] at hdrain hrings hnext
  simp only at hdrain hrings hnext
  have htail_lt : ∀ e ∈ (rings n d).map (g.baseEdges.length + ·), e < g.edgeBound := fun e he =>
    h.content_lt n d e (mem_append_right _ he)
  rw [hc.filter_edgeFilter htail_lt] at hdrain
  have hrun_lt : ∀ e ∈ run, e < g.edgeBound := by
    intro e he
    rw [hdrain] at he
    rcases mem_append.mp he with he | he
    · exact hfirst_lt e he
    · exact htail_lt e (mem_filter.mp he).1
  obtain ⟨hswf, hsget⟩ := Runs.setRun_spec (hrwf d) hget (edit run g.edgeFilter).1
  set relocations := r.setRuns d ((r.runs d).setRun n (edit run g.edgeFilter).1) with hrel
  have hwith : g.withRun n d edit =
      some ({ g with chains := chains, relocations := some relocations },
        (edit run g.edgeFilter).2) := by
    have hfilter : ({ g with relocations := some r } : Graph N E).edgeFilter = g.edgeFilter := rfl
    unfold Graph.withRun
    simp only [hensure, Option.bind_eq_bind, Option.bind_some, hget, hfilter, hd, ← hrel]
  have hoverlay : ∀ n' d', ({ g with chains := chains, relocations := some relocations } :
      Graph N E).overlay n' d' =
      if n' = n ∧ d' = d then some (edit run g.edgeFilter).1 else g.overlay n' d' := by
    intro n' d'
    simp only [overlay, Option.bind_some, hrel, Relocations.runs_setRuns]
    by_cases hdd : d' = d
    · subst hdd
      rw [if_pos rfl, hsget]
      by_cases hnn : n' = n
      · simp [hnn]
      · rw [if_neg hnn, if_neg (fun hc => hnn hc.1), hrget, if_neg (fun hc => hnn hc.1)]
        rfl
    · rw [if_neg hdd, if_neg (fun hc => hdd hc.2), hrget, if_neg (fun hc => hdd hc.2)]
      rfl
  have hrun : ∀ n' d', ({ g with chains := chains, relocations := some relocations } :
      Graph N E).run n' d' =
      if n' = n ∧ d' = d then (edit run g.edgeFilter).1 else g.run n' d' := by
    intro n' d'
    simp only [Graph.run, hoverlay]
    split <;> rfl
  refine ⟨run, _, hwith, ?_, hrun_lt, ⟨_, _, rfl⟩, ?_, ?_⟩
  · rw [hdrain, filter_append, filter_filter, content, filter_append, hfirst_live]
    simp
  · refine ⟨hrings, ?_, ?_, h.axis_wf, ?_, ?_, ?_⟩
    · change chains.next.length = g.deltaEdges.length
      rw [hnext, h.next_length]
    · intro r' hr' d'
      cases hr'
      rw [hrel, Relocations.runs_setRuns]
      split
      · exact hswf
      · exact hrwf d'
    · intro n' d' e he
      rw [hrun] at he
      split at he
      · exact hedit run hrun_lt e he
      · exact h.run_lt n' d' e he
    · intro n' d' e p he hp
      simp only [DeltaChains.detachRings] at hp
      split at hp
      · simp at hp
      · next hne =>
        rw [hrun, if_neg hne] at he
        exact h.run_before n' d' e p he hp
    · intro n' d'
      simp only [DeltaChains.detachRings]
      split
      · exact List.Pairwise.nil
      · exact h.sorted n' d'
  · intro n' d'
    simp only [content, hrun, DeltaChains.detachRings]
    split <;> simp

end Graph

end CfgLib.Store
