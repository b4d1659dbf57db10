import CfgLib.Dataflow.EdgeFixpoint
import CfgLib.Dataflow.Instruction
import CfgLib.Graph.Traverse
import CfgLib.Lib.Past

/-!
# Replaying blocks

`dataflow/unwind.rs` with the reachable solve of `dataflow/edge_fixpoint.rs`: a block is
replayed from the state at its start, and an unwind carries the states before the
throwing instructions.
-/

namespace CfgLib

/-- The edges of a graph with their kinds; a dead identity reads as a fallthrough to block 0. -/
def Cfg.edgeView {ι π : Type} (c : Cfg ι π) : EdgeView EdgeKind where
  toGraphView := c.view.toGraphView
  edgeBound := c.edgeBound
  edgeIds := (List.range c.edgeBound).filter c.containsEdge
  outgoing := c.outgoing
  incoming := c.incoming
  edge e := ((c.edge e).map fun r => ⟨e, r.source, r.target, r.payload.kind⟩).getD ⟨e, 0, 0, .fallthrough⟩

namespace Cfg

variable {ι π : Type} {c : Cfg ι π}

theorem mem_edgeIds {e : Nat} : e ∈ c.edgeView.edgeIds ↔ (c.edge e).isSome := by
  change e ∈ (List.range c.edgeBound).filter c.containsEdge ↔ _
  rw [List.mem_filter, List.mem_range]
  refine ⟨fun h => h.2, fun h => ⟨?_, h⟩⟩
  obtain ⟨r, hr⟩ := Option.isSome_iff_exists.mp h
  exact edge_lt hr

theorem edge_edgeView {e : Nat} {r : Store.EdgeRecord (Edge π)} (hr : c.edge e = some r) :
    c.edgeView.edge e = ⟨e, r.source, r.target, r.payload.kind⟩ := by
  change ((c.edge e).map _).getD _ = _
  rw [hr]
  rfl

theorem exists_successor_iff (hc : c.WF) {n : Nat} {P : Nat → Prop} :
    (∃ t ∈ c.successors n, P t) ↔ ∃ e ∈ c.outgoing n, P (c.edgeView.edge e).target := by
  constructor
  · rintro ⟨t, ht, h⟩
    obtain ⟨e, r, hr, hs, rfl⟩ := hc.mem_successors.mp ht
    exact ⟨e, hc.mem_outgoing.mpr ⟨r, hr, hs⟩, by rwa [edge_edgeView hr]⟩
  · rintro ⟨e, he, h⟩
    obtain ⟨r, hr, hs⟩ := hc.mem_outgoing.mp he
    rw [edge_edgeView hr] at h
    exact ⟨_, hc.mem_successors.mpr ⟨e, r, hr, hs, rfl⟩, h⟩

theorem WF.mem_successors_iff (h : c.WF) {n t : Nat} :
    t ∈ c.successors n ↔ ∃ e ∈ c.outgoing n, (c.edgeView.edge e).target = t := by
  rw [← exists_successor_iff (P := (· = t)) h]
  simp

theorem WF.lawful_edgeView (h : c.WF) : c.edgeView.Lawful where
  view := h.lawful_view
  edgeIds_lt e he := by
    obtain ⟨r, hr⟩ := Option.isSome_iff_exists.mp (mem_edgeIds.mp he)
    exact edge_lt hr
  edgeIds_nodup := List.nodup_range.filter _
  edge_id e he := by
    obtain ⟨r, hr⟩ := Option.isSome_iff_exists.mp (mem_edgeIds.mp he)
    rw [edge_edgeView hr]
  source_live e he := by
    obtain ⟨r, hr⟩ := Option.isSome_iff_exists.mp (mem_edgeIds.mp he)
    rw [edge_edgeView hr]
    exact mem_blockIds.mpr (h.source_live hr)
  target_live e he := by
    obtain ⟨r, hr⟩ := Option.isSome_iff_exists.mp (mem_edgeIds.mp he)
    rw [edge_edgeView hr]
    exact mem_blockIds.mpr (h.target_live hr)
  mem_outgoing n _ e := by
    refine h.mem_outgoing.trans ⟨?_, ?_⟩
    · rintro ⟨r, hr, rfl⟩
      exact ⟨mem_edgeIds.mpr (by rw [hr]; rfl), by rw [edge_edgeView hr]⟩
    · rintro ⟨he, hs⟩
      obtain ⟨r, hr⟩ := Option.isSome_iff_exists.mp (mem_edgeIds.mp he)
      rw [edge_edgeView hr] at hs
      exact ⟨r, hr, hs⟩
  mem_incoming n _ e := by
    refine h.mem_incoming.trans ⟨?_, ?_⟩
    · rintro ⟨r, hr, rfl⟩
      exact ⟨mem_edgeIds.mpr (by rw [hr]; rfl), by rw [edge_edgeView hr]⟩
    · rintro ⟨he, hs⟩
      obtain ⟨r, hr⟩ := Option.isSome_iff_exists.mp (mem_edgeIds.mp he)
      rw [edge_edgeView hr] at hs
      exact ⟨r, hr, hs⟩
  outgoing_nodup n _ := h.graph.nodup .outgoing n
  incoming_nodup n _ := h.graph.nodup .incoming n
  successors_perm n _ := by
    refine List.Perm.of_eq ((List.filterMap_congr fun e he => ?_).trans (congrFun List.filterMap_eq_map' _))
    obtain ⟨r, hr, _⟩ := h.mem_outgoing.mp he
    rw [hr, edge_edgeView hr]
    rfl
  predecessors_perm n _ := by
    refine List.Perm.of_eq ((List.filterMap_congr fun e he => ?_).trans (congrFun List.filterMap_eq_map' _))
    obtain ⟨r, hr, _⟩ := h.mem_incoming.mp he
    rw [hr, edge_edgeView hr]
    rfl

end Cfg

namespace Dataflow

open CfgLib.Lib Relation

variable {ι ν π : Type}

/-! ## Replay -/

/-- Replay code from a state: the state after it, and the states before its throwing
instructions. -/
def replayBlock {σ : Type} (throws : ι → Bool) (step : σ → ι → σ) : List ι → σ → σ × List σ
  | [], state => (state, [])
  | instruction :: rest, state =>
    let (last, departing) := replayBlock throws step rest (step state instruction)
    (last, if throws instruction then state :: departing else departing)

/-- Whether the edge leaves its source before a throwing instruction. -/
def departsBeforeThrows (I : InstrInfo ι ν) (c : Cfg ι π) (edge : EdgeRef EdgeKind) : Bool :=
  edge.data == .exceptionUnwind && (c.instructions edge.source).any I.mayUnwind

variable {throws : ι → Bool}

theorem replayBlock_fst {σ : Type} {step : σ → ι → σ} (code : List ι) : ∀ state : σ,
    (replayBlock throws step code state).1 = code.foldl step state := by
  induction code with
  | nil => exact fun _ => rfl
  | cons a code ih => exact fun state => ih (step state a)

def throwingPlaces (throws : ι → Bool) : List ι → List Nat
  | [] => []
  | a :: rest =>
    let later := (throwingPlaces throws rest).map (· + 1)
    if throws a then 0 :: later else later

theorem mem_throwingPlaces (code : List ι) : ∀ {i : Nat},
    i ∈ throwingPlaces throws code ↔ ∃ a, code[i]? = some a ∧ throws a = true := by
  induction code with
  | nil => simp [throwingPlaces]
  | cons a code ih =>
    intro i
    unfold throwingPlaces
    cases i with
    | zero => by_cases ha : throws a = true <;> simp [ha]
    | succ i => by_cases ha : throws a = true <;> simp [ha, ih]

theorem replayBlock_snd {σ : Type} {step : σ → ι → σ} (code : List ι) : ∀ state : σ,
    (replayBlock throws step code state).2 =
      (throwingPlaces throws code).map fun i => (code.take i).foldl step state := by
  induction code with
  | nil => exact fun _ => rfl
  | cons a code ih =>
    intro state
    have hlater : (replayBlock throws step code (step state a)).2 =
        ((throwingPlaces throws code).map (· + 1)).map fun i => ((a :: code).take i).foldl step state := by
      rw [ih, List.map_map]
      rfl
    change (if throws a then state :: (replayBlock throws step code (step state a)).2
      else (replayBlock throws step code (step state a)).2) = _
    rw [hlater, throwingPlaces]
    by_cases ha : throws a = true
    · simp [ha]
    · simp [ha]

/-! ## Departures -/

section Departures

variable {I : InstrInfo ι ν} {c : Cfg ι π} {edge : EdgeRef EdgeKind}

def DepartsAt (I : InstrInfo ι ν) (c : Cfg ι π) (edge : EdgeRef EdgeKind) (index : Nat) : Prop :=
  if departsBeforeThrows I c edge then
    ∃ a, (c.instructions edge.source)[index]? = some a ∧ I.mayUnwind a = true
  else index = (c.instructions edge.source).length

theorem DepartsAt.le {i : Nat} (h : DepartsAt I c edge i) : i ≤ (c.instructions edge.source).length := by
  unfold DepartsAt at h
  split at h
  · obtain ⟨a, ha, _⟩ := h
    exact Nat.le_of_lt (List.getElem?_eq_some_iff.mp ha).1
  · exact Nat.le_of_eq h

theorem exists_departsAt (I : InstrInfo ι ν) (c : Cfg ι π) (edge : EdgeRef EdgeKind) :
    ∃ i, DepartsAt I c edge i := by
  unfold DepartsAt
  split
  · next h =>
    rw [departsBeforeThrows, Bool.and_eq_true, List.any_eq_true] at h
    obtain ⟨_, a, ha, hthrow⟩ := h
    obtain ⟨i, hi, hget⟩ := List.getElem_of_mem ha
    exact ⟨i, a, List.getElem?_eq_some_iff.mpr ⟨hi, hget⟩, hthrow⟩
  · exact ⟨_, rfl⟩

variable {b : Nat} {P : Nat → Prop}

theorem entersFrom_iff (hc : c.WF) {i t : Nat} : (c.dataFlow I).EntersFrom I.mayUnwind (b, i) t ↔
      ∃ e ∈ c.incoming t, (c.edgeView.edge e).source = b ∧ DepartsAt I c (c.edgeView.edge e) i := by
  constructor
  · rintro ⟨l, hcode, ⟨hi, e, r, hr, hs, ht, hdeparts⟩ | ⟨⟨a, ha, hthrow⟩, e, r, hr, hs, ht, hdeparts⟩⟩
    all_goals
      obtain ⟨_, rfl⟩ := Cfg.instructions_of_code hcode
      have hd : departsBeforeThrows I c ⟨e, r.source, r.target, r.payload.kind⟩ = _ := hdeparts
      refine ⟨e, hc.mem_incoming.mpr ⟨r, hr, ht⟩, ?_⟩
      rw [Cfg.edge_edgeView hr]
      subst hs
      refine ⟨rfl, ?_⟩
      rw [DepartsAt, hd]
    · exact hi
    · exact ⟨a, ha, hthrow⟩
  · rintro ⟨e, he, hs, hdeparts⟩
    obtain ⟨r, hr, ht⟩ := hc.mem_incoming.mp he
    rw [Cfg.edge_edgeView hr] at hs hdeparts
    subst hs
    refine ⟨_, Cfg.exists_code (hc.source_live hr), ?_⟩
    cases hd : c.departsBeforeThrows I r with
    | false =>
      have hd' : departsBeforeThrows I c ⟨e, r.source, r.target, r.payload.kind⟩ = false := hd
      rw [DepartsAt, hd'] at hdeparts
      exact Or.inl ⟨hdeparts, e, r, hr, rfl, ht, hd⟩
    | true =>
      have hd' : departsBeforeThrows I c ⟨e, r.source, r.target, r.payload.kind⟩ = true := hd
      rw [DepartsAt, hd'] at hdeparts
      exact Or.inr ⟨hdeparts, e, r, hr, rfl, ht, hd⟩

/-- What holds after some edges of a block that depart, or after some that do not, edge by edge. -/
theorem exists_leaves_iff (hc : c.WF) {departs : Bool} :
    (∃ t, (∃ e r, c.edge e = some r ∧ r.source = b ∧ r.target = t ∧ c.departsBeforeThrows I r = departs) ∧ P t) ↔
      ∃ e ∈ c.outgoing b, departsBeforeThrows I c (c.edgeView.edge e) = departs ∧ P (c.edgeView.edge e).target := by
  constructor
  · rintro ⟨t, ⟨e, r, hr, rfl, rfl, hdeparts⟩, h⟩
    refine ⟨e, hc.mem_outgoing.mpr ⟨r, hr, rfl⟩, ?_⟩
    rw [Cfg.edge_edgeView hr]
    exact ⟨hdeparts, h⟩
  · rintro ⟨e, he, hdeparts, h⟩
    obtain ⟨r, hr, hs⟩ := hc.mem_outgoing.mp he
    rw [Cfg.edge_edgeView hr] at hdeparts h
    exact ⟨_, ⟨e, r, hr, hs, rfl, hdeparts⟩, h⟩

theorem exists_unwind_iff (hc : c.WF) : (∃ t, (c.dataFlow I).unwind b t ∧ P t) ↔
    ∃ e ∈ c.outgoing b, departsBeforeThrows I c (c.edgeView.edge e) = true ∧ P (c.edgeView.edge e).target :=
  exists_leaves_iff hc

theorem exists_normal_iff (hc : c.WF) : (∃ t, (c.dataFlow I).normal b t ∧ P t) ↔
    ∃ e ∈ c.outgoing b, departsBeforeThrows I c (c.edgeView.edge e) = false ∧ P (c.edgeView.edge e).target :=
  exists_leaves_iff hc

end Departures

/-! ## Reachable blocks -/

section Reachable

variable {c : Cfg ι π}

/-- The worklist that a solve over the reachable blocks starts from. -/
def reachableWorklist (c : Cfg ι π) : Worklist :=
  .of c.blockBound ((depthFirstPreorder c.view.toGraphView c.entry .outgoing).getD [])

theorem reachable_live (hc : c.WF) {n : Nat}
    (h : ReflTransGen (c.view.toGraphView.Adjacent .outgoing) c.entry n) : n ∈ c.blockIds := by
  induction h with
  | refl => exact Cfg.mem_blockIds.mpr hc.entry
  | tail _ hab ih => exact hc.lawful_view.successors_live _ ih _ hab

theorem reachableWorklist_spec (hc : c.WF) : (reachableWorklist c).WF c.blockBound ∧
    ∀ n, (reachableWorklist c).queued n ↔ ReflTransGen (c.view.toGraphView.Adjacent .outgoing) c.entry n := by
  obtain ⟨order, horder, hmem⟩ := depthFirstPreorder_spec hc.lawful_view (Cfg.block_lt hc.entry) .outgoing
  have hspec := @Worklist.wf_of c.blockBound order fun n hn =>
    Cfg.block_lt (Cfg.mem_blockIds.mp (reachable_live hc ((hmem n).mp hn)))
  rw [reachableWorklist, horder, Option.getD_some]
  exact ⟨hspec.1, fun n => (hspec.2 n).trans (hmem n)⟩

theorem reachableWorklist_live (hc : c.WF) {n : Nat} (h : (reachableWorklist c).queued n) : n ∈ c.blockIds :=
  reachable_live hc (((reachableWorklist_spec hc).2 n).mp h)

end Reachable

end Dataflow

end CfgLib
