import CfgLib.Lib.RankSelect
import CfgLib.Store.Basic

/-!
# The naive store

What a store is for, without its representation: optional payloads per slot
and one plain list of live edge identities per node and direction.  An
operation returns `none` where its documented precondition fails.
-/

namespace CfgLib.Store

open CfgLib.Lib List

/-- One list of live edge identities per direction and node. -/
abbrev Adjacency := TraversalDirection → Nat → List Nat

namespace Adjacency

/-- Replace one node's list along one direction. -/
def edit (lists : Adjacency) (direction : TraversalDirection) (node : Nat)
    (f : List Nat → List Nat) : Adjacency :=
  fun d n => if d = direction ∧ n = node then f (lists d n) else lists d n

theorem edit_apply (lists : Adjacency) (direction d : TraversalDirection) (node n : Nat)
    (f : List Nat → List Nat) : lists.edit direction node f d n =
      if d = direction ∧ n = node then f (lists d n) else lists d n := rfl

end Adjacency

/-- Slots that are empty once removed, and one list per node and direction. -/
structure Naive (N E : Type) where
  nodes : List (Option N)
  edges : List (Option (EdgeRecord E))
  lists : Adjacency

namespace Naive

variable {N E : Type}

def empty : Naive N E := ⟨[], [], fun _ _ => []⟩

def node (m : Naive N E) (n : Nat) : Option N := (m.nodes[n]?).join

def edge (m : Naive N E) (e : Nat) : Option (EdgeRecord E) := (m.edges[e]?).join

def addNode (m : Naive N E) (payload : N) : Option (Naive N E) :=
  if m.nodes.length < maxSlots then some { m with nodes := m.nodes ++ [some payload] } else none

/-- Append the new edge to its source's outgoing list and its target's incoming list. -/
def addEdge (m : Naive N E) (source target : Nat) (payload : E) : Option (Naive N E) :=
  if (m.node source).isSome ∧ (m.node target).isSome ∧ m.edges.length < maxSlots then
    some { m with
      edges := m.edges ++ [some ⟨source, target, payload⟩]
      lists := (m.lists.edit .outgoing source (· ++ [m.edges.length])).edit .incoming target
        (· ++ [m.edges.length]) }
  else none

/-- Delete a live edge from its two lists. -/
def removeEdge (m : Naive N E) (e : Nat) : Naive N E :=
  match m.edge e with
  | none => m
  | some record =>
    { m with
      edges := m.edges.set e none
      lists := (m.lists.edit .outgoing record.source (·.erase e)).edit .incoming record.target
        (·.erase e) }

def removeNode (m : Naive N E) (n : Nat) : Naive N E :=
  if (m.node n).isSome then
    let m := (m.lists .outgoing n).foldl removeEdge m
    let m := (m.lists .incoming n).foldl removeEdge m
    { m with nodes := m.nodes.set n none }
  else m

/-- Delete the edge from its old endpoint's list and append it to the new one's,
when the endpoint changes. -/
def redirect (m : Naive N E) (e endpoint : Nat) (direction : TraversalDirection) :
    Option (Naive N E) :=
  match m.edge e with
  | none => none
  | some record =>
    if (m.node endpoint).isSome then
      if record.endpoint direction = endpoint then some m
      else
        some { m with
          edges := m.edges.set e (some (record.setEndpoint direction endpoint))
          lists := (m.lists.edit direction (record.endpoint direction) (·.erase e)).edit
            direction endpoint (· ++ [e]) }
    else none

/-- Move the endpoint of one live edge in its record only. -/
def setEndpoint (m : Naive N E) (direction : TraversalDirection) (endpoint e : Nat) :
    Naive N E :=
  { m with edges := m.edges.modify e (·.map (·.setEndpoint direction endpoint)) }

def moveAdjacency (m : Naive N E) (old new : Nat) (direction : TraversalDirection) :
    Option (Naive N E) :=
  if old = new ∨ m.nodes.length ≤ old then none
  else if m.lists direction old = [] then some m
  else if (m.node new).isSome then
    let moved := m.lists direction old
    let m := moved.foldl (setEndpoint · direction new) m
    some { m with
      lists := (m.lists.edit direction old (fun _ => [])).edit direction new (· ++ moved) }
  else none

def occupied {α : Type} (slots : List (Option α)) (slot : Nat) : Bool :=
  ((slots[slot]?).join).isSome

def compact (m : Naive N E) : Naive N E where
  nodes := (select (occupied m.nodes) m.nodes.length).map m.node
  edges := (select (occupied m.edges) m.edges.length).map (fun e =>
    (m.edge e).map (fun record =>
      { record with
        source := rank (occupied m.nodes) record.source
        target := rank (occupied m.nodes) record.target }))
  lists := fun d n =>
    match (select (occupied m.nodes) m.nodes.length)[n]? with
    | none => []
    | some old => (m.lists d old).map (rank (occupied m.edges))

/-- Edit the payload of a live node in place. -/
def modifyNode (m : Naive N E) (n : Nat) (f : N → N) : Naive N E :=
  { m with nodes := m.nodes.modify n (Option.map f) }

/-- One operation, or `none` where its precondition fails. -/
def apply (m : Naive N E) : Op N E → Option (Naive N E)
  | .addNode payload => m.addNode payload
  | .addEdge source target payload => m.addEdge source target payload
  | .removeEdge edge => some (m.removeEdge edge)
  | .removeNode node => some (m.removeNode node)
  | .redirectEdgeSource edge source => m.redirect edge source .outgoing
  | .redirectEdgeTarget edge target => m.redirect edge target .incoming
  | .moveAdjacency old new direction => m.moveAdjacency old new direction
  | .compact => some m.compact

def applyAll (m : Naive N E) (ops : List (Op N E)) : Option (Naive N E) :=
  ops.foldlM apply m

structure WF (m : Naive N E) : Prop where
  mem_iff : ∀ d n e, e ∈ m.lists d n ↔ ∃ record, m.edge e = some record ∧ record.endpoint d = n
  nodup : ∀ d n, (m.lists d n).Nodup
  live : ∀ d e record, m.edge e = some record → (m.node (record.endpoint d)).isSome

/-! ## Slots -/

variable {m : Naive N E} {e n new old : Nat} {d : TraversalDirection} {α : Type}

theorem node_lt (h : (m.node n).isSome) : n < m.nodes.length := by
  by_contra hc
  rw [node, getElem?_eq_none (by omega)] at h
  simp at h

variable {record : EdgeRecord E} {payload : N} {endpoint source target : Nat}

theorem edge_lt (h : m.edge e = some record) : e < m.edges.length := by
  by_contra hc
  rw [edge, getElem?_eq_none (by omega)] at h
  simp at h

theorem join_getElem?_append (slots : List (Option α)) (x : Option α) (i : Nat) :
    ((slots ++ [x])[i]?).join = if i = slots.length then x else (slots[i]?).join := by
  rcases Nat.lt_trichotomy i slots.length with h | h | h
  · rw [getElem?_append_left h, if_neg (by omega)]
  · subst h; simp
  · rw [if_neg (by omega), getElem?_eq_none (by simp; omega),
      getElem?_eq_none (by omega)]

theorem join_getElem?_set (slots : List (Option α)) (x : Option α) (k i : Nat) (hk : k < slots.length) :
    ((slots.set k x)[i]?).join = if i = k then x else (slots[i]?).join := by
  rw [getElem?_set]
  by_cases h : k = i
  · subst h; simp [hk]
  · rw [if_neg h, if_neg (fun e => h e.symm)]

/-! ## Editing a payload -/

theorem node_modifyNode (m : Naive N E) (n i : Nat) (f : N → N) :
    (m.modifyNode n f).node i = if i = n then (m.node i).map f else m.node i := by
  simp only [node, modifyNode, getElem?_modify]
  by_cases h : n = i
  · subst h
    cases m.nodes[n]? <;> simp
  · rw [if_neg (fun h' => h h'.symm)]
    cases m.nodes[i]? <;> simp [h]

theorem isSome_node_modifyNode (m : Naive N E) (n i : Nat) (f : N → N) :
    ((m.modifyNode n f).node i).isSome = (m.node i).isSome := by
  rw [node_modifyNode]
  split <;> simp

theorem WF.modifyNode (h : m.WF) (n : Nat) (f : N → N) : (m.modifyNode n f).WF := by
  refine ⟨h.mem_iff, h.nodup, ?_⟩
  intro d e record hr
  rw [isSome_node_modifyNode]
  exact h.live d e record hr

/-! ## Deleting an edge -/

theorem removeEdge_of_none (h : m.edge e = none) : m.removeEdge e = m := by
  simp [removeEdge, h]

@[simp] theorem nodes_removeEdge (m : Naive N E) (e : Nat) : (m.removeEdge e).nodes = m.nodes := by
  unfold removeEdge
  split <;> rfl

@[simp] theorem length_edges_removeEdge (m : Naive N E) (e : Nat) :
    (m.removeEdge e).edges.length = m.edges.length := by
  unfold removeEdge
  split <;> simp

theorem edge_removeEdge (m : Naive N E) (e i : Nat) :
    (m.removeEdge e).edge i = if i = e then none else m.edge i := by
  unfold removeEdge
  split
  · next h =>
    split
    · next hi => rw [hi, h]
    · rfl
  · next record h => exact join_getElem?_set _ _ _ _ (edge_lt h)

theorem lists_removeEdge (h : m.WF) (e : Nat) (d : TraversalDirection) (n : Nat) :
    (m.removeEdge e).lists d n = (m.lists d n).erase e := by
  unfold removeEdge
  split
  · next hnone =>
    rw [erase_of_not_mem]
    intro hmem
    obtain ⟨record, hr, _⟩ := (h.mem_iff d n e).mp hmem
    rw [hnone] at hr
    cases hr
  · next record hr =>
    have hother : n ≠ record.endpoint d → (m.lists d n).erase e = m.lists d n := by
      intro hne
      rw [erase_of_not_mem]
      intro hmem
      obtain ⟨record', hr', hend⟩ := (h.mem_iff d n e).mp hmem
      rw [hr] at hr'
      cases hr'
      exact hne hend.symm
    cases d with
    | outgoing =>
      by_cases hn : n = record.source
      · subst hn; simp [Adjacency.edit_apply]
      · rw [hother hn]
        simp [Adjacency.edit_apply, hn]
    | incoming =>
      by_cases hn : n = record.target
      · subst hn; simp [Adjacency.edit_apply]
      · rw [hother hn]
        simp [Adjacency.edit_apply, hn]

theorem WF.removeEdge (h : m.WF) (e : Nat) : (m.removeEdge e).WF where
  mem_iff := by
    intro d n i
    rw [lists_removeEdge h, (h.nodup d n).mem_erase_iff, h.mem_iff, edge_removeEdge]
    by_cases hi : i = e <;> simp [hi]
  nodup := by
    intro d n
    rw [lists_removeEdge h]
    exact (h.nodup d n).erase e
  live := by
    intro d i record hr
    rw [edge_removeEdge] at hr
    split at hr
    · cases hr
    · simpa [node] using h.live d i record hr

/-! ## Deleting a list of edges -/

theorem WF.foldl_removeEdge (h : m.WF) (l : List Nat) : (l.foldl Naive.removeEdge m).WF := by
  induction l generalizing m with
  | nil => exact h
  | cons e l ih => exact ih (h.removeEdge e)

@[simp] theorem nodes_foldl_removeEdge (m : Naive N E) (l : List Nat) :
    (l.foldl Naive.removeEdge m).nodes = m.nodes := by
  induction l generalizing m with
  | nil => rfl
  | cons e l ih => rw [foldl_cons, ih, nodes_removeEdge]

theorem edge_foldl_removeEdge (m : Naive N E) (l : List Nat) (i : Nat) :
    (l.foldl Naive.removeEdge m).edge i = if i ∈ l then none else m.edge i := by
  induction l generalizing m with
  | nil => simp
  | cons e l ih =>
    rw [foldl_cons, ih, edge_removeEdge]
    by_cases h1 : i ∈ l <;> by_cases h2 : i = e <;> simp [h1, h2]

theorem edge_removeNode_endpoint (h : m.WF) (hn : (m.node n).isSome)
    (i : Nat) (record : EdgeRecord E) (hr : (m.removeNode n).edge i = some record)
    (d : TraversalDirection) : m.edge i = some record ∧ record.endpoint d ≠ n := by
  set m₁ := (m.lists .outgoing n).foldl removeEdge m with hm₁
  set m₂ := (m₁.lists .incoming n).foldl removeEdge m₁ with hm₂
  have hr₂ : m₂.edge i = some record := by simpa [removeNode, hn, edge] using hr
  have hwf₁ : m₁.WF := h.foldl_removeEdge _
  rw [hm₂, edge_foldl_removeEdge] at hr₂
  split at hr₂
  · cases hr₂
  next hin =>
  have hr₁ := hr₂
  rw [hm₁, edge_foldl_removeEdge] at hr₁
  split at hr₁
  · cases hr₁
  next hout =>
  refine ⟨hr₁, ?_⟩
  intro hend
  cases d with
  | outgoing => exact hout ((h.mem_iff .outgoing n i).mpr ⟨record, hr₁, hend⟩)
  | incoming => exact hin ((hwf₁.mem_iff .incoming n i).mpr ⟨record, hr₂, hend⟩)

theorem node_removeNode (m : Naive N E) (n i : Nat) :
    (m.removeNode n).node i = if i = n then none else m.node i := by
  unfold Naive.removeNode
  split
  · next hn =>
    simp only [node, nodes_foldl_removeEdge]
    exact join_getElem?_set _ _ _ _ (node_lt hn)
  · next hn =>
    split
    · next hi =>
      subst hi
      simpa using hn
    · rfl

theorem edge_removeNode (h : m.WF) (hn : (m.node n).isSome) (i : Nat) : (m.removeNode n).edge i =
      (m.edge i).bind fun r => if r.source = n ∨ r.target = n then none else some r := by
  have hwf₁ := h.foldl_removeEdge (m.lists .outgoing n)
  simp only [Naive.removeNode, hn, if_true]
  change (List.foldl Naive.removeEdge _ _).edge i = _
  simp only [edge_foldl_removeEdge, hwf₁.mem_iff, h.mem_iff]
  cases hr : m.edge i with
  | none => simp
  | some r =>
    by_cases hs : r.source = n <;> by_cases ht : r.target = n <;>
      simp [EdgeRecord.endpoint, hs, ht]

@[simp] theorem length_nodes_removeNode (m : Naive N E) (n : Nat) :
    (m.removeNode n).nodes.length = m.nodes.length := by
  unfold Naive.removeNode
  split <;> simp

@[simp] theorem length_edges_foldl_removeEdge (m : Naive N E) (l : List Nat) :
    (l.foldl Naive.removeEdge m).edges.length = m.edges.length := by
  induction l generalizing m with
  | nil => rfl
  | cons e l ih => rw [foldl_cons, ih, length_edges_removeEdge]

@[simp] theorem length_edges_removeNode (m : Naive N E) (n : Nat) :
    (m.removeNode n).edges.length = m.edges.length := by
  unfold Naive.removeNode
  split <;> simp

theorem WF.removeNode (h : m.WF) (n : Nat) : (m.removeNode n).WF := by
  by_cases hn : (m.node n).isSome
  · have hwf₂ := (h.foldl_removeEdge (m.lists .outgoing n)).foldl_removeEdge
      (((m.lists .outgoing n).foldl Naive.removeEdge m).lists .incoming n)
    have hedge := edge_removeNode_endpoint h hn
    refine ⟨?_, ?_, ?_⟩
    · simpa [Naive.removeNode, hn, edge] using hwf₂.mem_iff
    · simpa [Naive.removeNode, hn] using hwf₂.nodup
    · intro d i record hr
      obtain ⟨hr', hne⟩ := hedge i record hr d
      have hlive := h.live d i record hr'
      simp only [Naive.removeNode, hn, if_true]
      simp only [node, nodes_foldl_removeEdge]
      rw [join_getElem?_set _ _ _ _ (node_lt hn), if_neg hne]
      exact hlive
  · simpa [Naive.removeNode, hn] using h

/-! ## Adding -/

variable {m' : Naive N E}

/-- What `addNode` does, observation by observation. -/
theorem addNode_spec (happ : m.addNode payload = some m') :
    m'.nodes = m.nodes ++ [some payload] ∧ m'.edges = m.edges ∧ m'.lists = m.lists ∧
      ∀ i, m'.node i = if i = m.nodes.length then some payload else m.node i := by
  unfold Naive.addNode at happ
  split at happ
  · cases happ
    exact ⟨rfl, rfl, rfl, join_getElem?_append _ _⟩
  · cases happ

theorem WF.addNode (h : m.WF) (happ : m.addNode payload = some m') : m'.WF := by
  unfold Naive.addNode at happ
  split at happ
  · cases happ
    refine ⟨h.mem_iff, h.nodup, ?_⟩
    intro d e record hr
    have hlive := h.live d e record hr
    simp only [node, join_getElem?_append]
    split
    · rfl
    · exact hlive
  · cases happ

/-- What `addEdge` does, observation by observation. -/
theorem addEdge_spec {payload : E} (happ : m.addEdge source target payload = some m') :
    (m.node source).isSome ∧ (m.node target).isSome ∧ m'.nodes = m.nodes ∧
      m'.edges = m.edges ++ [some ⟨source, target, payload⟩] ∧
      (∀ i, m'.edge i = if i = m.edges.length then some ⟨source, target, payload⟩ else m.edge i) ∧
      ∀ d n, m'.lists d n = if n = (⟨source, target, payload⟩ : EdgeRecord E).endpoint d
        then m.lists d n ++ [m.edges.length] else m.lists d n := by
  unfold Naive.addEdge at happ
  split at happ
  swap
  · cases happ
  next hpre =>
  cases happ
  refine ⟨hpre.1, hpre.2.1, rfl, rfl, join_getElem?_append _ _, ?_⟩
  intro d n
  cases d with
  | outgoing =>
    change _ = if n = source then _ else _
    simp [Adjacency.edit_apply]
  | incoming =>
    change _ = if n = target then _ else _
    simp [Adjacency.edit_apply]

theorem edges_length_not_mem (h : m.WF) (d : TraversalDirection) (n : Nat) :
    m.edges.length ∉ m.lists d n := by
  intro hmem
  obtain ⟨record, hr, _⟩ := (h.mem_iff d n _).mp hmem
  exact Nat.lt_irrefl _ (edge_lt hr)

theorem WF.addEdge (h : m.WF) {payload : E} (happ : m.addEdge source target payload = some m') : m'.WF := by
  obtain ⟨hs, ht, hnodes, _, hedge, hlists⟩ := addEdge_spec happ
  have hfresh := edges_length_not_mem h
  generalize hrecord : (⟨source, target, payload⟩ : EdgeRecord E) = record at hedge hlists
  refine ⟨?_, ?_, ?_⟩
  · intro d n i
    rw [hedge, hlists]
    by_cases hi : i = m.edges.length
    · subst hi
      by_cases hn : n = record.endpoint d
      · simp [hn]
      · have hn' : ¬ record.endpoint d = n := fun e => hn e.symm
        simp [hn, hn', hfresh]
    · by_cases hn : n = record.endpoint d
      · simp [hn, hi, h.mem_iff]
      · simp [hn, hi, h.mem_iff]
  · intro d n
    rw [hlists]
    split
    · exact nodup_append.mpr ⟨h.nodup d n, nodup_singleton _,
        fun x hx y hy hxy => hfresh d n (mem_singleton.mp hy ▸ hxy ▸ hx)⟩
    · exact h.nodup d n
  · intro d i r hr
    rw [hedge] at hr
    rw [node, hnodes]
    split at hr
    · cases hr
      subst hrecord
      cases d
      · exact hs
      · exact ht
    · exact h.live d i r hr

/-! ## Redirecting -/

theorem redirect_spec (happ : m.redirect e endpoint d = some m') :
    ∃ record, m.edge e = some record ∧ (m.node endpoint).isSome ∧
      (record.endpoint d = endpoint ∧ m' = m ∨ record.endpoint d ≠ endpoint ∧ m'.nodes = m.nodes ∧
        m'.edges = m.edges.set e (some (record.setEndpoint d endpoint)) ∧
        (∀ i, m'.edge i = if i = e then some (record.setEndpoint d endpoint) else m.edge i) ∧
        ∀ d' n, m'.lists d' n = if d' = d ∧ n = endpoint then m.lists d' n ++ [e]
          else if d' = d ∧ n = record.endpoint d then (m.lists d' n).erase e
          else m.lists d' n) := by
  unfold Naive.redirect at happ
  split at happ
  · cases happ
  next record hrecord =>
  split at happ
  swap
  · cases happ
  next hlive =>
  refine ⟨record, hrecord, hlive, ?_⟩
  split at happ
  · next heq => cases happ; exact Or.inl ⟨heq, rfl⟩
  next hne =>
  cases happ
  refine Or.inr ⟨hne, rfl, rfl, fun i => join_getElem?_set _ _ _ _ (edge_lt hrecord), ?_⟩
  intro d' n
  simp only [Adjacency.edit_apply]
  by_cases hc : d' = d ∧ n = endpoint
  · rw [if_pos hc, if_pos hc, if_neg (fun h => hne (h.2.symm.trans hc.2))]
  · rw [if_neg hc, if_neg hc]

theorem WF.redirect (h : m.WF) (happ : m.redirect e endpoint d = some m') : m'.WF := by
  obtain ⟨record, hrecord, hlive, ⟨_, rfl⟩ | ⟨hne, hnodes, _, hedge, hlists⟩⟩ := redirect_spec happ
  · exact h
  have hhas : ∀ d' n, e ∈ m.lists d' n ↔ record.endpoint d' = n := by
    intro d' n
    simp [h.mem_iff, hrecord]
  refine ⟨?_, ?_, ?_⟩
  · intro d' n i
    rw [hedge, hlists]
    by_cases hi : i = e
    · subst hi
      by_cases hd : d' = d
      · subst hd
        by_cases hn : n = endpoint
        · simp [hn]
        · have hn' : ¬ endpoint = n := fun e => hn e.symm
          by_cases hp : n = record.endpoint d'
          · subst hp; simp [hn, hn', (h.nodup d' _).mem_erase_iff]
          · have hp' : ¬ record.endpoint d' = n := fun e => hp e.symm
            simp [hn, hp, hn', hp', hhas]
      · simp [hd, hhas]
    · rw [if_neg hi, ← h.mem_iff]
      split
      · simp [hi]
      · split
        · simp [(h.nodup d' _).mem_erase_iff, hi]
        · rfl
  · intro d' n
    rw [hlists]
    split
    · next hc =>
      obtain ⟨rfl, rfl⟩ := hc
      exact nodup_append.mpr ⟨h.nodup _ _, nodup_singleton _,
        fun x hx y hy hxy => hne ((hhas _ _).mp (mem_singleton.mp hy ▸ hxy ▸ hx))⟩
    · split
      · exact (h.nodup _ _).erase e
      · exact h.nodup _ _
  · intro d' i r hr
    rw [hedge] at hr
    rw [node, hnodes]
    split at hr
    · cases hr
      rw [EdgeRecord.endpoint_setEndpoint]
      split
      · exact hlive
      · exact h.live d' e record hrecord
    · exact h.live d' i r hr

/-! ## Moving a whole list -/

@[simp] theorem setEndpoint_idem (record : EdgeRecord E) (d : TraversalDirection) (n : Nat) :
    (record.setEndpoint d n).setEndpoint d n = record.setEndpoint d n := by
  cases d <;> rfl

theorem edge_setEndpoint (m : Naive N E) (d : TraversalDirection) (n e i : Nat) :
    (m.setEndpoint d n e).edge i =
      if i = e then (m.edge i).map (·.setEndpoint d n) else m.edge i := by
  simp only [edge, setEndpoint, getElem?_modify]
  by_cases h : e = i
  · subst h
    cases m.edges[e]? <;> simp
  · rw [if_neg (fun h' => h h'.symm)]
    cases m.edges[i]? <;> simp [h]

theorem edge_foldl_setEndpoint (m : Naive N E) (d : TraversalDirection) (n : Nat)
    (l : List Nat) (i : Nat) : (l.foldl (setEndpoint · d n) m).edge i =
      if i ∈ l then (m.edge i).map (·.setEndpoint d n) else m.edge i := by
  induction l generalizing m with
  | nil => simp
  | cons e l ih =>
    rw [foldl_cons, ih, edge_setEndpoint]
    by_cases h1 : i ∈ l <;> by_cases h2 : i = e <;> simp [h1, h2, Function.comp_def]

@[simp] theorem nodes_foldl_setEndpoint (m : Naive N E) (d : TraversalDirection) (n : Nat)
    (l : List Nat) : (l.foldl (setEndpoint · d n) m).nodes = m.nodes := by
  induction l generalizing m with
  | nil => rfl
  | cons e l ih => rw [foldl_cons, ih]; rfl

@[simp] theorem lists_foldl_setEndpoint (m : Naive N E) (d : TraversalDirection) (n : Nat)
    (l : List Nat) : (l.foldl (setEndpoint · d n) m).lists = m.lists := by
  induction l generalizing m with
  | nil => rfl
  | cons e l ih => rw [foldl_cons, ih]; rfl

@[simp] theorem length_edges_foldl_setEndpoint (m : Naive N E) (d : TraversalDirection) (n : Nat)
    (l : List Nat) : (l.foldl (setEndpoint · d n) m).edges.length = m.edges.length := by
  induction l generalizing m with
  | nil => rfl
  | cons e l ih => rw [foldl_cons, ih]; simp [setEndpoint]

theorem moveAdjacency_spec (happ : m.moveAdjacency old new d = some m') :
    old ≠ new ∧ old < m.nodes.length ∧ (m.lists d old = [] ∧ m' = m ∨
        m.lists d old ≠ [] ∧ (m.node new).isSome ∧ m'.nodes = m.nodes ∧
        m'.edges.length = m.edges.length ∧ (∀ i, m'.edge i =
          if i ∈ m.lists d old then (m.edge i).map (·.setEndpoint d new) else m.edge i) ∧
        ∀ d' n, m'.lists d' n = if d' = d ∧ n = new then m.lists d' n ++ m.lists d old
          else if d' = d ∧ n = old then [] else m.lists d' n) := by
  unfold Naive.moveAdjacency at happ
  split at happ
  · cases happ
  next hpre =>
  have hne : old ≠ new := fun e => hpre (Or.inl e)
  refine ⟨hne, by omega, ?_⟩
  split at happ
  · next hnil => cases happ; exact Or.inl ⟨hnil, rfl⟩
  next hnil =>
  split at happ
  swap
  · cases happ
  next hlive =>
  cases happ
  refine Or.inr ⟨hnil, hlive, nodes_foldl_setEndpoint _ _ _ _,
    length_edges_foldl_setEndpoint _ _ _ _, edge_foldl_setEndpoint _ _ _ _, ?_⟩
  intro d' n
  simp only [Adjacency.edit_apply, lists_foldl_setEndpoint]
  by_cases hc : d' = d ∧ n = new
  · rw [if_pos hc, if_pos hc, if_neg (fun h => hne (h.2.symm.trans hc.2))]
  · rw [if_neg hc, if_neg hc]

/-- Every edge of `old` becomes an edge of `new`, and nothing else changes. -/
theorem WF.moveAdjacency_edge (h : m.WF) (happ : m.moveAdjacency old new d = some m') :
    m'.nodes = m.nodes ∧ m'.edges.length = m.edges.length ∧ ∀ i, m'.edge i =
      (m.edge i).map fun r => if r.endpoint d = old then r.setEndpoint d new else r := by
  have hmem : ∀ i r, m.edge i = some r → (i ∈ m.lists d old ↔ r.endpoint d = old) := by
    intro i r hr
    simp [h.mem_iff, hr]
  obtain ⟨hne, _, ⟨hnil, rfl⟩ | ⟨_, _, hnodes, hlen, hedge, _⟩⟩ := moveAdjacency_spec happ
  · refine ⟨rfl, rfl, fun i => ?_⟩
    cases hr : m'.edge i with
    | none => rfl
    | some r =>
      have : r.endpoint d ≠ old := fun he => by simpa [hnil] using (hmem i r hr).mpr he
      simp [this]
  · refine ⟨hnodes, hlen, fun i => ?_⟩
    rw [hedge]
    cases hr : m.edge i with
    | none => simp
    | some r =>
      by_cases he : r.endpoint d = old
      · simp [he, (hmem i r hr).mpr he]
      · simp [he, mt (hmem i r hr).mp he]

theorem exists_moveAdjacency (d : TraversalDirection)
    (hne : old ≠ new) (hold : old < m.nodes.length) (hnew : (m.node new).isSome) :
    ∃ m', m.moveAdjacency old new d = some m' := by
  unfold moveAdjacency
  rw [if_neg (by omega)]
  split
  · exact ⟨_, rfl⟩
  · exact ⟨_, rfl⟩

theorem WF.moveAdjacency (h : m.WF) (happ : m.moveAdjacency old new d = some m') : m'.WF := by
  obtain ⟨hne, _, ⟨_, rfl⟩ | ⟨_, hlive, hnodes, _, hedge, hlists⟩⟩ := moveAdjacency_spec happ
  · exact h
  have hnone : ∀ i, m.edge i = none → ∀ d n, i ∉ m.lists d n := by
    intro i hi d n hmem
    obtain ⟨record, hr, _⟩ := (h.mem_iff d n i).mp hmem
    rw [hi] at hr
    cases hr
  refine ⟨?_, ?_, ?_⟩
  · intro d' n i
    rw [hedge, hlists]
    cases hr : m.edge i with
    | none =>
      have hno := hnone i hr
      have hleft : ¬ i ∈ (if d' = d ∧ n = new then m.lists d' n ++ m.lists d old
          else if d' = d ∧ n = old then [] else m.lists d' n) := by
        split
        · simp [hno]
        · split <;> simp [hno]
      simp [hleft]
    | some record =>
      have hiff : ∀ d n, i ∈ m.lists d n ↔ record.endpoint d = n := by
        intro d n
        simp [h.mem_iff, hr]
      simp only [hiff, Option.map_some]
      by_cases hd : d' = d
      · subst hd
        by_cases hold : record.endpoint d' = old
        · by_cases hn : n = new
          · subst hn; simp [hold, hiff]
          · have hn' : ¬ new = n := fun e => hn e.symm
            by_cases hno : n = old
            · simp [hno, hold, Ne.symm hne, hne]
            · have : ¬ old = n := fun e => hno e.symm
              simp [hn, hno, hold, hn', hiff, this]
        · by_cases hn : n = new
          · subst hn; simp [hold, hiff]
          · by_cases hno : n = old
            · subst hno; simp [hn, hold]
            · simp [hn, hno, hold, hiff]
      · rw [if_neg (fun hc => hd hc.1), if_neg (fun hc => hd hc.1), hiff]
        split <;> simp [hd]
  · intro d' n
    rw [hlists]
    split
    · next hc =>
      obtain ⟨rfl, rfl⟩ := hc
      refine nodup_append.mpr ⟨h.nodup _ _, h.nodup _ _, ?_⟩
      intro x hx y hy hxy
      subst hxy
      obtain ⟨r, hr, hend⟩ := (h.mem_iff _ _ _).mp hx
      obtain ⟨r', hr', hend'⟩ := (h.mem_iff _ _ _).mp hy
      rw [hr] at hr'
      cases hr'
      exact hne (hend'.symm.trans hend)
    · split
      · exact nodup_nil
      · exact h.nodup _ _
  · intro d' i r hr
    rw [hedge] at hr
    rw [node, hnodes]
    split at hr
    · obtain ⟨r₀, hr₀, rfl⟩ := Option.map_eq_some_iff.mp hr
      rw [EdgeRecord.endpoint_setEndpoint]
      split
      · exact hlive
      · exact h.live d' i r₀ hr₀
    · exact h.live d' i r hr

/-! ## Renumbering -/

theorem occupied_lt {slots : List (Option α)} {i : Nat} (h : occupied slots i = true) : i < slots.length := by
  by_contra hc
  rw [occupied, getElem?_eq_none (by omega)] at h
  simp at h

theorem occupied_edges (m : Naive N E) (e : Nat) : occupied m.edges e = (m.edge e).isSome := rfl

theorem node_compact_rank (h : (m.node n).isSome) :
    m.compact.node (rank (occupied m.nodes) n) = m.node n := by
  have hs := getElem?_select_rank (p := occupied m.nodes) (node_lt h) h
  rw [node, compact, getElem?_map, hs]
  rfl

theorem edge_compact {k : Nat} : m.compact.edge k = some record ↔
      ∃ e r, m.edge e = some r ∧ rank (occupied m.edges) e = k ∧ record = { r with
          source := rank (occupied m.nodes) r.source
          target := rank (occupied m.nodes) r.target } := by
  simp only [compact, edge, getElem?_map]
  constructor
  · intro h
    cases hs : (select (occupied m.edges) m.edges.length)[k]? with
    | none => simp [hs] at h
    | some e =>
      obtain ⟨_, _, hk⟩ := getElem?_select.mp hs
      simp only [hs, Option.map_some, Option.join_some] at h
      obtain ⟨r, hr, hrec⟩ := Option.map_eq_some_iff.mp h
      exact ⟨e, r, hr, hk, hrec.symm⟩
  · rintro ⟨e, r, hr, hk, rfl⟩
    have hocc : occupied m.edges e = true := by
      rw [occupied, hr]
      rfl
    have hs := getElem?_select.mpr ⟨occupied_lt hocc, hocc, hk⟩
    simp [hs, hr]

theorem endpoint_renumbered (r : EdgeRecord E) (f : Nat → Nat) (d : TraversalDirection) :
    ({ r with source := f r.source, target := f r.target } : EdgeRecord E).endpoint d =
      f (r.endpoint d) := by
  cases d <;> rfl

theorem WF.compact (h : m.WF) : m.compact.WF := by
  refine ⟨?_, ?_, ?_⟩
  · intro d n k
    simp only [edge_compact]
    constructor
    · intro hk
      simp only [Naive.compact] at hk
      split at hk
      · simp at hk
      next old hold =>
      obtain ⟨_, _, hn⟩ := getElem?_select.mp hold
      obtain ⟨e, he, rfl⟩ := mem_map.mp hk
      obtain ⟨r, hr, hend⟩ := (h.mem_iff d old e).mp he
      refine ⟨_, ⟨e, r, hr, rfl, rfl⟩, ?_⟩
      rw [endpoint_renumbered, hend, hn]
    · rintro ⟨_, ⟨e, r, hr, rfl, rfl⟩, hend⟩
      rw [endpoint_renumbered] at hend
      have hlive := h.live d e r hr
      have hs : (select (occupied m.nodes) m.nodes.length)[n]? = some (r.endpoint d) :=
        getElem?_select.mpr ⟨node_lt hlive, hlive, hend⟩
      simp only [Naive.compact, hs]
      exact mem_map.mpr ⟨e, (h.mem_iff _ _ _).mpr ⟨r, hr, rfl⟩, rfl⟩
  · intro d n
    simp only [Naive.compact]
    split
    · exact nodup_nil
    next old _ =>
    apply (h.nodup d old).map_on
    intro x hx y hy hxy
    obtain ⟨r, hr, _⟩ := (h.mem_iff d old x).mp hx
    obtain ⟨r', hr', _⟩ := (h.mem_iff d old y).mp hy
    exact rank_inj (by rw [occupied_edges, hr]; rfl) (by rw [occupied_edges, hr']; rfl) hxy
  · intro d k record hrec
    obtain ⟨e, r, hr, _, rfl⟩ := edge_compact.mp hrec
    have hlive := h.live d e r hr
    rw [endpoint_renumbered, node_compact_rank hlive]
    exact hlive

/-! ## Every run -/

theorem wf_empty : (empty : Naive N E).WF :=
  ⟨by simp [empty, edge], by simp [empty], by simp [empty, edge]⟩

/-- A graph given by its nodes and its edges in identity order. -/
def ofParts (nodes : List N) (edges : List (EdgeRecord E)) : Naive N E :=
  edges.foldl (fun m record => (m.addEdge record.source record.target record.payload).getD m)
    (nodes.foldl (fun m payload => (m.addNode payload).getD m) empty)

theorem wf_ofParts (nodes : List N) (edges : List (EdgeRecord E)) : (ofParts nodes edges).WF := by
  refine List.foldlRecOn (motive := WF) edges _ (List.foldlRecOn (motive := WF) nodes _ wf_empty ?_) ?_
  · intro m h payload _
    cases hm : m.addNode payload with
    | none => exact h
    | some m' => exact h.addNode hm
  · intro m h record _
    cases hm : m.addEdge record.source record.target record.payload with
    | none => exact h
    | some m' => exact h.addEdge hm

end Naive

end CfgLib.Store
