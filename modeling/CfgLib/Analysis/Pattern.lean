import CfgLib.Graph.View
import CfgLib.Lib.Links

/-!
# Patterns

`analysis/pattern.rs`: diamonds, self-loops and chains of a graph view.  Chains are looked
for from every node with one edge in and one edge out: a backward walk finds the start, and
a forward walk collects the nodes.
-/

namespace CfgLib

open CfgLib.Lib List Function

inductive CfgPattern where
  | diamond (entry : Nat) (arms : Nat × Nat) (merge : Nat)
  | chain (blocks : List Nat)
  | selfLoop (block : Nat)
  deriving DecidableEq, Repr

namespace Pattern

/-- The only item of a list, or `none` when it has none or several. -/
def sole {α : Type} : List α → Option α
  | [item] => some item
  | _ => none

def nodePatterns (g : GraphView) (bid : Nat) : List CfgPattern :=
  (if bid ∈ g.successors bid then [.selfLoop bid] else []) ++
    match g.successors bid with
    | [a, b] =>
      match sole (g.successors a) with
      | some merge =>
        if a ≠ b ∧ sole (g.successors b) = some merge ∧ merge ∉ [bid, a, b] then [.diamond bid (a, b) merge] else []
      | none => []
    | _ => []

/-- Go back over unique predecessors.  The number of the search marks what it passed, also
the node it refuses. -/
def walkBack (g : GraphView) (search : Nat) : Nat → (Nat → Nat) → Nat → Option ((Nat → Nat) × Nat)
  | 0, _, _ => none
  | fuel + 1, walked, start =>
    match sole (g.predecessors start) with
    | none => some (walked, start)
    | some pred =>
      if walked pred ≠ search ∧ (sole (g.successors pred)).isSome then
        walkBack g search fuel (update walked pred search) pred
      else some (update walked pred search, start)

/-- Collect the nodes that follow one another. -/
def walkForward (g : GraphView) : Nat → (Nat → Bool) → List Nat → Nat → Option ((Nat → Bool) × List Nat)
  | 0, _, _, _ => none
  | fuel + 1, visited, chain, cur =>
    match sole (g.successors cur) with
    | none => some (visited, chain)
    | some next =>
      if next ≠ cur ∧ visited next = false ∧ (sole (g.predecessors next)).isSome then
        walkForward g fuel (update visited next true) (chain ++ [next]) next
      else some (visited, chain)

/-- The marks of both walks, the number of the last backward walk, and the patterns found. -/
structure ChainSearch where
  visited : Nat → Bool
  walked : Nat → Nat
  search : Nat
  patterns : List CfgPattern

/-- Look for the chain of a node with one edge in and one edge out. -/
def considerNode (g : GraphView) (fuel : Nat) (s : ChainSearch) (bid : Nat) : Option ChainSearch :=
  if s.visited bid ∨ (sole (g.predecessors bid)).isNone ∨ (sole (g.successors bid)).isNone then some s
  else
    (walkBack g (s.search + 1) fuel (update s.walked bid (s.search + 1)) bid).bind fun (walked, start) =>
      (walkForward g fuel (update s.visited start true) [start] start).map fun (visited, chain) =>
        ⟨visited, walked, s.search + 1, if 2 ≤ chain.length then s.patterns ++ [.chain chain] else s.patterns⟩

def detectPatterns (g : GraphView) (fuel : Nat) : Option (List CfgPattern) :=
  (g.nodeIds.foldlM (considerNode g fuel)
    ⟨fun _ => false, fun _ => 0, 0, g.nodeIds.flatMap (nodePatterns g)⟩).map ChainSearch.patterns

/-! ## Links -/

/-- The only edge out of `u` is the only edge into another node `v`. -/
def Link (g : GraphView) (u v : Nat) : Prop :=
  u ∈ g.nodeIds ∧ g.successors u = [v] ∧ (g.predecessors v).length = 1 ∧ u ≠ v

/-- A node with one edge in and one edge out. -/
def Plain (g : GraphView) (n : Nat) : Prop := (g.predecessors n).length = 1 ∧ (g.successors n).length = 1

/-- A path or cycle of links of at least two nodes that no link extends, through a node
with one edge in and one edge out. -/
structure MaximalChain (g : GraphView) (c : List Nat) : Prop where
  whole : Whole (Link g) c
  long : 2 ≤ c.length
  plain : ∃ n ∈ c, Plain g n

variable {c : List Nat} {α : Type} {l : List α}

theorem sole_eq_some {a : α} : sole l = some a ↔ l = [a] := by
  cases l with
  | nil => simp [sole]
  | cons b l =>
    cases l with
    | nil => simp [sole]
    | cons c l => simp [sole]

theorem isSome_sole : (sole l).isSome ↔ l.length = 1 := by
  rw [Option.isSome_iff_exists, length_eq_one_iff]
  simp only [sole_eq_some]

variable {g : GraphView} {u v : Nat}

theorem Link.pred (h : g.Lawful) (hlink : Link g u v) : g.predecessors v = [u] := by
  obtain ⟨hu, hsucc, hone, _⟩ := hlink
  have hmem : v ∈ g.successors u := by
    rw [hsucc]
    exact mem_singleton_self v
  have hult := h.nodeIds_lt u hu
  have hpred := (h.mem_predecessors (h.successors_lt u v hult hmem)).mpr ⟨hult, hmem⟩
  obtain ⟨p, hp⟩ := length_eq_one_iff.mp hone
  rw [hp] at hpred ⊢
  rw [mem_singleton.mp hpred]

theorem Link.target_live (h : g.Lawful) (hlink : Link g u v) : v ∈ g.nodeIds := by
  apply h.successors_live u hlink.1
  rw [hlink.2.1]
  exact mem_singleton_self v

theorem link_of_pred (h : g.Lawful) (hv : v ∈ g.nodeIds) (hpred : g.predecessors v = [u])
    (hone : (g.successors u).length = 1) (hne : u ≠ v) : Link g u v := by
  have hmem : u ∈ g.predecessors v := by
    rw [hpred]
    exact mem_singleton_self u
  have hsucc := ((h.mem_predecessors (h.nodeIds_lt v hv)).mp hmem).2
  obtain ⟨w, hw⟩ := length_eq_one_iff.mp hone
  rw [hw, mem_singleton] at hsucc
  exact ⟨h.predecessors_live v hv u hmem, hsucc ▸ hw, by rw [hpred]; rfl, hne⟩

theorem oneToOneLinks (h : g.Lawful) : OneToOneLinks (Link g) where
  out hb hc := singleton_inj.mp (hb.2.1.symm.trans hc.2.1)
  into ha hb := singleton_inj.mp ((ha.pred h).symm.trans (hb.pred h))

theorem live_of_isChain (h : g.Lawful) (hchain : c.IsChain (Link g)) (hlong : 2 ≤ c.length) :
    ∀ n ∈ c, n ∈ g.nodeIds := by
  intro n hn
  obtain ⟨s, t, rfl⟩ := append_of_mem hn
  cases t with
  | cons m t => exact (isChain_cut hchain).1
  | nil =>
    rcases eq_nil_or_concat s with rfl | ⟨s, p, rfl⟩
    · simp at hlong
    · rw [concat_eq_append, append_assoc] at hchain
      exact (isChain_cut hchain).target_live h

theorem length_le_bound (h : g.Lawful) (hnodup : c.Nodup) (hlive : ∀ n ∈ c, n ∈ g.nodeIds) :
    c.length ≤ g.nodeBound := by
  have hsub : c ⊆ List.range g.nodeBound := fun n hn => mem_range.mpr (h.nodeIds_lt n (hlive n hn))
  have hle := (subperm_of_subset hnodup hsub).length_le
  rwa [length_range] at hle

/-! ## The backward walk -/

/-- A backward walk under way: the path from where it stands to the candidate `b`. -/
structure Going (g : GraphView) (search b : Nat) (walked : Nat → Nat) (path : List Nat) : Prop where
  chain : path.IsChain (Link g)
  nodup : path.Nodup
  last : b ∈ path.getLast?
  live : ∀ n ∈ path, n ∈ g.nodeIds
  marked : ∀ n, walked n = search ↔ n ∈ path
  walked_le : ∀ n, walked n ≤ search

theorem update_le {walked : Nat → Nat} {search : Nat} (hle : ∀ n, walked n ≤ search) (pred n : Nat) :
    update walked pred search n ≤ search := by
  by_cases hn : n = pred
  · rw [hn, update_self]
  · rw [update_of_ne hn]
    exact hle n

variable {search b start pred room : Nat} {walked : Nat → Nat} {rest : List Nat}

theorem Going.step (h : g.Lawful) (hgoing : Going g search b walked (start :: rest))
    (hpred : g.predecessors start = [pred]) (hnew : walked pred ≠ search) (hone : (g.successors pred).length = 1) :
    Going g search b (update walked pred search) (pred :: start :: rest) := by
  have hfresh : pred ∉ start :: rest := fun hmem => hnew ((hgoing.marked pred).mpr hmem)
  have hne : pred ≠ start := fun he => hfresh (he ▸ mem_cons_self)
  have hlink : Link g pred start := link_of_pred h (hgoing.live start mem_cons_self) hpred hone hne
  refine ⟨isChain_cons_cons.mpr ⟨hlink, hgoing.chain⟩, nodup_cons.mpr ⟨hfresh, hgoing.nodup⟩, ?_, ?_, ?_,
    update_le hgoing.walked_le pred⟩
  · rw [getLast?_cons_cons]
    exact hgoing.last
  · intro n hn
    rcases mem_cons.mp hn with rfl | hn
    · exact hlink.1
    · exact hgoing.live n hn
  · intro n
    by_cases hn : n = pred
    · rw [hn, update_self]
      exact iff_of_true rfl mem_cons_self
    · rw [update_of_ne hn, mem_cons, hgoing.marked n]
      exact (or_iff_right hn).symm

/-- A node that the walk refuses has no link to where it stands, unless it is the candidate. -/
theorem Going.refused (h : g.Lawful) (hgoing : Going g search b walked (start :: rest))
    (hstop : ¬ (walked pred ≠ search ∧ (g.successors pred).length = 1)) (hlink : Link g pred start) : pred = b := by
  have hseen : walked pred = search := by
    by_contra hne
    exact hstop ⟨hne, by rw [hlink.2.1]; rfl⟩
  have hmem := (hgoing.marked pred).mp hseen
  have hlast := last_of_head (oneToOneLinks h) hgoing.nodup hgoing.chain rfl hmem hlink
  exact Option.mem_unique hlast hgoing.last

/-- Where a backward walk from `b` ends: at the start of a chain to `b`, which no link
enters except one from `b` itself. -/
structure StartsChain (g : GraphView) (search b : Nat) (walked : Nat → Nat) (path : List Nat) (start : Nat) : Prop where
  head : start ∈ path.head?
  chain : path.IsChain (Link g)
  last : b ∈ path.getLast?
  live : start ∈ g.nodeIds
  entered : ∀ p, Link g p start → p = b
  walked_le : ∀ n, walked n ≤ search

theorem walkBack_spec (h : g.Lawful) (hgoing : Going g search b walked (start :: rest))
    (hroom : g.nodeBound ≤ room + rest.length) : ∃ walked' start' path,
      (∀ fuel, room < fuel → walkBack g search fuel walked start = some (walked', start')) ∧
      StartsChain g search b walked' path start' := by
  induction room generalizing walked start rest with
  | zero =>
    have hle := length_le_bound h hgoing.nodup hgoing.live
    rw [length_cons] at hle
    omega
  | succ room ih =>
    have hstart := hgoing.live start mem_cons_self
    cases hsole : sole (g.predecessors start) with
    | none =>
      refine ⟨walked, start, start :: rest, fun fuel hfuel => ?_, rfl, hgoing.chain, hgoing.last, hstart, ?_,
        hgoing.walked_le⟩
      · obtain ⟨fuel, rfl⟩ := Nat.exists_eq_add_of_lt hfuel
        simp only [walkBack, hsole]
      · intro p hlink
        rw [sole_eq_some.mpr (hlink.pred h)] at hsole
        cases hsole
    | some pred =>
      have hpred := sole_eq_some.mp hsole
      by_cases hgo : walked pred ≠ search ∧ (g.successors pred).length = 1
      · obtain ⟨walked', start', path, hrun, hstarts⟩ :=
          ih (hgoing.step h hpred hgo.1 hgo.2) (by rw [length_cons]; omega)
        refine ⟨walked', start', path, fun fuel hfuel => ?_, hstarts⟩
        obtain ⟨fuel, rfl⟩ : ∃ k, fuel = k + 1 := ⟨fuel - 1, by omega⟩
        simp only [walkBack, hsole, isSome_sole, if_pos hgo]
        exact hrun fuel (by omega)
      · refine ⟨update walked pred search, start, start :: rest, fun fuel hfuel => ?_, rfl, hgoing.chain,
          hgoing.last, hstart, fun p hlink => ?_, update_le hgoing.walked_le pred⟩
        · obtain ⟨fuel, rfl⟩ : ∃ k, fuel = k + 1 := ⟨fuel - 1, by omega⟩
          simp only [walkBack, hsole, isSome_sole, if_neg hgo]
        · obtain rfl : p = pred := by
            have hp := hlink.pred h
            rw [hpred] at hp
            exact (singleton_inj.mp hp).symm
          exact hgoing.refused h hgo hlink

/-! ## The forward walk -/

/-- A forward walk under way: the nodes collected from `start` to `cur`, none of which had
been visited before. -/
structure Collecting (g : GraphView) (before : Nat → Bool) (start cur : Nat) (visited : Nat → Bool)
    (chain : List Nat) : Prop where
  links : chain.IsChain (Link g)
  nodup : chain.Nodup
  head : start ∈ chain.head?
  last : cur ∈ chain.getLast?
  live : ∀ n ∈ chain, n ∈ g.nodeIds
  marked : ∀ n, visited n = true ↔ before n = true ∨ n ∈ chain
  fresh : ∀ n ∈ chain, before n = false

variable {before visited : Nat → Bool} {cur next : Nat} {chain : List Nat}

theorem collecting_start (hlive : start ∈ g.nodeIds) (hfresh : before start = false) :
    Collecting g before start start (update before start true) [start] where
  links := isChain_singleton start
  nodup := nodup_singleton start
  head := rfl
  last := rfl
  live n hn := mem_singleton.mp hn ▸ hlive
  marked n := by
    by_cases hn : n = start
    · rw [hn, update_self]
      exact iff_of_true rfl (Or.inr (mem_singleton_self start))
    · rw [update_of_ne hn, mem_singleton]
      exact (or_iff_left hn).symm
  fresh n hn := mem_singleton.mp hn ▸ hfresh

theorem Collecting.step (h : g.Lawful) (hc : Collecting g before start cur visited chain) (hlink : Link g cur next)
    (hnew : visited next = false) :
    Collecting g before start next (update visited next true) (chain ++ [next]) := by
  have hout : ¬ (before next = true ∨ next ∈ chain) := by
    rw [← hc.marked next, hnew]
    exact Bool.false_ne_true
  refine ⟨?_, ?_, ?_, ?_, ?_, ?_, ?_⟩
  · refine isChain_append.mpr ⟨hc.links, isChain_singleton next, fun x hx y hy => ?_⟩
    obtain rfl : next = y := by simpa using hy
    rw [Option.mem_unique hx hc.last]
    exact hlink
  · refine nodup_append.mpr ⟨hc.nodup, nodup_singleton next, fun a ha y hy => ?_⟩
    rw [mem_singleton.mp hy]
    intro he
    exact hout (Or.inr (he ▸ ha))
  · have hhead := hc.head
    cases chain with
    | nil => cases hhead
    | cons a chain => exact hhead
  · simp
  · intro n hn
    rcases mem_append.mp hn with hn | hn
    · exact hc.live n hn
    · rw [mem_singleton.mp hn]
      exact hlink.target_live h
  · intro n
    by_cases hn : n = next
    · rw [hn, update_self]
      exact iff_of_true rfl (Or.inr (mem_append_right chain (mem_singleton_self next)))
    · rw [update_of_ne hn, hc.marked n, mem_append, mem_singleton, or_iff_left hn]
  · intro n hn
    rcases mem_append.mp hn with hn | hn
    · exact hc.fresh n hn
    · rw [mem_singleton.mp hn]
      exact Bool.eq_false_iff.mpr fun hb => hout (Or.inl hb)

/-- Where the walk stops, a link leads back into the chain. -/
theorem Collecting.stopped (hc : Collecting g before start cur visited chain)
    (hclosed : ∀ u v, Link g u v → before v = true → before u = true)
    (hstop : ¬ (next ≠ cur ∧ visited next = false ∧ (g.predecessors next).length = 1)) (hlink : Link g cur next) :
    next ∈ chain := by
  have hseen : visited next = true := by
    by_contra hne
    exact hstop ⟨hlink.2.2.2.symm, Bool.eq_false_iff.mpr hne, hlink.2.2.1⟩
  rcases (hc.marked next).mp hseen with hb | hmem
  · have hcur := hclosed cur next hlink hb
    rw [hc.fresh cur (mem_of_mem_getLast? hc.last)] at hcur
    cases hcur
  · exact hmem

theorem walkForward_spec (h : g.Lawful) (hclosed : ∀ u v, Link g u v → before v = true → before u = true)
    (hc : Collecting g before start cur visited chain) (hroom : g.nodeBound < room + chain.length) :
    ∃ visited' chain' cur', (∀ fuel, room < fuel → walkForward g fuel visited chain cur = some (visited', chain')) ∧
      Collecting g before start cur' visited' chain' ∧ ∀ m, Link g cur' m → m ∈ chain' := by
  induction room generalizing visited chain cur with
  | zero =>
    have hle := length_le_bound h hc.nodup hc.live
    omega
  | succ room ih =>
    cases hsole : sole (g.successors cur) with
    | none =>
      refine ⟨visited, chain, cur, fun fuel hfuel => ?_, hc, fun m hlink => ?_⟩
      · obtain ⟨fuel, rfl⟩ : ∃ k, fuel = k + 1 := ⟨fuel - 1, by omega⟩
        simp only [walkForward, hsole]
      · rw [sole_eq_some.mpr hlink.2.1] at hsole
        cases hsole
    | some next =>
      have hsucc := sole_eq_some.mp hsole
      by_cases hgo : next ≠ cur ∧ visited next = false ∧ (g.predecessors next).length = 1
      · have hlink : Link g cur next :=
          ⟨hc.live cur (mem_of_mem_getLast? hc.last), hsucc, hgo.2.2, hgo.1.symm⟩
        obtain ⟨visited', chain', cur', hrun, hdone⟩ :=
          ih (hc.step h hlink hgo.2.1) (by rw [length_append, length_singleton]; omega)
        refine ⟨visited', chain', cur', fun fuel hfuel => ?_, hdone⟩
        obtain ⟨fuel, rfl⟩ : ∃ k, fuel = k + 1 := ⟨fuel - 1, by omega⟩
        simp only [walkForward, hsole, isSome_sole, if_pos hgo]
        exact hrun fuel (by omega)
      · refine ⟨visited, chain, cur, fun fuel hfuel => ?_, hc, fun m hlink => ?_⟩
        · obtain ⟨fuel, rfl⟩ : ∃ k, fuel = k + 1 := ⟨fuel - 1, by omega⟩
          simp only [walkForward, hsole, isSome_sole, if_neg hgo]
        · have hm := hlink.2.1
          rw [hsucc] at hm
          obtain rfl := singleton_inj.mp hm
          exact hc.stopped hclosed hgo hlink

theorem whole_of_walks (h : g.Lawful) {path : List Nat} (hback : StartsChain g search b walked path start)
    (hc : Collecting g before start cur visited chain) (hend : ∀ m, Link g cur m → m ∈ chain) :
    Whole (Link g) chain ∧ b ∈ chain := by
  have hL := oneToOneLinks h
  have hsucc : ∀ x y, Link g x y → x ∈ chain → y ∈ chain := by
    intro x y hlink hx
    rcases succ_mem_of_chain hL hc.links hx hlink with hlast | hy
    · rw [Option.mem_unique hlast hc.last] at hlink
      exact hend y hlink
    · exact hy
  have hb : b ∈ chain := by
    apply List.IsChain.induction (· ∈ chain) path hback.chain (fun x y hlink hx => hsucc x y hlink hx) _ b
      (mem_of_mem_getLast? hback.last)
    intro hne
    have hhead := Option.mem_unique (head?_eq_some_head hne) hback.head
    rw [hhead]
    exact mem_of_mem_head? hc.head
  refine ⟨⟨hc.nodup, hc.links, fun x hx m hlink => ?_, fun y hy p hlink => ?_⟩, hb⟩
  · obtain rfl := Option.mem_unique hx hc.last
    exact head_of_last hL hc.nodup hc.links hx (hend m hlink) hlink
  · obtain rfl := Option.mem_unique hy hc.head
    obtain rfl := hback.entered p hlink
    exact last_of_head hL hc.nodup hc.links hy hb hlink

/-! ## The search -/

/-- The nodes of `done` have been considered: the chains found, single nodes included, are whole
and disjoint, and their nodes are the visited ones. -/
structure Chained (g : GraphView) (found : List CfgPattern) (done : List Nat) (all : List (List Nat))
    (s : ChainSearch) : Prop where
  whole : ∀ c ∈ all, Whole (Link g) c
  plain : ∀ c ∈ all, ∃ n ∈ c, Plain g n
  disjoint : all.Pairwise List.Disjoint
  marked : ∀ n, s.visited n = true ↔ ∃ c ∈ all, n ∈ c
  walked_le : ∀ n, s.walked n ≤ s.search
  covered : ∀ n ∈ done, Plain g n → s.visited n = true
  patterns : s.patterns = found ++ (all.filter (2 ≤ ·.length)).map .chain

variable {found : List CfgPattern} {done : List Nat} {all : List (List Nat)} {s : ChainSearch}

theorem considered_iff : (s.visited b ∨ (sole (g.predecessors b)).isNone ∨ (sole (g.successors b)).isNone) ↔
    (Plain g b → s.visited b = true) := by
  rw [Plain, ← isSome_sole, ← isSome_sole, ← Option.not_isSome, ← Option.not_isSome]
  grind

theorem Chained.skip (hs : Chained g found done all s) (hb : Plain g b → s.visited b = true) :
    Chained g found (done ++ [b]) all s := by
  refine ⟨hs.whole, hs.plain, hs.disjoint, hs.marked, hs.walked_le, fun n hn hplain => ?_, hs.patterns⟩
  rcases mem_append.mp hn with hn | hn
  · exact hs.covered n hn hplain
  · rw [mem_singleton.mp hn] at hplain ⊢
    exact hb hplain

/-- The nodes visited so far are closed under links, in both directions. -/
theorem Chained.closed (h : g.Lawful) (hs : Chained g found done all s) (hlink : Link g u v) :
    s.visited u = true ↔ s.visited v = true := by
  rw [hs.marked, hs.marked]
  constructor
  · intro ⟨c, hc, hu⟩
    exact ⟨c, hc, (hs.whole c hc).succ_mem (oneToOneLinks h) hu hlink⟩
  · intro ⟨c, hc, hv⟩
    exact ⟨c, hc, (hs.whole c hc).pred_mem (oneToOneLinks h) hv hlink⟩

theorem Chained.add (hs : Chained g found done all s) (hplain : Plain g b) (hb : b ∈ chain)
    (hwhole : Whole (Link g) chain) (hc : Collecting g s.visited start cur visited chain)
    (hwalked : ∀ n, walked n ≤ s.search + 1) :
    Chained g found (done ++ [b]) (all ++ [chain]) ⟨visited, walked, s.search + 1,
      if 2 ≤ chain.length then s.patterns ++ [.chain chain] else s.patterns⟩ := by
  refine ⟨?_, ?_, ?_, ?_, hwalked, ?_, ?_⟩
  · exact forall_mem_append.mpr ⟨hs.whole, forall_mem_singleton.mpr hwhole⟩
  · exact forall_mem_append.mpr ⟨hs.plain, forall_mem_singleton.mpr ⟨b, hb, hplain⟩⟩
  · refine pairwise_append.mpr ⟨hs.disjoint, pairwise_singleton _ chain, fun c hcall d hd n hn hnd => ?_⟩
    rw [mem_singleton.mp hd] at hnd
    have hseen := (hs.marked n).mpr ⟨c, hcall, hn⟩
    rw [hc.fresh n hnd] at hseen
    cases hseen
  · intro n
    rw [hc.marked n, hs.marked n]
    simp only [mem_append, mem_singleton, or_and_right, exists_or, exists_eq_left]
  · intro n hn hplain
    apply (hc.marked n).mpr
    rcases mem_append.mp hn with hn | hn
    · exact Or.inl (hs.covered n hn hplain)
    · rw [mem_singleton.mp hn]
      exact Or.inr hb
  · by_cases hlong : 2 ≤ chain.length
    · simp [hlong, hs.patterns]
    · simp [hlong, hs.patterns]

theorem considerNode_spec (h : g.Lawful) (hs : Chained g found done all s) (hb : b ∈ g.nodeIds) :
    ∃ all' s', (∀ fuel, g.nodeBound < fuel → considerNode g fuel s b = some s') ∧
      Chained g found (done ++ [b]) all' s' := by
  by_cases hskip : Plain g b → s.visited b = true
  · exact ⟨all, s, fun fuel _ => if_pos (considered_iff.mpr hskip), hs.skip hskip⟩
  · obtain ⟨hplain, hfresh⟩ := Classical.not_imp.mp hskip
    have hgoing : Going g (s.search + 1) b (update s.walked b (s.search + 1)) [b] := by
      refine ⟨isChain_singleton b, nodup_singleton b, rfl, ?_, fun n => ?_, ?_⟩
      · exact forall_mem_singleton.mpr hb
      · by_cases hn : n = b
        · rw [hn, update_self]
          exact iff_of_true rfl (mem_singleton_self b)
        · rw [update_of_ne hn, mem_singleton]
          have := hs.walked_le n
          exact iff_of_false (by omega) hn
      · exact update_le (fun n => Nat.le_succ_of_le (hs.walked_le n)) b
    obtain ⟨walked, start, path, hback, hstarts⟩ := walkBack_spec h hgoing (Nat.le_refl g.nodeBound)
    -- no earlier chain holds the start, for the links from it to the candidate stay inside a chain
    have hnew : s.visited start = false := by
      rw [Bool.eq_false_iff]
      intro hseen
      apply hfresh
      apply List.IsChain.induction (fun n => s.visited n = true) path hstarts.chain
        (fun u v hlink hu => (hs.closed h hlink).mp hu) _ b (mem_of_mem_getLast? hstarts.last)
      intro hne
      have hhead := Option.mem_unique (head?_eq_some_head hne) hstarts.head
      rw [hhead]
      exact hseen
    obtain ⟨visited, chain, cur, hforward, hc, hend⟩ := walkForward_spec h
      (fun u v hlink hv => (hs.closed h hlink).mpr hv) (collecting_start hstarts.live hnew)
      (Nat.lt_succ_self g.nodeBound)
    obtain ⟨hwhole, hmem⟩ := whole_of_walks h hstarts hc hend
    refine ⟨_, _, fun fuel hfuel => ?_, hs.add hplain hmem hwhole hc hstarts.walked_le⟩
    simp only [considerNode, if_neg (mt considered_iff.mp hskip), hback fuel hfuel, Option.bind_some,
      hforward fuel hfuel, Option.map_some]

theorem chained_foldlM (h : g.Lawful) : ∀ (rest : List Nat) {done : List Nat} {all : List (List Nat)} {s : ChainSearch},
    Chained g found done all s → (∀ n ∈ rest, n ∈ g.nodeIds) →
    ∃ all' s', (∀ fuel, g.nodeBound < fuel → rest.foldlM (considerNode g fuel) s = some s') ∧
      Chained g found (done ++ rest) all' s'
  | [], done, all, s, hs, _ => ⟨all, s, fun _ _ => rfl, by rwa [append_nil]⟩
  | b :: rest, done, all, s, hs, hlive => by
    obtain ⟨hb, hrest⟩ := forall_mem_cons.mp hlive
    obtain ⟨all', s', hstep, hs'⟩ := considerNode_spec h hs hb
    obtain ⟨all'', s'', hrun, hs''⟩ := chained_foldlM h rest hs' hrest
    refine ⟨all'', s'', fun fuel hfuel => ?_, ?_⟩
    · rw [foldlM_cons, hstep fuel hfuel]
      exact hrun fuel hfuel
    · rwa [append_assoc] at hs''

/-! ## The chains reported -/

def chainBlocks : CfgPattern → Option (List Nat)
  | .chain blocks => some blocks
  | _ => none

def chains (patterns : List CfgPattern) : List (List Nat) := patterns.filterMap chainBlocks

theorem chainBlocks_of_mem_nodePatterns {n : Nat} {p : CfgPattern} (hp : p ∈ nodePatterns g n) : chainBlocks p = none := by
  rcases mem_append.mp hp with hp | hp
  · split at hp
    · rw [mem_singleton.mp hp]
      rfl
    · cases hp
  · split at hp
    · split at hp
      · split at hp
        · rw [mem_singleton.mp hp]
          rfl
        · cases hp
      · cases hp
    · cases hp

theorem chains_append_map (nodes : List Nat) (l : List (List Nat)) :
    chains (nodes.flatMap (nodePatterns g) ++ l.map .chain) = l := by
  have hnone : chains (nodes.flatMap (nodePatterns g)) = [] := by
    refine filterMap_eq_nil_iff.mpr fun p hp => ?_
    obtain ⟨n, _, hp⟩ := mem_flatMap.mp hp
    exact chainBlocks_of_mem_nodePatterns hp
  have hall : chains (l.map .chain) = l := by
    rw [chains, filterMap_map]
    exact filterMap_some
  rw [chains, filterMap_append]
  exact (congrArg₂ (· ++ ·) hnone hall).trans (nil_append l)

theorem Chained.maximal (hs : Chained g found done all s) (hc : c ∈ all.filter (2 ≤ ·.length)) :
    MaximalChain g c := by
  obtain ⟨hc, hlong⟩ := mem_filter.mp hc
  exact ⟨hs.whole c hc, of_decide_eq_true hlong, hs.plain c hc⟩

/-- A maximal chain is one of those found once all nodes have been considered. -/
theorem Chained.exists_found (h : g.Lawful) (hs : Chained g found g.nodeIds all s)
    (hc : MaximalChain g c) : ∃ c' ∈ all.filter (2 ≤ ·.length), c' ~r c ∧
      ((∀ y ∈ c.head?, ∀ p, ¬ Link g p y) → c' = c) := by
  obtain ⟨n, hn, hplain⟩ := hc.plain
  have hseen := hs.covered n (live_of_isChain h hc.whole.chain hc.long n hn) hplain
  obtain ⟨c', hc', hn'⟩ := (hs.marked n).mp hseen
  obtain ⟨hrot, hpath⟩ := hc.whole.isRotated (oneToOneLinks h) (hs.whole c' hc') hn hn'
  refine ⟨c', mem_filter.mpr ⟨hc', decide_eq_true ?_⟩, hrot, hpath⟩
  rw [hrot.perm.length_eq]
  exact hc.long

/-- Detection ends, and what it reports as chains are the maximal ones, each once, a cycle from
some node of it. -/
theorem detectPatterns_chains (h : g.Lawful) : ∃ patterns,
    (∀ fuel, g.nodeBound < fuel → detectPatterns g fuel = some patterns) ∧
    (∀ c ∈ chains patterns, MaximalChain g c) ∧ (chains patterns).Pairwise List.Disjoint ∧
    ∀ c, MaximalChain g c → ∃ before c' after, chains patterns = before ++ c' :: after ∧ c' ~r c ∧
      ((∀ y ∈ c.head?, ∀ p, ¬ Link g p y) → c' = c) ∧ ∀ d ∈ before ++ after, d.Disjoint c := by
  have hinit : Chained g (g.nodeIds.flatMap (nodePatterns g)) [] []
      ⟨fun _ => false, fun _ => 0, 0, g.nodeIds.flatMap (nodePatterns g)⟩ := by
    refine ⟨by simp, by simp, List.Pairwise.nil, by simp, fun _ => Nat.le_refl 0, by simp, ?_⟩
    exact (append_nil _).symm
  obtain ⟨all, s, hrun, hs⟩ := chained_foldlM h g.nodeIds hinit fun _ hn => hn
  rw [nil_append] at hs
  have hchains : chains s.patterns = all.filter (2 ≤ ·.length) := by
    rw [hs.patterns, chains_append_map]
  have hdisjoint := hs.disjoint.filter (2 ≤ ·.length)
  refine ⟨s.patterns, fun fuel hfuel => ?_, ?_, ?_, fun c hc => ?_⟩
  · rw [detectPatterns, hrun fuel hfuel]
    rfl
  · rw [hchains]
    exact fun c hc => hs.maximal hc
  · rw [hchains]
    exact hdisjoint
  · obtain ⟨c', hc', hrot, hpath⟩ := hs.exists_found h hc
    obtain ⟨before, after, hsplit⟩ := append_of_mem hc'
    refine ⟨before, c', after, hchains.trans hsplit, hrot, hpath, fun d hd n hnd hnc => ?_⟩
    rw [hsplit] at hdisjoint
    have hothers := (pairwise_middle fun hxy => disjoint_symm hxy).mp hdisjoint
    exact rel_of_pairwise_cons hothers hd (hrot.mem_iff.mpr hnc) hnd

/-- A path into a branch, whose arms rejoin, and a cycle apart. -/
def pathAndCycle : GraphView := GraphView.ofEdges 8 [0, 1, 2, 3, 4, 5, 6, 7]
  [(0, 1), (1, 2), (2, 3), (2, 4), (3, 5), (4, 5), (6, 7), (7, 6)]

theorem detectPatterns_chains_pathAndCycle : ∃ patterns,
    (∀ fuel, pathAndCycle.nodeBound < fuel → detectPatterns pathAndCycle fuel = some patterns) ∧
    (∀ c ∈ chains patterns, MaximalChain pathAndCycle c) ∧ (chains patterns).Pairwise List.Disjoint ∧
    ∀ c, MaximalChain pathAndCycle c → ∃ before c' after, chains patterns = before ++ c' :: after ∧ c' ~r c ∧
      ((∀ y ∈ c.head?, ∀ p, ¬ Link pathAndCycle p y) → c' = c) ∧ ∀ d ∈ before ++ after, d.Disjoint c :=
  detectPatterns_chains (GraphView.lawful_ofEdges (by decide) (by decide) (by decide))

example : detectPatterns pathAndCycle 9 =
    some [.diamond 2 (3, 4) 5, .chain [0, 1, 2], .chain [7, 6]] := by decide

end Pattern

end CfgLib
