import CfgLib.Graph.View
import CfgLib.Store.Liveness
import Mathlib.Data.List.Chain

/-!
# Delta chains

The circular chains of `store/adjacency.rs` that thread the edges appended
since the compressed base was built.  A node's slot names the *last* edge of
its chain and every edge names its successor, so that one link per direction
gives append-order iteration.  `NONE` links are `Option.none` here.

`Ring` says what list of delta positions a chain denotes; `append` extends two
of these lists, `detachNode` empties one, and every other list is unchanged.
-/

namespace CfgLib.Store

open TraversalDirection List

/-- One chain link per direction. -/
structure Links where
  outgoing : Option Nat
  incoming : Option Nat
  deriving DecidableEq, Repr

namespace Links

def get (links : Links) : TraversalDirection → Option Nat
  | .outgoing => links.outgoing
  | .incoming => links.incoming

def set (links : Links) (chain : TraversalDirection) (link : Option Nat) : Links :=
  match chain with
  | .outgoing => { links with outgoing := link }
  | .incoming => { links with incoming := link }

@[simp] theorem get_set (links : Links) (d e : TraversalDirection) (v : Option Nat) :
    (links.set d v).get e = if e = d then v else links.get e := by
  cases d <;> cases e <;> rfl

end Links

/-- A pair of links belonging to no chain. -/
def unlinked : Links := ⟨none, none⟩

@[simp] theorem unlinked_get (d : TraversalDirection) : unlinked.get d = none := by
  cases d <;> rfl

/-- Per-node circular chains threading both directions of the delta. -/
structure DeltaChains where
  last : List Links
  next : List Links
  deriving DecidableEq, Repr

namespace DeltaChains

def new : DeltaChains := ⟨[], []⟩

/-- `last[node][chain]`, absent slots being unlinked. -/
def lastLink (chains : DeltaChains) (node : Nat) (chain : TraversalDirection) : Option Nat :=
  (chains.last[node]?).bind (·.get chain)

def nextLink (chains : DeltaChains) (edge : Nat) (chain : TraversalDirection) : Option Nat :=
  (chains.next[edge]?).bind (·.get chain)

def setLast (chains : DeltaChains) (node : Nat) (chain : TraversalDirection)
    (link : Option Nat) : DeltaChains :=
  { chains with last := chains.last.modify node (·.set chain link) }

def setNext (chains : DeltaChains) (edge : Nat) (chain : TraversalDirection)
    (link : Option Nat) : DeltaChains :=
  { chains with next := chains.next.modify edge (·.set chain link) }

/-- Give every node slot two empty chains. -/
def materialize (chains : DeltaChains) (nodes : Nat) : DeltaChains :=
  { chains with
    last := chains.last ++ List.replicate (nodes - chains.last.length) unlinked }

/-- Splice `appended` in as the last element of one of `node`'s chains. -/
def thread (chains : DeltaChains) (node : Nat) (chain : TraversalDirection)
    (appended : Nat) : DeltaChains :=
  match chains.lastLink node chain with
  | none =>
    (chains.setNext appended chain (some appended)).setLast node chain (some appended)
  | some last =>
    let first := chains.nextLink last chain
    ((chains.setNext last chain (some appended)).setNext appended chain first).setLast
      node chain (some appended)

/-- Append the next delta edge to its source's outgoing chain and to its
target's incoming chain. -/
def append (chains : DeltaChains) (source target nodes : Nat) : DeltaChains :=
  let chains := if chains.last.length < nodes then chains.materialize nodes else chains
  let appended := chains.next.length
  let chains := { chains with next := chains.next ++ [unlinked] }
  (chains.thread source .outgoing appended).thread target .incoming appended

/-- The first and last delta edges of one of `node`'s chains. -/
def ends (chains : DeltaChains) (node : Nat) (chain : TraversalDirection) :
    Option (Option Nat × Option Nat) :=
  match chains.lastLink node chain with
  | none => none
  | some last => some (chains.nextLink last chain, some last)

def detachNode (chains : DeltaChains) (node : Nat) (direction : TraversalDirection) :
    DeltaChains :=
  chains.setLast node direction none

def drainLoop (chains : DeltaChains) (chain : TraversalDirection) (deltaBase : Nat)
    (live : Option LiveSet) (last : Option Nat) : Nat → Option Nat → List Nat → List Nat
  | 0, _, run => run
  | _ + 1, none, run => run
  | fuel + 1, some delta, run =>
    let edge := deltaBase + delta
    let run := if LiveSet.passes live edge then run ++ [edge] else run
    if some delta = last then run
    else drainLoop chains chain deltaBase live last fuel (chains.nextLink delta chain) run

/-- Move one of a node's chains onto the end of `run` in append order and
forget it, dropping the edges `live` rejects. -/
def drainInto (chains : DeltaChains) (node : Nat) (direction : TraversalDirection)
    (deltaBase : Nat) (live : Option LiveSet) (run : List Nat) : DeltaChains × List Nat :=
  match chains.ends node direction with
  | none => (chains, run)
  | some (delta, last) =>
    (chains.detachNode node direction,
      chains.drainLoop direction deltaBase live last chains.next.length delta run)

/-! ## Reads after writes -/

@[simp] theorem nextLink_setLast (c : DeltaChains) (n e : Nat) (d d' : TraversalDirection)
    (v : Option Nat) : (c.setLast n d v).nextLink e d' = c.nextLink e d' := rfl

@[simp] theorem lastLink_setNext (c : DeltaChains) (n e : Nat) (d d' : TraversalDirection)
    (v : Option Nat) : (c.setNext e d v).lastLink n d' = c.lastLink n d' := rfl

theorem lastLink_setLast (c : DeltaChains) (n m : Nat) (d d' : TraversalDirection)
    (v : Option Nat) (hn : n < c.last.length) :
    (c.setLast n d v).lastLink m d' = if m = n ∧ d' = d then v else c.lastLink m d' := by
  simp only [lastLink, setLast, getElem?_modify]
  by_cases hm : m = n
  · subst hm
    simp [getElem?_eq_getElem hn]
  · have hm' : ¬ n = m := fun e => hm e.symm
    simp [hm, hm']

theorem nextLink_setNext (c : DeltaChains) (e f : Nat) (d d' : TraversalDirection)
    (v : Option Nat) (he : e < c.next.length) :
    (c.setNext e d v).nextLink f d' = if f = e ∧ d' = d then v else c.nextLink f d' := by
  simp only [nextLink, setNext, getElem?_modify]
  by_cases hf : f = e
  · subst hf
    simp [getElem?_eq_getElem he]
  · have hf' : ¬ e = f := fun h => hf h.symm
    simp [hf, hf']

@[simp] theorem length_last_setLast (c : DeltaChains) (n : Nat) (d : TraversalDirection)
    (v : Option Nat) : (c.setLast n d v).last.length = c.last.length := by
  simp [setLast]

@[simp] theorem length_next_setLast (c : DeltaChains) (n : Nat) (d : TraversalDirection)
    (v : Option Nat) : (c.setLast n d v).next.length = c.next.length := rfl

@[simp] theorem length_last_setNext (c : DeltaChains) (n : Nat) (d : TraversalDirection)
    (v : Option Nat) : (c.setNext n d v).last.length = c.last.length := rfl

@[simp] theorem length_next_setNext (c : DeltaChains) (n : Nat) (d : TraversalDirection)
    (v : Option Nat) : (c.setNext n d v).next.length = c.next.length := by
  simp [setNext]

@[simp] theorem length_last_thread (c : DeltaChains) (n a : Nat) (d : TraversalDirection) :
    (c.thread n d a).last.length = c.last.length := by
  unfold thread
  split <;> simp

@[simp] theorem length_next_thread (c : DeltaChains) (n a : Nat) (d : TraversalDirection) :
    (c.thread n d a).next.length = c.next.length := by
  unfold thread
  split <;> simp

theorem lastLink_thread (c : DeltaChains) (n m a : Nat) (d e : TraversalDirection)
    (hn : n < c.last.length) :
    (c.thread n d a).lastLink m e = if m = n ∧ e = d then some a else c.lastLink m e := by
  unfold thread
  split <;> exact lastLink_setLast _ _ _ _ _ _ hn

@[simp] theorem length_next_append (c : DeltaChains) (source target nodes : Nat) :
    (c.append source target nodes).next.length = c.next.length + 1 := by
  simp only [append, length_next_thread, length_append, length_singleton]
  split <;> rfl

/-- Splicing writes two links of its own direction: the new last member's, to
the first, and the old last member's, to the new one. -/
theorem nextLink_thread (c : DeltaChains) (n a b : Nat) (d e : TraversalDirection)
    (ha : a < c.next.length) (hlast : ∀ z ∈ c.lastLink n d, z < c.next.length) :
    (c.thread n d a).nextLink b e =
      if b = a ∧ e = d then ((c.lastLink n d).elim (some a) (c.nextLink · d))
      else if c.lastLink n d = some b ∧ e = d then some a else c.nextLink b e := by
  unfold thread
  split
  · next hnone =>
    rw [nextLink_setLast, nextLink_setNext _ _ _ _ _ _ ha, hnone]
    simp
  · next z hsome =>
    have hz := hlast z hsome
    rw [nextLink_setLast, nextLink_setNext _ _ _ _ _ _ (by simpa using ha),
      nextLink_setNext _ _ _ _ _ _ hz, hsome]
    simp [eq_comm]

/-! ## Rings -/

/-- The chain of `node` along `d` denotes the delta positions `l`, in append
order: the slot names the last, every position links to the next, and the last
links back to the first. -/
structure Ring (c : DeltaChains) (node : Nat) (d : TraversalDirection) (l : List Nat) : Prop where
  last : c.lastLink node d = l.getLast?
  first : ∀ a ∈ l.getLast?, c.nextLink a d = l.head?
  steps : l.IsChain (fun a b => c.nextLink a d = some b)
  bound : ∀ a ∈ l, a < c.next.length
  nodup : l.Nodup

variable {c : DeltaChains} {l : List Nat} {n : Nat} {rings : Nat → TraversalDirection → List Nat}
  {d : TraversalDirection}

/-- A ring depends only on its node's slot and its own members' links. -/
theorem Ring.congr {c' : DeltaChains} (h : Ring c n d l) (hlast : c'.lastLink n d = c.lastLink n d)
    (hnext : ∀ a ∈ l, c'.nextLink a d = c.nextLink a d) (hlen : c.next.length ≤ c'.next.length) : Ring c' n d l where
  last := by rw [hlast, h.last]
  first := by
    intro a ha
    rw [hnext a (mem_of_getLast? ha), h.first a ha]
  steps := by
    apply h.steps.imp_of_mem_imp
    intro a b ha _ hab
    rw [hnext a ha, hab]
  bound := fun a ha => Nat.lt_of_lt_of_le (h.bound a ha) hlen
  nodup := h.nodup

theorem ring_nil (h : c.lastLink n d = none) : Ring c n d [] where
  last := by simpa using h
  first := by simp
  steps := isChain_nil
  bound := by simp
  nodup := nodup_nil

theorem Ring.last_lt (h : Ring c n d l) : ∀ z ∈ c.lastLink n d, z < c.next.length := by
  intro z hz
  rw [h.last] at hz
  exact h.bound z (mem_of_getLast? hz)

theorem Ring.thread_self {a : Nat}
    (h : Ring c n d l) (hn : n < c.last.length) (ha : a < c.next.length) (hfresh : a ∉ l) :
    Ring (c.thread n d a) n d (l ++ [a]) := by
  have hnext := fun b => nextLink_thread c n a b d d ha h.last_lt
  simp only [and_true, h.last] at hnext
  refine ⟨?_, ?_, ?_, ?_, ?_⟩
  · rw [lastLink_thread _ _ _ _ _ _ hn]
    simp
  · intro b hb
    obtain rfl : b = a := by simpa using hb.symm
    rw [hnext, if_pos rfl]
    cases hl : l.getLast? with
    | none => simp [getLast?_eq_none_iff.mp hl]
    | some z =>
      have hne : l ≠ [] := by rintro rfl; simp at hl
      rw [Option.elim_some, h.first z hl, head?_append]
      cases l with
      | nil => contradiction
      | cons x l => simp
  · rcases l.eq_nil_or_concat with rfl | ⟨init, z, rfl⟩
    · exact isChain_singleton a
    simp only [concat_eq_append] at h hnext hfresh ⊢
    have hsteps := isChain_append.mp h.steps
    have hz : ∀ x ∈ init, x ≠ z := by
      intro x hx hxz
      have := (nodup_append.mp h.nodup).2.2 x hx z (by simp)
      exact this hxz
    -- only the old last member's link is redirected, and its ring step led back to the front
    have hold : ∀ x ∈ init, (c.thread n d a).nextLink x d = c.nextLink x d := by
      intro x hx
      have hxa : x ≠ a := by rintro rfl; exact hfresh (by simp [hx])
      rw [hnext, if_neg hxa, if_neg (by simpa using fun e => hz x hx e.symm)]
    rw [isChain_append, isChain_append]
    refine ⟨⟨?_, isChain_singleton z, ?_⟩, isChain_singleton a, ?_⟩
    · apply hsteps.1.imp_of_mem_imp
      intro x y hx _ hxy
      rw [hold x hx, hxy]
    · intro x hx y hy
      rw [hold x (mem_of_getLast? hx)]
      exact hsteps.2.2 x hx y hy
    · intro x hx y hy
      obtain rfl : x = z := by simpa using hx.symm
      obtain rfl : y = a := by simpa using hy.symm
      have hxa : x ≠ y := by rintro rfl; exact hfresh (by simp)
      rw [hnext, if_neg hxa, if_pos (by simp)]
  · intro b hb
    rw [length_next_thread]
    rcases mem_append.mp hb with hb | hb
    · exact h.bound b hb
    · rw [mem_singleton.mp hb]; exact ha
  · rw [nodup_append]
    refine ⟨h.nodup, nodup_singleton a, ?_⟩
    intro x hx y hy hxy
    rw [mem_singleton] at hy
    subst hy hxy
    exact hfresh hx

/-- Splicing leaves every ring alone that shares neither slot nor members. -/
theorem Ring.thread_other {m a : Nat} {e : TraversalDirection}
    {k : List Nat} (h : Ring c n d l) (hm : Ring c m e k) (hn : n < c.last.length)
    (ha : a < c.next.length) (hne : ¬(m = n ∧ e = d))
    (hdisj : e = d → a ∉ k ∧ ∀ x ∈ k, x ∉ l) : Ring (c.thread n d a) m e k := by
  apply hm.congr
  · rw [lastLink_thread _ _ _ _ _ _ hn, if_neg hne]
  · intro b hb
    rw [nextLink_thread _ _ _ _ _ _ ha h.last_lt]
    by_cases he : e = d
    · obtain ⟨hak, hkl⟩ := hdisj he
      have hba : b ≠ a := by rintro rfl; exact hak hb
      have hbl : c.lastLink n d ≠ some b := by
        intro hlast
        rw [h.last] at hlast
        exact hkl b hb (mem_of_getLast? hlast)
      rw [if_neg (fun hc => hba hc.1), if_neg (fun hc => hbl hc.1)]
    · rw [if_neg (fun hc => he hc.2), if_neg (fun hc => he hc.2)]
  · simp

/-! ## Whole chains -/

/-- `rings node d` lists every chain of the store, and no two chains of one
direction share a member. -/
structure Rings (c : DeltaChains) (rings : Nat → TraversalDirection → List Nat) : Prop where
  ring : ∀ n d, Ring c n d (rings n d)
  disjoint : ∀ n m d a, a ∈ rings n d → a ∈ rings m d → n = m

theorem Rings.congr {c' : DeltaChains} (h : Rings c rings) (hlast : ∀ n d, c'.lastLink n d = c.lastLink n d)
    (hnext : ∀ a d, a < c.next.length → c'.nextLink a d = c.nextLink a d)
    (hlen : c.next.length ≤ c'.next.length) : Rings c' rings where
  ring := fun n d => (h.ring n d).congr (hlast n d)
    (fun a ha => hnext a d ((h.ring n d).bound a ha)) hlen
  disjoint := h.disjoint

theorem rings_new : Rings new (fun _ _ => []) :=
  ⟨fun _ _ => ring_nil (by simp [new, lastLink]), by simp⟩

theorem lastLink_materialize (c : DeltaChains) (nodes n : Nat) (d : TraversalDirection) :
    (c.materialize nodes).lastLink n d = c.lastLink n d := by
  simp only [lastLink, materialize]
  by_cases h : n < c.last.length
  · rw [getElem?_append_left h]
  · rw [getElem?_append_right (by omega), getElem?_eq_none (by omega : c.last.length ≤ n),
      getElem?_replicate]
    split <;> simp

/-- The rings after appending one position at two chains. -/
def appendRings (rings : Nat → TraversalDirection → List Nat) (source target a : Nat) :
    Nat → TraversalDirection → List Nat
  | n, .outgoing => if n = source then rings n .outgoing ++ [a] else rings n .outgoing
  | n, .incoming => if n = target then rings n .incoming ++ [a] else rings n .incoming

theorem Rings.append (h : Rings c rings) {source target nodes : Nat} (hs : source < nodes) (ht : target < nodes) :
    Rings (c.append source target nodes) (appendRings rings source target c.next.length) := by
  set c₁ := if c.last.length < nodes then c.materialize nodes else c with hc₁
  have hlast₁ : nodes ≤ c₁.last.length := by
    rw [hc₁]
    split
    · simp [materialize]; omega
    · omega
  have hnext₁ : c₁.next = c.next := by
    rw [hc₁]
    split <;> rfl
  set c₂ : DeltaChains := { c₁ with next := c₁.next ++ [unlinked] } with hc₂
  set a := c.next.length with ha
  have hrings : Rings c₂ rings := by
    apply h.congr
    · intro n d
      change c₁.lastLink n d = c.lastLink n d
      rw [hc₁]
      split
      · exact lastLink_materialize c nodes n d
      · rfl
    · intro b d hb
      simp only [nextLink, hc₂, hnext₁, getElem?_append_left hb]
    · simp [hc₂, hnext₁]
  have hfresh : ∀ n d, a ∉ rings n d := fun n d hmem =>
    Nat.lt_irrefl a ((h.ring n d).bound a hmem)
  have ha₂ : a < c₂.next.length := by simp [hc₂, hnext₁, ha]
  have hs₂ : source < c₂.last.length := Nat.lt_of_lt_of_le hs hlast₁
  have happend : c.append source target nodes =
      (c₂.thread source .outgoing a).thread target .incoming a := by
    simp only [DeltaChains.append, ← hc₁, hc₂, hnext₁, ha]
  rw [happend]
  set c₃ := c₂.thread source .outgoing a with hc₃
  have hout : ∀ n, Ring c₃ n .outgoing (appendRings rings source target a n .outgoing) := by
    intro n
    by_cases hn : n = source
    · subst hn
      simpa [appendRings] using (hrings.ring n .outgoing).thread_self hs₂ ha₂ (hfresh _ _)
    · simp only [appendRings, if_neg hn]
      exact (hrings.ring source .outgoing).thread_other (hrings.ring n .outgoing) hs₂ ha₂
        (fun hc => hn hc.1)
        (fun _ => ⟨hfresh _ _, fun x hx hxs => hn (h.disjoint n source _ x hx hxs)⟩)
  have hin : ∀ n, Ring c₃ n .incoming (rings n .incoming) := fun n =>
    (hrings.ring source .outgoing).thread_other (hrings.ring n .incoming) hs₂ ha₂
      (by simp) (by simp)
  have ha₃ : a < c₃.next.length := by simpa [hc₃] using ha₂
  have ht₃ : target < c₃.last.length := by
    simpa [hc₃] using Nat.lt_of_lt_of_le ht hlast₁
  refine ⟨?_, ?_⟩
  · intro n d
    cases d with
    | outgoing =>
      exact (hin target).thread_other (hout n) ht₃ ha₃ (by simp) (by simp)
    | incoming =>
      by_cases hn : n = target
      · subst hn
        simpa [appendRings] using (hin n).thread_self ht₃ ha₃ (hfresh _ _)
      · simp only [appendRings, if_neg hn]
        exact (hin target).thread_other (hin n) ht₃ ha₃ (fun hc => hn hc.1)
          (fun _ => ⟨hfresh _ _, fun x hx hxs => hn (h.disjoint n target _ x hx hxs)⟩)
  · -- the position appended is in no older chain, so it joins only the two
    have hmem : ∀ n d x, x ∈ appendRings rings source target a n d →
        x ∈ rings n d ∨ (x = a ∧ n = (match d with | .outgoing => source | .incoming => target)) := by
      intro n d x hx
      cases d <;> simp only [appendRings] at hx <;> split at hx <;>
        simp_all
    intro n m d x hn hm
    rcases hmem n d x hn with hn | ⟨hxa, hn⟩ <;> rcases hmem m d x hm with hm | ⟨hxa', hm⟩
    · exact h.disjoint n m d x hn hm
    · subst hxa'; exact absurd hn (hfresh _ _)
    · subst hxa; exact absurd hm (hfresh _ _)
    · rw [hn, hm]

def detachRings (rings : Nat → TraversalDirection → List Nat) (node : Nat)
    (direction : TraversalDirection) : Nat → TraversalDirection → List Nat :=
  fun n d => if n = node ∧ d = direction then [] else rings n d

theorem lastLink_detachNode (c : DeltaChains) (node n : Nat) (direction d : TraversalDirection) :
    (c.detachNode node direction).lastLink n d =
      if n = node ∧ d = direction then none else c.lastLink n d := by
  by_cases h : node < c.last.length
  · exact lastLink_setLast _ _ _ _ _ _ h
  · have hsame : c.detachNode node direction = c := by
      simp [detachNode, setLast, modify_eq_self (Nat.le_of_not_lt h)]
    rw [hsame]
    split
    · next hc => rw [hc.1, lastLink, getElem?_eq_none (by omega)]; rfl
    · rfl

theorem Rings.detach (h : Rings c rings) (node : Nat) (direction : TraversalDirection) :
    Rings (c.detachNode node direction) (detachRings rings node direction) := by
  refine ⟨?_, ?_⟩
  · intro n d
    by_cases hn : n = node ∧ d = direction
    · simp only [detachRings, if_pos hn]
      exact ring_nil (by rw [lastLink_detachNode, if_pos hn])
    · simp only [detachRings, if_neg hn]
      apply (h.ring n d).congr
      · rw [lastLink_detachNode, if_neg hn]
      · intro a _; rfl
      · exact Nat.le_refl _
  · intro n m d a hn hm
    simp only [detachRings] at hn hm
    split at hn
    · simp at hn
    · split at hm
      · simp at hm
      · exact h.disjoint n m d a hn hm

/-! ## Walking a chain -/

/-- Following links from `delta` and stopping after `last` visits `l`. -/
def Segment (c : DeltaChains) (d : TraversalDirection) (last : Option Nat) :
    Option Nat → List Nat → Prop
  | delta, [] => delta = none
  | delta, a :: l =>
    delta = some a ∧ Segment c d last (if some a = last then none else c.nextLink a d) l

theorem segment_of_steps (l : List Nat) (hsteps : l.IsChain (fun a b => c.nextLink a d = some b)) (hnodup : l.Nodup) :
    Segment c d l.getLast? l.head? l := by
  induction l with
  | nil => rfl
  | cons a l ih =>
    refine ⟨rfl, ?_⟩
    cases l with
    | nil => simp [Segment]
    | cons b l =>
      have hlast : (a :: b :: l).getLast? = (b :: l).getLast? := getLast?_cons_cons
      have ha : some a ≠ (b :: l).getLast? := by
        intro heq
        have := mem_of_getLast? heq.symm
        exact (nodup_cons.mp hnodup).1 this
      rw [isChain_cons_cons] at hsteps
      rw [hlast, if_neg ha, hsteps.1]
      exact ih hsteps.2 (nodup_cons.mp hnodup).2

theorem Ring.ends (h : Ring c n d l) :
    c.ends n d = if l = [] then none else some (l.head?, l.getLast?) := by
  unfold DeltaChains.ends
  rw [h.last]
  cases hl : l.getLast? with
  | none => simp [getLast?_eq_none_iff.mp hl]
  | some z =>
    have hne : l ≠ [] := by rintro rfl; simp at hl
    simp [hne, h.first z hl]

theorem Ring.segment (h : Ring c n d l) : Segment c d l.getLast? l.head? l :=
  segment_of_steps l h.steps h.nodup

theorem Ring.length_le (h : Ring c n d l) : l.length ≤ c.next.length := by
  have hsub : l ⊆ List.range c.next.length := fun a ha => mem_range.mpr (h.bound a ha)
  simpa using (h.nodup.subperm hsub).length_le

theorem drainLoop_eq {base : Nat} {live : Option LiveSet} {last : Option Nat} (l : List Nat) :
    ∀ (fuel : Nat) (delta : Option Nat) (run : List Nat), l.length ≤ fuel →
      Segment c d last delta l → c.drainLoop d base live last fuel delta run =
        run ++ (l.map (base + ·)).filter (LiveSet.passes live) := by
  induction l with
  | nil =>
    intro fuel delta run _ hseg
    rw [show delta = none from hseg]
    cases fuel <;> simp [drainLoop]
  | cons a l ih =>
    intro fuel delta run hfuel ⟨hdelta, hseg⟩
    obtain ⟨fuel, rfl⟩ : ∃ k, fuel = k + 1 := ⟨fuel - 1, by simp at hfuel; omega⟩
    subst hdelta
    simp only [drainLoop]
    split at hseg
    · next hlast =>
      -- past the last member the segment is empty
      have hl : l = [] := by cases l with | nil => rfl | cons b l => simp [Segment] at hseg
      subst hl
      simp only [if_pos hlast, map_cons, map_nil, filter_cons, filter_nil]
      split <;> simp
    · next hlast =>
      rw [if_neg hlast, ih fuel _ _ (by simpa using hfuel) hseg]
      simp only [map_cons, filter_cons]
      split <;> simp

theorem Rings.drainInto (h : Rings c rings) (node : Nat) (d : TraversalDirection) (base : Nat)
    (live : Option LiveSet) (run : List Nat) : (c.drainInto node d base live run).2 =
        run ++ ((rings node d).map (base + ·)).filter (LiveSet.passes live) ∧
      Rings (c.drainInto node d base live run).1 (detachRings rings node d) ∧
      (c.drainInto node d base live run).1.next = c.next := by
  have hring := h.ring node d
  unfold DeltaChains.drainInto
  rw [hring.ends]
  by_cases hl : rings node d = []
  · have hsame : detachRings rings node d = rings := by
      funext n e
      simp only [detachRings]
      split
      · next hc => rw [hc.1, hc.2, hl]
      · rfl
    simp only [if_pos hl]
    refine ⟨by simp [hl], ?_⟩
    rw [hsame]
    exact ⟨h, trivial⟩
  · simp only [if_neg hl]
    exact ⟨drainLoop_eq _ _ _ _ hring.length_le hring.segment, h.detach node d, rfl⟩

end DeltaChains

end CfgLib.Store
