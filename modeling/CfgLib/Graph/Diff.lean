import CfgLib.Cfg.Text
import CfgLib.Lib.Pairing
import CfgLib.Lib.Loop
import Mathlib.Data.List.Sort
import Mathlib.Logic.Relation

/-!
# Structural comparison of two graphs

`graph/diff.rs`: the blocks of two graphs are matched by how they are wired.
The matching grows from the pair of the entries along edges, and then from
each left block still unmatched that finds a free right block of its shape.
-/

namespace CfgLib

open Lib List

def EdgeKind.discriminant (kind : EdgeKind) : Nat := kind.ctorIdx

theorem EdgeKind.discriminant_injective : Function.Injective EdgeKind.discriminant := by
  intro a b h
  cases a <;> cases b <;> first | rfl | cases h

/-- Per-block structural fingerprint used for matching. -/
structure BlockFingerprint where
  instructionCount : Nat
  outDegree : Nat
  inDegree : Nat
  outEdgeDiscriminants : List Nat

/-- What two blocks must share to be matched. -/
def BlockFingerprint.shape (f : BlockFingerprint) : Nat × Nat × List Nat :=
  (f.outDegree, f.inDegree, f.outEdgeDiscriminants)

/-- What the matcher knows about one block; the edges are grouped by kind, each group in adjacency
order. -/
structure BlockFacts where
  fingerprint : BlockFingerprint
  outEdges : List (Nat × Nat)

/-- One graph, as the matcher sees it; the blocks ascend. -/
structure Side where
  entry : Nat
  blocks : List Nat
  facts : Nat → BlockFacts

/-- The outgoing edges of a block as kinds and targets, in adjacency order. -/
def Cfg.outEdges {ι π : Type} (c : Cfg ι π) (b : Nat) : List (EdgeKind × Nat) :=
  (c.outgoing b).filterMap fun e => (c.edge e).map fun r => (r.payload.kind, r.target)

def Side.new {ι π : Type} (c : Cfg ι π) : Side where
  entry := c.entry
  blocks := c.blockIds
  facts b :=
    let outEdges := ((c.outEdges b).map fun e => (e.1.discriminant, e.2)).mergeSort fun a b => a.1 ≤ b.1
    { fingerprint := {
        instructionCount := ((c.block b).map (·.instructions.length)).getD 0
        outDegree := outEdges.length
        inDegree := (c.incoming b).length
        outEdgeDiscriminants := outEdges.map (·.1) }
      outEdges }

/-- A partial one-to-one pairing of the blocks of two graphs. -/
structure Matching where
  rightOf : FiniteMap Nat Nat
  leftOf : FiniteMap Nat Nat

namespace Matching

def empty : Matching := ⟨.empty, .empty⟩

def pair (m : Matching) (left right : Nat) : Matching := ⟨m.rightOf.insert left right, m.leftOf.insert right left⟩

def bothFree (m : Matching) (left right : Nat) : Bool := (m.rightOf.get left).isNone && (m.leftOf.get right).isNone

end Matching

/-- The order of pairs that the comparison of edges sorts by. -/
def pairLe (a b : Nat × Nat) : Bool := a.1 < b.1 || (a.1 == b.1 && a.2 ≤ b.2)

/-- Whether the left edges reach the counterparts of the blocks that the right edges reach, kind for
kind. -/
def edgesPreserved (left right : BlockFacts) (m : Matching) : Bool :=
  match left.outEdges.mapM fun e => (m.rightOf.get e.2).map fun counterpart => (e.1, counterpart) with
  | none => false
  | some mapped => mapped.mergeSort pairLe == right.outEdges.mergeSort pairLe

def chunkByKind : List (Nat × Nat) → List (List (Nat × Nat))
  | [] => []
  | e :: rest =>
    match chunkByKind rest with
    | (e' :: group) :: groups => if e.1 = e'.1 then (e :: e' :: group) :: groups else [e] :: (e' :: group) :: groups
    | groups => [e] :: groups

def kindOf (group : List (Nat × Nat)) : Nat := (group.head?.map (·.1)).getD 0

def pairedTargets : List (List (Nat × Nat)) → List (List (Nat × Nat)) → List (Nat × Nat)
  | [], _ => []
  | leftGroup :: lefts, rights =>
    match rights.dropWhile fun group => kindOf group < kindOf leftGroup with
    | [] => pairedTargets lefts []
    | rightGroup :: rest =>
      if kindOf rightGroup = kindOf leftGroup then
        ((leftGroup.zip rightGroup).map fun p => (p.1.2, p.2.2)) ++ pairedTargets lefts rest
      else pairedTargets lefts (rightGroup :: rest)

/-- Match two targets that are free and wired alike, and queue the pair. -/
def takePair (left right : Side) (s : Matching × List (Nat × Nat)) (p : Nat × Nat) : Matching × List (Nat × Nat) :=
  if s.1.bothFree p.1 p.2 && (left.facts p.1).fingerprint.shape == (right.facts p.2).fingerprint.shape then
    (s.1.pair p.1 p.2, s.2 ++ [p])
  else s

/-- Extend the matching along the edges of the pair at the front of the queue. -/
def followTurn (left right : Side) : Matching × List (Nat × Nat) → Option (Matching × List (Nat × Nat))
  | (_, []) => none
  | (m, p :: pending) =>
    some ((pairedTargets (chunkByKind (left.facts p.1).outEdges) (chunkByKind (right.facts p.2).outEdges)).foldl
      (takePair left right) (m, pending))

/-- Extend the matching along the edges of a new pair; each turn spends a queued pair and each pair
queued is a left block less to match. -/
def followEdges (left right : Side) (m : Matching) (p : Nat × Nat) : Matching :=
  (iterate (followTurn left right) (left.blocks.length + 1) (m, [p])).1

/-- A left block still unmatched takes the first free right block of its shape, one of the same length
if there is one. -/
def takeCandidate (left right : Side) (s : Matching × (Nat × Nat × List Nat → List Nat)) (block : Nat) :
    Matching × (Nat × Nat × List Nat → List Nat) :=
  if (s.1.rightOf.get block).isSome then s
  else
    let facts := left.facts block
    let candidates := (s.2 facts.fingerprint.shape).filter fun candidate => (s.1.leftOf.get candidate).isNone
    let sameLength := candidates.find? fun candidate =>
      (right.facts candidate).fingerprint.instructionCount == facts.fingerprint.instructionCount
    match sameLength.or candidates.head? with
    | none => (s.1, Function.update s.2 facts.fingerprint.shape candidates)
    | some counterpart => (followEdges left right (s.1.pair block counterpart) (block, counterpart),
        Function.update s.2 facts.fingerprint.shape (candidates.erase counterpart))

structure BlockMatch where
  left : Nat
  right : Nat
  instructionCountChanged : Bool
  edgesChanged : Bool

/-- Summary of the structural differences of two graphs. -/
structure CfgDiff where
  matched : List BlockMatch
  leftOnly : List Nat
  rightOnly : List Nat
  leftBlockCount : Nat
  rightBlockCount : Nat
  leftEdgeCount : Nat
  rightEdgeCount : Nat

namespace CfgDiff

def isIdentical (diff : CfgDiff) : Bool :=
  diff.leftOnly.isEmpty && diff.rightOnly.isEmpty &&
    diff.matched.all fun pair => !pair.instructionCountChanged && !pair.edgesChanged

/-- The matching of two sides: from the entries, then from each left block still unmatched. -/
def matchSides (left right : Side) : Matching :=
  let m := followEdges left right (Matching.empty.pair left.entry right.entry) (left.entry, right.entry)
  let freeByShape := fun shape => right.blocks.filter fun block =>
    (m.leftOf.get block).isNone && (right.facts block).fingerprint.shape == shape
  (left.blocks.foldl (takeCandidate left right) (m, freeByShape)).1

def blockMatch (left right : Side) (m : Matching) (block counterpart : Nat) : BlockMatch where
  left := block
  right := counterpart
  instructionCountChanged := (left.facts block).fingerprint.instructionCount !=
    (right.facts counterpart).fingerprint.instructionCount
  edgesChanged := !edgesPreserved (left.facts block) (right.facts counterpart) m

/-- Compare two graphs structurally. -/
def compute {ι π ι' π' : Type} (left : Cfg ι π) (right : Cfg ι' π') : CfgDiff :=
  let leftSide := Side.new left
  let rightSide := Side.new right
  let m := matchSides leftSide rightSide
  { matched := leftSide.blocks.filterMap fun block =>
      (m.rightOf.get block).map (blockMatch leftSide rightSide m block)
    leftOnly := leftSide.blocks.filter fun block => (m.rightOf.get block).isNone
    rightOnly := rightSide.blocks.filter fun block => (m.leftOf.get block).isNone
    leftBlockCount := left.blockIds.length
    rightBlockCount := right.blockIds.length
    leftEdgeCount := left.edgeIds.length
    rightEdgeCount := right.edgeIds.length }

end CfgDiff

/-! ## The edges of one kind -/

theorem flatten_chunkByKind (edges : List (Nat × Nat)) : (chunkByKind edges).flatten = edges := by
  induction edges with
  | nil => rfl
  | cons e rest ih =>
    rw [chunkByKind]
    split
    · next e' group groups h =>
      rw [h] at ih
      split
      · rw [← ih]
        rfl
      · rw [← ih]
        rfl
    · rw [flatten_cons, ih]
      rfl

theorem mem_pairedTargets {p : Nat × Nat} (lefts rights : List (List (Nat × Nat)))
    (h : p ∈ pairedTargets lefts rights) :
    (∃ e ∈ lefts.flatten, e.2 = p.1) ∧ ∃ e ∈ rights.flatten, e.2 = p.2 := by
  induction lefts generalizing rights with
  | nil => cases h
  | cons leftGroup lefts ih =>
    have hwithin : ∀ {rest : List (List (Nat × Nat))} {e : Nat × Nat}, rest.Sublist rights →
        e ∈ rest.flatten → e ∈ rights.flatten := by
      intro rest e hsub he
      obtain ⟨group, hgroup, he⟩ := mem_flatten.mp he
      exact mem_flatten.mpr ⟨group, hsub.subset hgroup, he⟩
    have hkeep : ∀ rest : List (List (Nat × Nat)),
        rest.Sublist rights → p ∈ pairedTargets lefts rest →
          (∃ e ∈ (leftGroup :: lefts).flatten, e.2 = p.1) ∧ ∃ e ∈ rights.flatten, e.2 = p.2 := by
      intro rest hsub hp
      obtain ⟨⟨e, he, h₁⟩, e', he', h₂⟩ := ih rest hp
      refine ⟨⟨e, ?_, h₁⟩, e', hwithin hsub he', h₂⟩
      rw [flatten_cons]
      exact mem_append_right _ he
    have hdrop : (rights.dropWhile fun group => kindOf group < kindOf leftGroup).Sublist rights :=
      dropWhile_sublist _
    rw [pairedTargets] at h
    split at h
    · exact hkeep [] (nil_sublist _) h
    · next rightGroup rest hrest =>
      rw [hrest] at hdrop
      split at h
      · rcases mem_append.mp h with h | h
        · rw [mem_map] at h
          obtain ⟨⟨e, e'⟩, hzip, rfl⟩ := h
          obtain ⟨he, he'⟩ := of_mem_zip hzip
          refine ⟨⟨e, ?_, rfl⟩, e', ?_, rfl⟩
          · rw [flatten_cons]
            exact mem_append_left _ he
          · refine hwithin hdrop ?_
            rw [flatten_cons]
            exact mem_append_left _ he'
        · exact hkeep rest ((sublist_cons_self _ _).trans hdrop) h
      · exact hkeep _ hdrop h

/-! ## One-to-one matchings -/

structure Side.WF (s : Side) : Prop where
  nodup : s.blocks.Nodup
  entry : s.entry ∈ s.blocks
  closed : ∀ b ∈ s.blocks, ∀ e ∈ (s.facts b).outEdges, e.2 ∈ s.blocks

structure Matching.OneToOne (left right : Side) (m : Matching) : Prop where
  inverse : Inverse m.rightOf m.leftOf
  left_live : ∀ l r, m.rightOf.get l = some r → l ∈ left.blocks
  right_live : ∀ l r, m.rightOf.get l = some r → r ∈ right.blocks
  entry : m.rightOf.get left.entry = some right.entry

namespace Matching

variable {left right : Side}

theorem bothFree_iff {m : Matching} {l r : Nat} :
    m.bothFree l r ↔ m.rightOf.get l = none ∧ m.leftOf.get r = none := by
  simp only [bothFree, Bool.and_eq_true, Option.isNone_iff_eq_none]

theorem oneToOne_start (hleft : left.WF) (hright : right.WF) :
    (empty.pair left.entry right.entry).OneToOne left right := by
  have hget : ∀ l r, (empty.pair left.entry right.entry).rightOf.get l = some r →
      l = left.entry ∧ right.entry = r := by
    intro l r h
    change (FiniteMap.empty.insert left.entry right.entry).get l = some r at h
    rw [FiniteMap.get_insert] at h
    split at h
    · next hl => exact ⟨hl, Option.some.inj h⟩
    · cases h
  refine ⟨Inverse.empty.insert rfl rfl, ?_, ?_, if_pos rfl⟩
  · intro l r h
    rw [(hget l r h).1]
    exact hleft.entry
  · intro l r h
    rw [← (hget l r h).2]
    exact hright.entry

theorem OneToOne.pair {m : Matching} (h : m.OneToOne left right) {l r : Nat} (hl : l ∈ left.blocks)
    (hr : r ∈ right.blocks) (hfree : m.bothFree l r) : (m.pair l r).OneToOne left right := by
  obtain ⟨hleft, hright⟩ := bothFree_iff.mp hfree
  refine ⟨h.inverse.insert hleft hright, ?_, ?_, ?_⟩
  · intro a b hab
    simp only [Matching.pair, FiniteMap.get_insert] at hab
    split at hab
    · next ha => rwa [ha]
    · exact h.left_live a b hab
  · intro a b hab
    simp only [Matching.pair, FiniteMap.get_insert] at hab
    split at hab
    · rwa [← Option.some.inj hab]
    · exact h.right_live a b hab
  · simp only [Matching.pair, FiniteMap.get_insert]
    rw [if_neg ?_]
    · exact h.entry
    · intro he
      rw [← he, h.entry] at hleft
      cases hleft

end Matching

/-- A one-to-one matching and a queue of live pairs. -/
structure Walking (left right : Side) (s : Matching × List (Nat × Nat)) : Prop where
  matching : s.1.OneToOne left right
  pending : ∀ p ∈ s.2, p.1 ∈ left.blocks ∧ p.2 ∈ right.blocks

/-- The number of left blocks without a counterpart. -/
def Matching.unmatched (left : Side) (m : Matching) : Nat :=
  total (fun b => if (m.rightOf.get b).isNone then 1 else 0) left.blocks

/-- What a walk may still do: the pairs queued, and a pair for each left block still to match. -/
def remaining (left : Side) (s : Matching × List (Nat × Nat)) : Nat := s.2.length + s.1.unmatched left

section

variable {left right : Side}

theorem Matching.unmatched_le (left : Side) (m : Matching) : m.unmatched left ≤ left.blocks.length := by
  rw [← total_one]
  apply total_le
  intro b _
  split <;> omega

variable {s : Matching × List (Nat × Nat)} {p : Nat × Nat}

theorem Walking.takePair (h : Walking left right s) (hl : p.1 ∈ left.blocks) (hr : p.2 ∈ right.blocks) :
    Walking left right (takePair left right s p) ∧
      remaining left (CfgLib.takePair left right s p) ≤ remaining left s := by
  unfold CfgLib.takePair
  split
  · next htake =>
    rw [Bool.and_eq_true] at htake
    obtain ⟨hfree, _⟩ := htake
    refine ⟨⟨h.matching.pair hl hr hfree, ?_⟩, ?_⟩
    · intro q hq
      rcases mem_append.mp hq with hq | hq
      · exact h.pending q hq
      · rw [mem_singleton.mp hq]
        exact ⟨hl, hr⟩
    · have hnone := (Matching.bothFree_iff.mp hfree).1
      have hdrop : (s.1.pair p.1 p.2).unmatched left + 1 ≤ s.1.unmatched left := by
        apply total_drop ?_ hl
        · simp [Matching.pair, hnone]
        · intro b _
          by_cases hb : b = p.1
          · simp [Matching.pair, hb]
          · simp [Matching.pair, hb]
      simp only [remaining, length_append, length_singleton]
      omega
  · exact ⟨h, Nat.le_refl _⟩

theorem Walking.foldl {ps : List (Nat × Nat)} (hps : ∀ p ∈ ps, p.1 ∈ left.blocks ∧ p.2 ∈ right.blocks)
    (h : Walking left right s) : Walking left right (ps.foldl (CfgLib.takePair left right) s) ∧
      remaining left (ps.foldl (CfgLib.takePair left right) s) ≤ remaining left s := by
  induction ps generalizing s with
  | nil => exact ⟨h, Nat.le_refl _⟩
  | cons p ps ih =>
    obtain ⟨hl, hr⟩ := hps p mem_cons_self
    obtain ⟨hnext, hle⟩ := h.takePair hl hr
    obtain ⟨hend, hle'⟩ := ih (fun q hq => hps q (mem_cons_of_mem p hq)) hnext
    exact ⟨hend, hle'.trans hle⟩

theorem live_pairedTargets (hleft : left.WF) (hright : right.WF) {a b : Nat} (ha : a ∈ left.blocks)
    (hb : b ∈ right.blocks)
    (hp : p ∈ pairedTargets (chunkByKind (left.facts a).outEdges) (chunkByKind (right.facts b).outEdges)) :
    p.1 ∈ left.blocks ∧ p.2 ∈ right.blocks := by
  obtain ⟨⟨e, he, h₁⟩, e', he', h₂⟩ := mem_pairedTargets _ _ hp
  rw [flatten_chunkByKind] at he he'
  rw [← h₁, ← h₂]
  exact ⟨hleft.closed a ha e he, hright.closed b hb e' he'⟩

theorem Walking.turn (hleft : left.WF) (hright : right.WF) {s' : Matching × List (Nat × Nat)}
    (h : Walking left right s) (hs : followTurn left right s = some s') :
    Walking left right s' ∧ remaining left s' < remaining left s := by
  obtain ⟨m, pending⟩ := s
  cases pending with
  | nil => cases hs
  | cons p pending =>
    rw [followTurn, Option.some.injEq] at hs
    subst hs
    obtain ⟨hl, hr⟩ := h.pending p mem_cons_self
    have hrest : Walking left right (m, pending) :=
      ⟨h.matching, fun q hq => h.pending q (mem_cons_of_mem p hq)⟩
    obtain ⟨hend, hle⟩ := hrest.foldl fun q hq => live_pairedTargets hleft hright hl hr hq
    refine ⟨hend, Nat.lt_of_le_of_lt hle ?_⟩
    simp only [remaining, length_cons]
    omega

/-- A walk from a live pair ends with its queue empty, and keeps the matching one-to-one. -/
theorem followEdges_oneToOne (hleft : left.WF) (hright : right.WF) {m : Matching} (h : m.OneToOne left right)
    (hl : p.1 ∈ left.blocks) (hr : p.2 ∈ right.blocks) :
    (followEdges left right m p).OneToOne left right ∧
      followTurn left right (iterate (followTurn left right) (left.blocks.length + 1) (m, [p])) = none := by
  have hstart : Walking left right (m, [p]) := by
    refine ⟨h, ?_⟩
    intro q hq
    rw [mem_singleton.mp hq]
    exact ⟨hl, hr⟩
  have hfuel : remaining left (m, [p]) ≤ left.blocks.length + 1 := by
    have := m.unmatched_le left
    simp only [remaining, length_singleton]
    omega
  obtain ⟨hend, hexit⟩ := iterate_spec (μ := remaining left) (fun _ _ h hs => h.turn hleft hright hs)
    hstart hfuel
  exact ⟨hend.matching, hexit⟩

theorem takeCandidate_oneToOne (hleft : left.WF) (hright : right.WF)
    {s : Matching × (Nat × Nat × List Nat → List Nat)} (h : s.1.OneToOne left right)
    (hfree : ∀ shape, ∀ b ∈ s.2 shape, b ∈ right.blocks) {block : Nat} (hblock : block ∈ left.blocks) :
    (takeCandidate left right s block).1.OneToOne left right ∧
      ∀ shape, ∀ b ∈ (takeCandidate left right s block).2 shape, b ∈ right.blocks := by
  unfold takeCandidate
  split
  · exact ⟨h, hfree⟩
  · next hnone =>
    rw [Bool.not_eq_true, Option.isSome_eq_false_iff, Option.isNone_iff_eq_none] at hnone
    have hupdate : ∀ (candidates : List Nat), (∀ b ∈ candidates, b ∈ right.blocks) →
        ∀ shape, ∀ b ∈ Function.update s.2 (left.facts block).fingerprint.shape candidates shape,
          b ∈ right.blocks := by
      intro candidates hcandidates shape b hb
      rw [Function.update_apply] at hb
      split at hb
      · exact hcandidates b hb
      · exact hfree shape b hb
    extract_lets facts candidates sameLength
    have hsub : ∀ b ∈ candidates, b ∈ right.blocks := fun b hb =>
      hfree _ b (mem_of_mem_filter hb)
    split
    · exact ⟨h, hupdate _ hsub⟩
    · next counterpart hpick =>
      have hmem : counterpart ∈ candidates := by
        rcases Option.or_eq_some_iff.mp hpick with hfound | ⟨_, hhead⟩
        · exact mem_of_find?_eq_some hfound
        · exact mem_of_head? hhead
      have hbothFree : s.1.bothFree block counterpart :=
        Matching.bothFree_iff.mpr ⟨hnone, Option.isNone_iff_eq_none.mp (mem_filter.mp hmem).2⟩
      have hpair := h.pair hblock (hsub _ hmem) hbothFree
      exact ⟨(followEdges_oneToOne hleft hright hpair hblock (hsub _ hmem)).1,
        hupdate _ fun b hb => hsub b (mem_of_mem_erase hb)⟩

theorem CfgDiff.matchSides_oneToOne (hleft : left.WF) (hright : right.WF) :
    (matchSides left right).OneToOne left right := by
  have hentry := (followEdges_oneToOne hleft hright (Matching.oneToOne_start hleft hright)
    (p := (left.entry, right.entry)) hleft.entry hright.entry).1
  have hrun : ∀ (blocks : List Nat), (∀ b ∈ blocks, b ∈ left.blocks) →
      ∀ s : Matching × (Nat × Nat × List Nat → List Nat), s.1.OneToOne left right →
        (∀ shape, ∀ b ∈ s.2 shape, b ∈ right.blocks) →
          (blocks.foldl (takeCandidate left right) s).1.OneToOne left right := by
    intro blocks
    induction blocks with
    | nil => exact fun _ _ h _ => h
    | cons b blocks ih =>
      intro hblocks s h hfree
      obtain ⟨h', hfree'⟩ := takeCandidate_oneToOne hleft hright h hfree (hblocks b mem_cons_self)
      exact ih (fun b' hb' => hblocks b' (mem_cons_of_mem b hb')) _ h' hfree'
  apply hrun left.blocks (fun _ hb => hb) _ hentry
  intro shape b hb
  exact mem_of_mem_filter hb

end

end CfgLib
