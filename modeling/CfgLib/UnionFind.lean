import CfgLib.Lib.Loop
import CfgLib.Lib.Partition
import Mathlib.Data.List.Basic
import Mathlib.Order.Basic

/-!
# Disjoint sets

`union_find.rs`: a forest over dense indices whose roots stand for the classes.  A root and
a depth for every element, which no field of the forest holds, carry the proofs: every
parent has the root of its children, and lies nearer to it.
-/

namespace CfgLib

open Lib List

/-- The parent of each element, a root its own, and the rank of each root. -/
structure DisjointSet where
  parent : List Nat
  rank : List Nat
  deriving DecidableEq, Repr

namespace DisjointSet

def new (len : Nat) : DisjointSet := ⟨List.range len, List.replicate len 0⟩

def len (s : DisjointSet) : Nat := s.parent.length

def push (s : DisjointSet) : Nat × DisjointSet :=
  (s.parent.length, ⟨s.parent ++ [s.parent.length], s.rank ++ [0]⟩)

/-- The loop of `find`; `none` is an index out of bounds or a loop that has not ended. -/
def findLoop : Nat → List Nat → Nat → Option (Nat × List Nat)
  | 0, _, _ => none
  | fuel + 1, parent, index => do
    let up ← parent[index]?
    if up = index then some (index, parent)
    else
      let above ← parent[up]?
      findLoop fuel (parent.set index above) above

/-- The representative of an element; each element on the way is pointed to its grandparent. -/
def find (s : DisjointSet) (index : Nat) : Option (Nat × DisjointSet) :=
  (findLoop (s.len + 1) s.parent index).map fun (root, parent) => (root, { s with parent := parent })

def rootLoop (parent : List Nat) : Nat → Nat → Option Nat
  | 0, _ => none
  | fuel + 1, index => do
    let up ← parent[index]?
    if up = index then some index else rootLoop parent fuel up

/-- The representative of an element, the forest left alone. -/
def root (s : DisjointSet) (index : Nat) : Option Nat := rootLoop s.parent (s.len + 1) index

/-- Which root a merge keeps. -/
inductive Strategy where
  | byRank
  | towardMin
  deriving DecidableEq, Repr

/-- Put one of two roots below the other. -/
def link : Strategy → DisjointSet → Nat → Nat → Option DisjointSet
  | .byRank, s, leftRoot, rightRoot => do
    let leftRank ← s.rank[leftRoot]?
    let rightRank ← s.rank[rightRoot]?
    match compare leftRank rightRank with
    | .lt => some { s with parent := s.parent.set leftRoot rightRoot }
    | .gt => some { s with parent := s.parent.set rightRoot leftRoot }
    | .eq => some ⟨s.parent.set rightRoot leftRoot, s.rank.set leftRoot (leftRank + 1)⟩
  | .towardMin, s, leftRoot, rightRoot =>
    let (root, merged) := if leftRoot < rightRoot then (leftRoot, rightRoot) else (rightRoot, leftRoot)
    some { s with parent := s.parent.set merged root }

/-- Merge two sets; whether they were different. -/
def unite (strategy : Strategy) (s : DisjointSet) (left right : Nat) : Option (Bool × DisjointSet) := do
  let (leftRoot, s) ← s.find left
  let (rightRoot, s) ← s.find right
  if leftRoot = rightRoot then some (false, s)
  else (link strategy s leftRoot rightRoot).map fun s => (true, s)

def union : DisjointSet → Nat → Nat → Option (Bool × DisjointSet) := unite .byRank

def unionTowardMin : DisjointSet → Nat → Nat → Option (Bool × DisjointSet) := unite .towardMin

/-! ## What the operations keep -/

/-- The parent of an element, itself beyond the forest. -/
def up (parent : List Nat) (i : Nat) : Nat := parent.getD i i

variable {parent : List Nat} {i : Nat}

theorem up_of_le (h : parent.length ≤ i) : up parent i = i := by
  rw [up, getD_eq_getElem?_getD, getElem?_eq_none h, Option.getD_none]

theorem getElem?_eq_up (h : i < parent.length) : parent[i]? = some (up parent i) := by
  rw [up, getD_eq_getElem?_getD, getElem?_eq_getElem h, Option.getD_some]

theorem up_set (h : i < parent.length) (v j : Nat) :
    up (parent.set i v) j = if j = i then v else up parent j := by
  simp only [up, getD_eq_getElem?_getD, getElem?_set]
  by_cases hj : j = i
  · subst hj
    simp [h]
  · rw [if_neg fun heq => hj heq.symm, if_neg hj]

theorem up_set_lt (h : ∀ j < parent.length, up parent j < parent.length) {v : Nat}
    (hi : i < parent.length) (hv : v < parent.length) : ∀ j < (parent.set i v).length, up (parent.set i v) j < (parent.set i v).length := by
  intro j hj
  rw [length_set] at hj ⊢
  rw [up_set hi]
  split
  · exact hv
  · exact h j hj

def roots (parent : List Nat) : Nat := total (fun i => if up parent i = i then 1 else 0) (List.range parent.length)

/-- Every element leads to the root `label` names, by fewer parents than the forest has
elements that are not roots. -/
structure Forested (parent : List Nat) (label depth : Nat → Nat) : Prop where
  up_lt : ∀ i < parent.length, up parent i < parent.length
  label_up : ∀ i, label (up parent i) = label i
  label_root : ∀ i, up parent i = i → label i = i
  depth_up : ∀ i, up parent i ≠ i → depth (up parent i) < depth i
  depth_root : ∀ i, up parent i = i → depth i = 0
  depth_le : ∀ i, depth i + roots parent ≤ parent.length

variable {parent : List Nat} {label depth : Nat → Nat}

namespace Forested

theorem lt_of_up (h : up parent i ≠ i) : i < parent.length := by
  by_contra hi
  exact h (up_of_le (not_lt.mp hi))

theorem halve (h : Forested parent label depth) {i : Nat} (hi : up parent i ≠ i) :
    Forested (parent.set i (up parent (up parent i))) label depth := by
  have hlt := lt_of_up hi
  have hdepth : depth (up parent (up parent i)) < depth i := by
    have hnear := h.depth_up i hi
    by_cases htop : up parent (up parent i) = up parent i
    · rwa [htop]
    · exact lt_trans (h.depth_up _ htop) hnear
  have habove : up parent (up parent i) ≠ i := fun heq => by
    rw [heq] at hdepth
    exact lt_irrefl _ hdepth
  have hroot : ∀ j, up (parent.set i (up parent (up parent i))) j = j ↔ up parent j = j := by
    intro j
    rw [up_set hlt]
    split
    · next hj =>
      subst hj
      exact iff_of_false habove hi
    · rfl
  refine ⟨up_set_lt h.up_lt hlt (h.up_lt _ (h.up_lt i hlt)), fun j => ?_, fun j hj => h.label_root j ((hroot j).mp hj),
    fun j hj => ?_, fun j hj => h.depth_root j ((hroot j).mp hj), fun j => ?_⟩
  · rw [up_set hlt]
    split
    · next hj => rw [h.label_up, h.label_up, hj]
    · exact h.label_up j
  · have hj' := mt (hroot j).mpr hj
    rw [up_set hlt]
    split
    · next heq => rwa [heq]
    · exact h.depth_up j hj'
  · simp only [roots, hroot, length_set]
    exact h.depth_le j

theorem link (h : Forested parent label depth) {lost kept : Nat} (hlost : lost < parent.length)
    (hkept : kept < parent.length) (hlostRoot : up parent lost = lost) (hkeptRoot : up parent kept = kept)
    (hne : lost ≠ kept) : Forested (parent.set lost kept) (fun i => if label i = lost then kept else label i)
      fun i => if label i = lost then depth i + 1 else depth i := by
  have hlabel := h.label_root lost hlostRoot
  have hkeptLabel := h.label_root kept hkeptRoot
  have hroot : ∀ j, up (parent.set lost kept) j = j → j ≠ lost ∧ up parent j = j := by
    intro j hj
    rw [up_set hlost] at hj
    split at hj
    · next heq => exact absurd (heq.symm.trans hj.symm) hne
    · next heq => exact ⟨heq, hj⟩
  refine ⟨up_set_lt h.up_lt hlost hkept, fun j => ?_, fun j hj => ?_, fun j hj => ?_, fun j hj => ?_, fun j => ?_⟩
  · rw [up_set hlost]
    split
    · next heq => rw [heq, hlabel, hkeptLabel, if_neg hne.symm, if_pos rfl]
    · rw [h.label_up]
  · obtain ⟨hj, hup⟩ := hroot j hj
    rw [h.label_root j hup, if_neg hj]
  · rw [up_set hlost] at hj ⊢
    by_cases heq : j = lost
    · rw [if_pos heq, hkeptLabel, if_neg hne.symm, heq, hlabel, if_pos rfl, h.depth_root kept hkeptRoot]
      exact Nat.succ_pos _
    · rw [if_neg heq] at hj ⊢
      rw [h.label_up]
      have := h.depth_up j hj
      split
      · exact Nat.succ_lt_succ this
      · exact this
  · obtain ⟨hj, hup⟩ := hroot j hj
    rw [h.label_root j hup, if_neg hj]
    exact h.depth_root j hup
  · -- one root less pays for one step more
    have hroots : roots (parent.set lost kept) + 1 ≤ roots parent := by
      rw [roots, length_set]
      refine total_drop (fun i _ => ?_) (mem_range.mpr hlost) ?_
      · by_cases hi : up (parent.set lost kept) i = i
        · rw [if_pos hi, if_pos (hroot i hi).2]
        · rw [if_neg hi]
          exact Nat.zero_le _
      · rw [up_set hlost, if_pos rfl, if_neg hne.symm, if_pos hlostRoot]
    have := h.depth_le j
    rw [length_set]
    split <;> omega

theorem extend (h : Forested parent label depth) : Forested (parent ++ [parent.length]) label depth := by
  have hup : ∀ j, up (parent ++ [parent.length]) j = up parent j := by
    intro j
    simp only [up, getD_eq_getElem?_getD, getElem?_append]
    split
    · rfl
    · next hj =>
      rw [getElem?_eq_none (not_lt.mp hj)]
      by_cases heq : j = parent.length
      · simp [heq]
      · rw [getElem?_eq_none (by simp only [length_singleton]; omega)]
  refine ⟨fun j hj => ?_, fun j => by rw [hup]; exact h.label_up j, fun j hj => h.label_root j (hup j ▸ hj),
    fun j hj => by rw [hup] at hj ⊢; exact h.depth_up j hj, fun j hj => h.depth_root j (hup j ▸ hj), fun j => ?_⟩
  · rw [hup]
    rw [length_append, length_singleton] at hj ⊢
    by_cases hlt : j < parent.length
    · exact Nat.lt_succ_of_lt (h.up_lt j hlt)
    · rwa [up_of_le (not_lt.mp hlt)]
  · have hroots : roots (parent ++ [parent.length]) = roots parent + 1 := by
      simp only [roots, hup, length_append, length_singleton, range_succ, total_append]
      simp [total, up_of_le]
    have := h.depth_le j
    rw [length_append, length_singleton, hroots]
    omega

/-- `find` ends at the root, and the forest it leaves has the same roots. -/
theorem findLoop_eq {fuel : Nat} : ∀ {parent : List Nat} {index : Nat}, Forested parent label depth →
    index < parent.length → depth index < fuel → ∃ parent', findLoop fuel parent index = some (label index, parent') ∧
      parent'.length = parent.length ∧ Forested parent' label depth := by
  induction fuel with
  | zero => exact fun _ _ hfuel => absurd hfuel (Nat.not_lt_zero _)
  | succ fuel ih =>
    intro parent index h hindex hfuel
    rw [findLoop, getElem?_eq_up hindex, Option.bind_eq_bind, Option.bind_some]
    by_cases hroot : up parent index = index
    · rw [if_pos hroot, h.label_root index hroot]
      exact ⟨parent, rfl, rfl, h⟩
    · have hup := h.up_lt index hindex
      rw [if_neg hroot, getElem?_eq_up hup, Option.bind_some]
      have hnear := h.depth_up index hroot
      have habove : depth (up parent (up parent index)) ≤ depth (up parent index) := by
        by_cases htop : up parent (up parent index) = up parent index
        · rw [htop]
        · exact le_of_lt (h.depth_up _ htop)
      obtain ⟨parent', hrun, hlength, h'⟩ := ih (h.halve hroot)
        (by rw [length_set]; exact h.up_lt _ hup) (by omega)
      rw [h.label_up, h.label_up] at hrun
      exact ⟨parent', hrun, hlength.trans length_set, h'⟩

theorem rootLoop_eq (h : Forested parent label depth) {fuel : Nat} : ∀ {index : Nat}, index < parent.length →
    depth index < fuel → rootLoop parent fuel index = some (label index) := by
  induction fuel with
  | zero => exact fun _ hfuel => absurd hfuel (Nat.not_lt_zero _)
  | succ fuel ih =>
    intro index hindex hfuel
    rw [rootLoop, getElem?_eq_up hindex, Option.bind_eq_bind, Option.bind_some]
    by_cases hroot : up parent index = index
    · rw [if_pos hroot, h.label_root index hroot]
    · have := h.depth_up index hroot
      rw [if_neg hroot, ih (h.up_lt index hindex) (by omega), h.label_up]

theorem up_label (h : Forested parent label depth) (i : Nat) :
    up parent (label i) = label i ∧ (i < parent.length → label i < parent.length) := by
  induction hd : depth i using Nat.strongRecOn generalizing i with
  | ind d ih =>
    by_cases hroot : up parent i = i
    · rw [h.label_root i hroot]
      exact ⟨hroot, fun hi => hi⟩
    · obtain ⟨hup, hlt⟩ := ih _ (hd ▸ h.depth_up i hroot) (up parent i) rfl
      rw [h.label_up] at hup hlt
      exact ⟨hup, fun hi => hlt (h.up_lt i hi)⟩

theorem initial (len : Nat) : Forested (List.range len) (fun i => i) fun _ => 0 := by
  have hup : ∀ i, up (List.range len) i = i := by
    intro i
    by_cases hi : i < len
    · rw [up, getD_eq_getElem?_getD, getElem?_range hi, Option.getD_some]
    · exact up_of_le (by rw [length_range]; exact not_lt.mp hi)
  refine ⟨fun i hi => by rwa [hup], hup, fun i _ => rfl, fun i hi => absurd (hup i) hi, fun _ _ => rfl, fun i => ?_⟩
  have hone : ∀ j ∈ List.range (List.range len).length, (if up (List.range len) j = j then 1 else 0) ≤ 1 := by
    intro j _
    split <;> omega
  have hle := total_le hone
  rw [total_one, length_range] at hle
  rw [Nat.zero_add, roots, length_range]
  exact hle.trans length_range.le

end Forested

structure Classes (s : DisjointSet) (label : Nat → Nat) (pairs : List (Nat × Nat)) : Prop where
  forested : ∃ depth, Forested s.parent label depth
  rank_length : s.rank.length = s.len
  separates : Separates label pairs

variable {s : DisjointSet} {pairs : List (Nat × Nat)}

namespace Classes

theorem find_eq (h : Classes s label pairs) {index : Nat} (hindex : index < s.len) :
    ∃ s', s.find index = some (label index, s') ∧ s'.len = s.len ∧ Classes s' label pairs := by
  obtain ⟨depth, hforest⟩ := h.forested
  obtain ⟨parent', hrun, hlength, hforest'⟩ :=
    hforest.findLoop_eq hindex (Nat.lt_succ_of_le ((Nat.le_add_right _ _).trans (hforest.depth_le index)))
  refine ⟨{ s with parent := parent' }, by rw [find, len, hrun]; rfl, hlength, ⟨depth, hforest'⟩, ?_, h.separates⟩
  rw [h.rank_length, len, ← hlength]
  rfl

theorem root_eq (h : Classes s label pairs) {index : Nat} (hindex : index < s.len) : s.root index = some (label index) := by
  obtain ⟨depth, hforest⟩ := h.forested
  exact hforest.rootLoop_eq hindex (Nat.lt_succ_of_le ((Nat.le_add_right _ _).trans (hforest.depth_le index)))

theorem push (h : Classes s label pairs) : Classes s.push.2 label pairs := by
  obtain ⟨depth, hforest⟩ := h.forested
  refine ⟨⟨depth, hforest.extend⟩, ?_, h.separates⟩
  simp only [DisjointSet.push, len, length_append, length_singleton]
  rw [h.rank_length, len]

theorem link (h : Classes s label pairs) {left right lost kept : Nat} (hleft : left < s.len) (hright : right < s.len)
    (hne : label left ≠ label right)
    (hends : (lost = label left ∧ kept = label right) ∨ (lost = label right ∧ kept = label left))
    {rank : List Nat} (hrank : rank.length = s.rank.length) :
    Classes ⟨s.parent.set lost kept, rank⟩ (fun i => if label i = lost then kept else label i) (pairs ++ [(left, right)]) := by
  obtain ⟨depth, hforest⟩ := h.forested
  obtain ⟨hl, hlt⟩ := hforest.up_label left
  obtain ⟨hr, hrt⟩ := hforest.up_label right
  refine ⟨?_, ?_, h.separates.join hends⟩
  · rcases hends with ⟨rfl, rfl⟩ | ⟨rfl, rfl⟩
    · exact ⟨_, hforest.link (hlt hleft) (hrt hright) hl hr hne⟩
    · exact ⟨_, hforest.link (hrt hright) (hlt hleft) hr hl hne.symm⟩
  · rw [hrank, h.rank_length, len, len, length_set]

end Classes

/-! ## Runs -/

inductive Op where
  | push
  | find (index : Nat)
  | root (index : Nat)
  | unite (left right : Nat)

/-- The forest after a call; `none` is the panic on an index out of bounds. -/
def apply (strategy : Strategy) (s : DisjointSet) : Op → Option DisjointSet
  | .push => some s.push.2
  | .find index => (s.find index).map (·.2)
  | .root index => (s.root index).map fun _ => s
  | .unite left right => (unite strategy s left right).map (·.2)

def run (strategy : Strategy) (s : DisjointSet) (ops : List Op) : Option DisjointSet := ops.foldlM (apply strategy) s

def united : List Op → List (Nat × Nat)
  | [] => []
  | .unite left right :: ops => (left, right) :: united ops
  | _ :: ops => united ops

/-- Every call names elements of the forest it meets. -/
def InRange : Nat → List Op → Prop
  | _, [] => True
  | n, .push :: ops => InRange (n + 1) ops
  | n, .find index :: ops => index < n ∧ InRange n ops
  | n, .root index :: ops => index < n ∧ InRange n ops
  | n, .unite left right :: ops => (left < n ∧ right < n) ∧ InRange n ops

theorem link_eq (strategy : Strategy) {leftRoot rightRoot : Nat} (hleft : leftRoot < s.rank.length)
    (hright : rightRoot < s.rank.length) : ∃ lost kept rank, link strategy s leftRoot rightRoot = some ⟨s.parent.set lost kept, rank⟩ ∧
      rank.length = s.rank.length ∧ ((lost = leftRoot ∧ kept = rightRoot) ∨ (lost = rightRoot ∧ kept = leftRoot)) ∧
      (strategy = .towardMin → kept ≤ lost) := by
  cases strategy with
  | byRank =>
    simp only [link, getElem?_eq_getElem hleft, getElem?_eq_getElem hright, Option.bind_eq_bind, Option.bind_some]
    cases compare s.rank[leftRoot] s.rank[rightRoot] with
    | lt => exact ⟨_, _, _, rfl, rfl, Or.inl ⟨rfl, rfl⟩, nofun⟩
    | gt => exact ⟨_, _, _, rfl, rfl, Or.inr ⟨rfl, rfl⟩, nofun⟩
    | eq => exact ⟨_, _, _, rfl, length_set, Or.inr ⟨rfl, rfl⟩, nofun⟩
  | towardMin =>
    rw [link]
    by_cases hlt : leftRoot < rightRoot
    · rw [if_pos hlt]
      exact ⟨_, _, _, rfl, rfl, Or.inr ⟨rfl, rfl⟩, fun _ => hlt.le⟩
    · rw [if_neg hlt]
      exact ⟨_, _, _, rfl, rfl, Or.inl ⟨rfl, rfl⟩, fun _ => not_lt.mp hlt⟩

theorem Classes.unite (h : Classes s label pairs) (strategy : Strategy) {left right : Nat} (hleft : left < s.len)
    (hright : right < s.len) : ∃ merged s' label', DisjointSet.unite strategy s left right = some (merged, s') ∧
      (merged = true ↔ ¬ Related pairs left right) ∧ s'.len = s.len ∧ Classes s' label' (pairs ++ [(left, right)]) ∧
      (strategy = .towardMin → (∀ i, label i ≤ i) → ∀ i, label' i ≤ i) := by
  obtain ⟨s₁, hfind₁, hlen₁, h₁⟩ := h.find_eq hleft
  obtain ⟨s₂, hfind₂, hlen₂, h₂⟩ := h₁.find_eq (hlen₁ ▸ hright)
  have hlen := hlen₂.trans hlen₁
  have hrelated : label left = label right ↔ Related pairs left right := h.separates left right
  rw [DisjointSet.unite, hfind₁, Option.bind_eq_bind, Option.bind_some]
  dsimp only
  rw [hfind₂, Option.bind_some]
  dsimp only
  by_cases heq : label left = label right
  · rw [if_pos heq]
    exact ⟨false, s₂, label, rfl, iff_of_false Bool.false_ne_true (not_not_intro (hrelated.mp heq)), hlen,
      ⟨h₂.forested, h₂.rank_length, h₂.separates.join_same heq⟩, fun _ hmin => hmin⟩
  · have hlabel : ∀ i < s.len, label i < s₂.rank.length := by
      intro i hi
      obtain ⟨depth, hforest⟩ := h₂.forested
      rw [h₂.rank_length]
      exact (hforest.up_label i).2 (lt_of_lt_of_eq hi hlen.symm)
    obtain ⟨lost, kept, rank, hlink, hrank, hends, hle⟩ := link_eq strategy (hlabel left hleft) (hlabel right hright)
    rw [if_neg heq, hlink]
    refine ⟨true, _, fun i => if label i = lost then kept else label i, rfl,
      iff_of_true rfl fun hr => heq (hrelated.mpr hr), length_set.trans hlen,
      h₂.link (hlen ▸ hleft) (hlen ▸ hright) heq hends hrank, fun hstrategy hmin i => ?_⟩
    dsimp only
    split
    · next hi => exact (hle hstrategy).trans (hi ▸ hmin i)
    · exact hmin i

theorem Classes.run (strategy : Strategy) {ops : List Op} : ∀ {s : DisjointSet} {label : Nat → Nat} {pairs : List (Nat × Nat)},
    Classes s label pairs → InRange s.len ops → ∃ s' label', DisjointSet.run strategy s ops = some s' ∧
      Classes s' label' (pairs ++ united ops) ∧
      (strategy = .towardMin → (∀ i, label i ≤ i) → ∀ i, label' i ≤ i) := by
  induction ops with
  | nil => exact fun {s label pairs} h _ => ⟨s, label, rfl, (append_nil pairs).symm ▸ h, fun _ hmin => hmin⟩
  | cons op ops ih =>
    intro s label pairs h hrange
    cases op with
    | push =>
      have hlen : s.push.2.len = s.len + 1 := length_append
      exact ih h.push (hlen.symm ▸ hrange)
    | find index =>
      obtain ⟨s₁, hfind, hlen, h₁⟩ := h.find_eq hrange.1
      obtain ⟨s', label', hrun, hspec⟩ := ih h₁ (hlen.symm ▸ hrange.2)
      refine ⟨s', label', ?_, hspec⟩
      rw [DisjointSet.run, foldlM_cons, apply, hfind]
      exact hrun
    | root index =>
      obtain ⟨s', label', hrun, hspec⟩ := ih h hrange.2
      refine ⟨s', label', ?_, hspec⟩
      rw [DisjointSet.run, foldlM_cons, apply, h.root_eq hrange.1]
      exact hrun
    | unite left right =>
      obtain ⟨merged, s₁, label₁, hunite, _, hlen, h₁, hmin₁⟩ := h.unite strategy hrange.1.1 hrange.1.2
      obtain ⟨s', label', hrun, h', hmin⟩ := ih h₁ (hlen.symm ▸ hrange.2)
      refine ⟨s', label', ?_, ?_, fun hs hle => hmin hs (hmin₁ hs hle)⟩
      · rw [DisjointSet.run, foldlM_cons, apply, hunite]
        exact hrun
      · rwa [append_assoc] at h'

/-- In every forest that a run leads to, `find` and `root` name one representative for each class
of the pairs united so far, the smallest member where merges keep the smaller root; a search
moves no representative, and a merge tells whether it joined two classes. -/
theorem disjointSet_closure (strategy : Strategy) (len : Nat) (ops : List Op) (h : InRange len ops) :
    ∃ (s : DisjointSet) (label : Nat → Nat), run strategy (new len) ops = some s ∧
      (∀ a < s.len, ∃ s', s.find a = some (label a, s') ∧ s.root a = some (label a) ∧
        s'.len = s.len ∧ ∀ b < s.len, s'.root b = s.root b) ∧
      (∀ a < s.len, ∀ b < s.len, label a = label b ↔ Related (united ops) a b) ∧
      (∀ left < s.len, ∀ right < s.len, ∃ merged s', unite strategy s left right = some (merged, s') ∧
        (merged = true ↔ ¬ Related (united ops) left right)) ∧
      (strategy = .towardMin → ∀ a < s.len, Related (united ops) a (label a) ∧
        ∀ b, Related (united ops) a b → label a ≤ b) := by
  have hnew : Classes (new len) (fun i => i) [] :=
    ⟨⟨_, Forested.initial len⟩, by simp only [new, DisjointSet.len, length_replicate, length_range], separates_nil⟩
  have hlen : (new len).len = len := length_range
  obtain ⟨s, label, hrun, hclasses, hmin⟩ := hnew.run strategy (hlen.symm ▸ h)
  rw [nil_append] at hclasses
  refine ⟨s, label, hrun, fun a ha => ?_, fun a _ b _ => hclasses.separates a b, fun left hl right hr => ?_,
    fun hs a _ => ⟨?_, fun b hab => ?_⟩⟩
  · obtain ⟨s', hfind, hlen', h'⟩ := hclasses.find_eq ha
    refine ⟨s', hfind, hclasses.root_eq ha, hlen', fun b hb => ?_⟩
    rw [h'.root_eq (hlen'.symm ▸ hb), hclasses.root_eq hb]
  · obtain ⟨merged, s', _, hunite, hmerged, _⟩ := hclasses.unite strategy hl hr
    exact ⟨merged, s', hunite, hmerged⟩
  · obtain ⟨depth, hforest⟩ := hclasses.forested
    exact (hclasses.separates a (label a)).mp (hforest.label_root _ (hforest.up_label a).1).symm
  · rw [(hclasses.separates a b).mpr hab]
    exact hmin hs (fun i => le_rfl) b

/-- Three merges, a search between them and one more element. -/
theorem disjointSet_closure_fourElements :
    ∃ (s : DisjointSet) (label : Nat → Nat), run .towardMin (new 4) [.unite 3 2, .unite 2 1, .find 3, .push, .unite 4 0] = some s ∧
      (∀ a < s.len, ∃ s', s.find a = some (label a, s') ∧ s.root a = some (label a) ∧
        s'.len = s.len ∧ ∀ b < s.len, s'.root b = s.root b) ∧ ∀ b, Related [(3, 2), (2, 1), (4, 0)] 3 b → label 3 ≤ b := by
  obtain ⟨s, label, hrun, hfind, _, _, hmin⟩ := disjointSet_closure .towardMin 4
    [.unite 3 2, .unite 2 1, .find 3, .push, .unite 4 0] (by simp [InRange])
  obtain ⟨s₀, hs₀, hlen₀⟩ : ∃ s₀, run .towardMin (new 4) [.unite 3 2, .unite 2 1, .find 3, .push, .unite 4 0] = some s₀ ∧
      s₀.len = 5 := ⟨_, rfl, rfl⟩
  obtain rfl : s = s₀ := Option.some.inj (hrun.symm.trans hs₀)
  exact ⟨s, label, hrun, hfind, (hmin rfl 3 (by omega)).2⟩

end DisjointSet

end CfgLib
