import Mathlib.Data.List.Basic
import Mathlib.Logic.Function.Basic

/-!
# Rewrite records

`rewrite.rs`: what a transform did to the identities it touched.  A missing
entry means unchanged, an empty one removed; allocated identities are listed
apart.
-/

namespace CfgLib

/-- Append `value` unless the run already holds it. -/
def pushUnique (run : List Nat) (value : Nat) : List Nat :=
  if value ∈ run then run else run ++ [value]

def unique (values : List Nat) : List Nat := values.foldl pushUnique []

/-- What one axis of a record says: replacements per affected identity. -/
abbrev ReplacementMap := Nat → Option (List Nat)

def replacementsOf (map : ReplacementMap) (identity : Nat) : List Nat :=
  match map identity with
  | some replacements => replacements
  | none => [identity]

/-- Chase every recorded replacement through `next`. -/
def composeAxis (current next : ReplacementMap) : ReplacementMap :=
  fun old => (current old).map fun replacements => unique (replacements.flatMap (replacementsOf next))

def remapCreated (created : List Nat) (mappings : ReplacementMap) : List Nat :=
  unique (created.flatMap (replacementsOf mappings))

/-- Old-to-new block and edge identities of one rewrite. -/
structure Rewrite where
  blocks : ReplacementMap
  edges : ReplacementMap
  createdBlocks : List Nat
  createdEdges : List Nat

/-- The dense answer of a compaction, `none` for what it dropped. -/
structure Renumbering where
  node : Nat → Option Nat
  edge : Nat → Option Nat

namespace Rewrite

def new : Rewrite := ⟨fun _ => none, fun _ => none, [], []⟩

def recordBlock (r : Rewrite) (old : Nat) (replacements : List Nat) : Rewrite :=
  { r with blocks := Function.update r.blocks old (some (unique replacements)) }

def recordEdge (r : Rewrite) (old : Nat) (replacements : List Nat) : Rewrite :=
  { r with edges := Function.update r.edges old (some (unique replacements)) }

def recordCreatedBlock (r : Rewrite) (block : Nat) : Rewrite :=
  { r with createdBlocks := pushUnique r.createdBlocks block }

def recordCreatedEdge (r : Rewrite) (edge : Nat) : Rewrite :=
  { r with createdEdges := pushUnique r.createdEdges edge }

def recordKept (r : Rewrite) (edges : List Nat) : Rewrite :=
  edges.foldl (fun r edge => r.recordEdge edge [edge]) r

def recordRemoved (r : Rewrite) (edges : List Nat) : Rewrite :=
  edges.foldl (fun r edge => r.recordEdge edge []) r

/-- Entries of `next` for identities `current` does not mention are added. -/
def orInsert (current next : ReplacementMap) : ReplacementMap :=
  fun old => (current old).or (next old)

/-- Compose `next`, which ran after `r`, into one mapping. -/
def compose (r next : Rewrite) : Rewrite :=
  let blocks := orInsert (composeAxis r.blocks next.blocks) next.blocks
  let edges := orInsert (composeAxis r.edges next.edges) next.edges
  { blocks := blocks
    edges := edges
    createdBlocks := next.createdBlocks.foldl pushUnique (remapCreated r.createdBlocks blocks)
    createdEdges := next.createdEdges.foldl pushUnique (remapCreated r.createdEdges edges) }

/-- Carry the record across a compaction that ran after it. -/
def thenRenumbered (r : Rewrite) (renumbering : Renumbering) : Rewrite where
  blocks := fun old => (r.blocks old).map (·.filterMap renumbering.node)
  edges := fun old => (r.edges old).map (·.filterMap renumbering.edge)
  createdBlocks := r.createdBlocks.filterMap renumbering.node
  createdEdges := r.createdEdges.filterMap renumbering.edge

end Rewrite

/-! ## Runs without repeats -/

variable {created : List Nat} {k x : Nat}

variable {l run values : List Nat} {y : Nat}

theorem mem_pushUnique {value : Nat} : x ∈ pushUnique run value ↔ x ∈ run ∨ x = value := by
  unfold pushUnique
  split
  · next h =>
    constructor
    · exact Or.inl
    · rintro (hx | rfl)
      · exact hx
      · exact h
  · simp

theorem mem_foldl_pushUnique : x ∈ values.foldl pushUnique run ↔ x ∈ run ∨ x ∈ values := by
  induction values generalizing run with
  | nil => simp
  | cons v values ih =>
    rw [List.foldl_cons, ih, mem_pushUnique, List.mem_cons, or_assoc]

@[simp] theorem mem_unique : x ∈ unique values ↔ x ∈ values := by
  rw [unique, mem_foldl_pushUnique]
  simp

theorem unique_nil : unique [] = [] := rfl

theorem unique_singleton (x : Nat) : unique [x] = [x] := rfl

theorem mem_remapCreated {mappings : ReplacementMap} :
    x ∈ remapCreated created mappings ↔ ∃ y ∈ created, x ∈ replacementsOf mappings y := by
  rw [remapCreated, mem_unique, List.mem_flatMap]

variable {map : ReplacementMap}

theorem replacementsOf_some (h : map x = some l) : replacementsOf map x = l := by
  simp [replacementsOf, h]

theorem replacementsOf_none (h : map x = none) : replacementsOf map x = [x] := by
  simp [replacementsOf, h]

/-! ## Records -/

namespace Rewrite

theorem edges_recordKept (r : Rewrite) (l : List Nat) (e : Nat) :
    (r.recordKept l).edges e = if e ∈ l then some [e] else r.edges e := by
  induction l generalizing r with
  | nil => rfl
  | cons a l ih =>
    change ((r.recordEdge a [a]).recordKept l).edges e = _
    rw [ih]
    by_cases hl : e ∈ l
    · simp [hl]
    · by_cases ha : e = a
      · subst ha; simp [recordEdge, unique_singleton, hl]
      · simp [recordEdge, ha, hl]

theorem edges_recordRemoved (r : Rewrite) (l : List Nat) (e : Nat) :
    (r.recordRemoved l).edges e = if e ∈ l then some [] else r.edges e := by
  induction l generalizing r with
  | nil => rfl
  | cons a l ih =>
    change ((r.recordEdge a []).recordRemoved l).edges e = _
    rw [ih]
    by_cases hl : e ∈ l
    · simp [hl]
    · by_cases ha : e = a
      · subst ha; simp [recordEdge, unique_nil, hl]
      · simp [recordEdge, ha, hl]

@[simp] theorem blocks_recordKept (r : Rewrite) (l : List Nat) :
    (r.recordKept l).blocks = r.blocks := by
  induction l generalizing r with
  | nil => rfl
  | cons a l ih => exact ih _

@[simp] theorem blocks_recordRemoved (r : Rewrite) (l : List Nat) :
    (r.recordRemoved l).blocks = r.blocks := by
  induction l generalizing r with
  | nil => rfl
  | cons a l ih => exact ih _

@[simp] theorem createdBlocks_recordKept (r : Rewrite) (l : List Nat) :
    (r.recordKept l).createdBlocks = r.createdBlocks := by
  induction l generalizing r with
  | nil => rfl
  | cons a l ih => exact ih _

@[simp] theorem createdBlocks_recordRemoved (r : Rewrite) (l : List Nat) :
    (r.recordRemoved l).createdBlocks = r.createdBlocks := by
  induction l generalizing r with
  | nil => rfl
  | cons a l ih => exact ih _

@[simp] theorem createdEdges_recordKept (r : Rewrite) (l : List Nat) :
    (r.recordKept l).createdEdges = r.createdEdges := by
  induction l generalizing r with
  | nil => rfl
  | cons a l ih => exact ih _

@[simp] theorem createdEdges_recordRemoved (r : Rewrite) (l : List Nat) :
    (r.recordRemoved l).createdEdges = r.createdEdges := by
  induction l generalizing r with
  | nil => rfl
  | cons a l ih => exact ih _

end Rewrite

/-! ## Tracking identities

One axis of a record between two states of a graph: which identities are live,
and the bound below which identities have been allocated. -/

structure Axis where
  live : Nat → Prop
  bound : Nat
  lt : ∀ x, live x → x < bound

/-- The record tells the truth about what became of the identities of `A`. -/
structure Tracks (A B : Axis) (map : ReplacementMap) (created : List Nat) : Prop where
  bound_le : A.bound ≤ B.bound
  dom : ∀ x l, map x = some l → x < B.bound
  kept : ∀ x, A.live x → map x = none → B.live x
  replaced : ∀ x l, map x = some l → ∀ y ∈ l, B.live y
  self : ∀ x l, B.live x → map x = some l → x ∈ l
  created_iff : ∀ x, x ∈ created ↔ B.live x ∧ A.bound ≤ x
  old : ∀ x, B.live x → x < A.bound → A.live x

def FreshAt (k : Nat) (map : ReplacementMap) : Prop :=
  ∀ x l, k ≤ x → map x = some l → ∀ y ∈ l, k ≤ y

theorem Tracks.refl (A : Axis) : Tracks A A (fun _ => none) [] where
  bound_le := Nat.le_refl _
  dom := fun _ _ h => by cases h
  kept := fun _ h _ => h
  replaced := fun _ _ h => by cases h
  self := fun _ _ _ h => by cases h
  created_iff := by
    intro x
    constructor
    · intro h
      cases h
    · rintro ⟨hlive, hle⟩
      have := A.lt x hlive
      omega
  old := fun _ h _ => h

variable {A B : Axis}

theorem Tracks.freshAt_bound (h : Tracks A B map created) (hk : B.bound ≤ k) : FreshAt k map := by
  intro x l hx hl
  have := h.dom x l hl
  omega

theorem Tracks.live_replacementsOf (h : Tracks A B map created) (hx : A.live x) (hy : y ∈ replacementsOf map x) :
    B.live y := by
  cases hm : map x with
  | none =>
    rw [replacementsOf_none hm, List.mem_singleton] at hy
    exact hy ▸ h.kept x hx hm
  | some l =>
    rw [replacementsOf_some hm] at hy
    exact h.replaced x l hm y hy

theorem Tracks.mem_replacementsOf_self (h : Tracks A B map created) (hx : B.live x) : x ∈ replacementsOf map x := by
  cases hm : map x with
  | none => simp [replacementsOf_none hm]
  | some l =>
    rw [replacementsOf_some hm]
    exact h.self x l hx hm

theorem FreshAt.le_of_mem (h : FreshAt k map) (hx : k ≤ x) (hy : y ∈ replacementsOf map x) : k ≤ y := by
  cases hm : map x with
  | none =>
    rw [replacementsOf_none hm, List.mem_singleton] at hy
    exact hy ▸ hx
  | some l =>
    rw [replacementsOf_some hm] at hy
    exact h x l hx hm y hy

variable {m₁ m₂ : ReplacementMap}

theorem composed_cases (h : Rewrite.orInsert (composeAxis m₁ m₂) m₂ x = some l) :
    (∃ l₁, m₁ x = some l₁ ∧ l = unique (l₁.flatMap (replacementsOf m₂))) ∨
      (m₁ x = none ∧ m₂ x = some l) := by
  unfold Rewrite.orInsert composeAxis at h
  cases hm : m₁ x with
  | none => exact Or.inr ⟨rfl, by simpa [hm] using h⟩
  | some l₁ => exact Or.inl ⟨l₁, rfl, by simpa [hm] using h.symm⟩

theorem composed_none (h : Rewrite.orInsert (composeAxis m₁ m₂) m₂ x = none) : m₁ x = none ∧ m₂ x = none := by
  unfold Rewrite.orInsert composeAxis at h
  cases hm : m₁ x with
  | none => exact ⟨rfl, by simpa [hm] using h⟩
  | some l₁ => simp [hm] at h

theorem FreshAt.compose (h₁ : FreshAt k m₁)
    (h₂ : FreshAt k m₂) : FreshAt k (Rewrite.orInsert (composeAxis m₁ m₂) m₂) := by
  intro x l hx hl y hy
  rcases composed_cases hl with ⟨l₁, hl₁, rfl⟩ | ⟨_, hl₂⟩
  · obtain ⟨z, hz, hyz⟩ := List.mem_flatMap.mp (mem_unique.mp hy)
    exact h₂.le_of_mem (h₁ x l₁ hx hl₁ z hz) hyz
  · exact h₂ x l hx hl₂ y hy

/-- Records compose, as long as what was allocated since the first state is not
replaced by what was there before. -/
theorem Tracks.compose {C : Axis} {created₁ created₂ : List Nat}
    (h₁ : Tracks A B m₁ created₁) (h₂ : Tracks B C m₂ created₂) (hf₁ : FreshAt A.bound m₁) (hf₂ : FreshAt A.bound m₂) :
    Tracks A C (Rewrite.orInsert (composeAxis m₁ m₂) m₂) (created₂.foldl pushUnique
        (remapCreated created₁ (Rewrite.orInsert (composeAxis m₁ m₂) m₂))) := by
  have hself : ∀ x l, C.live x → Rewrite.orInsert (composeAxis m₁ m₂) m₂ x = some l → x ∈ l := by
    intro x l hx hl
    rcases composed_cases hl with ⟨l₁, hl₁, rfl⟩ | ⟨_, hl₂⟩
    · have hdom := h₁.dom x l₁ hl₁
      have hmid := h₂.old x hx hdom
      exact mem_unique.mpr (List.mem_flatMap.mpr
        ⟨x, h₁.self x l₁ hmid hl₁, h₂.mem_replacementsOf_self hx⟩)
    · exact h₂.self x l hx hl₂
  have hreplaced : ∀ x l, Rewrite.orInsert (composeAxis m₁ m₂) m₂ x = some l →
      ∀ y ∈ l, C.live y := by
    intro x l hl y hy
    rcases composed_cases hl with ⟨l₁, hl₁, rfl⟩ | ⟨_, hl₂⟩
    · obtain ⟨z, hz, hyz⟩ := List.mem_flatMap.mp (mem_unique.mp hy)
      exact h₂.live_replacementsOf (h₁.replaced x l₁ hl₁ z hz) hyz
    · exact h₂.replaced x l hl₂ y hy
  have hbound := h₁.bound_le
  have hbound' := h₂.bound_le
  refine ⟨Nat.le_trans hbound hbound', ?_, ?_, hreplaced, hself, ?_, ?_⟩
  · intro x l hl
    rcases composed_cases hl with ⟨l₁, hl₁, _⟩ | ⟨_, hl₂⟩
    · have := h₁.dom x l₁ hl₁
      omega
    · exact h₂.dom x l hl₂
  · intro x hx hnone
    obtain ⟨hn₁, hn₂⟩ := composed_none hnone
    exact h₂.kept x (h₁.kept x hx hn₁) hn₂
  · intro x
    rw [mem_foldl_pushUnique, mem_remapCreated]
    constructor
    · rintro (⟨y, hy, hxy⟩ | hx)
      · obtain ⟨hymid, hyle⟩ := (h₁.created_iff y).mp hy
        refine ⟨?_, (hf₁.compose hf₂).le_of_mem hyle hxy⟩
        cases hm : Rewrite.orInsert (composeAxis m₁ m₂) m₂ y with
        | none =>
          rw [replacementsOf_none hm, List.mem_singleton] at hxy
          exact hxy ▸ h₂.kept y hymid (composed_none hm).2
        | some l =>
          rw [replacementsOf_some hm] at hxy
          exact hreplaced y l hm x hxy
      · obtain ⟨hlive, hle⟩ := (h₂.created_iff x).mp hx
        exact ⟨hlive, by omega⟩
    · rintro ⟨hlive, hle⟩
      by_cases hnew : B.bound ≤ x
      · exact Or.inr ((h₂.created_iff x).mpr ⟨hlive, hnew⟩)
      · left
        have hmid := h₂.old x hlive (by omega)
        refine ⟨x, (h₁.created_iff x).mpr ⟨hmid, hle⟩, ?_⟩
        cases hm : Rewrite.orInsert (composeAxis m₁ m₂) m₂ x with
        | none => simp [replacementsOf_none hm]
        | some l =>
          rw [replacementsOf_some hm]
          exact hself x l hlive hm
  · intro x hlive hlt
    exact h₁.old x (h₂.old x hlive (by omega)) hlt

end CfgLib
