import Mathlib.Data.Finset.Basic
import Mathlib.Data.Finset.Erase

/-!
# Finite maps

A partial function with finitely many keys, with what a dictionary offers: reads,
single writes, a merge key by key, and equality that can be decided.
-/

namespace CfgLib.Lib

/-- A partial function and the finite set of its keys. -/
structure FiniteMap (K V : Type) where
  get : K → Option V
  keys : Finset K
  mem_keys : ∀ k, k ∈ keys ↔ (get k).isSome

namespace FiniteMap

variable {K V W : Type}

@[ext] theorem ext {m m' : FiniteMap K V} (h : ∀ k, m.get k = m'.get k) : m = m' := by
  obtain ⟨get, keys, hkeys⟩ := m
  obtain ⟨get', keys', hkeys'⟩ := m'
  obtain rfl : get = get' := funext h
  congr
  ext k
  rw [hkeys, hkeys']

/-- Two maps are equal when they have the same keys and agree on them. -/
instance [DecidableEq K] [DecidableEq V] : DecidableEq (FiniteMap K V) := fun m m' =>
  decidable_of_iff (m.keys = m'.keys ∧ ∀ k ∈ m.keys, m.get k = m'.get k) (by
    constructor
    · rintro ⟨hkeys, hget⟩
      ext1 k
      by_cases hk : k ∈ m.keys
      · exact hget k hk
      · have hk' := hkeys ▸ hk
        rw [m.mem_keys, Bool.not_eq_true, Option.isSome_eq_false_iff, Option.isNone_iff_eq_none] at hk
        rw [m'.mem_keys, Bool.not_eq_true, Option.isSome_eq_false_iff, Option.isNone_iff_eq_none] at hk'
        rw [hk, hk']
    · rintro rfl
      exact ⟨rfl, fun _ _ => rfl⟩)

def empty : FiniteMap K V := ⟨fun _ => none, ∅, fun _ => by simp⟩

def constant [DecidableEq K] (keys : Finset K) (value : V) : FiniteMap K V where
  get k := if k ∈ keys then some value else none
  keys := keys
  mem_keys k := by
    split
    · next hk => simp [hk]
    · next hk => simp [hk]

def insert [DecidableEq K] (m : FiniteMap K V) (key : K) (value : V) : FiniteMap K V where
  get k := if k = key then some value else m.get k
  keys := Insert.insert key m.keys
  mem_keys k := by
    rw [Finset.mem_insert, m.mem_keys]
    split
    · next hk => simp [hk]
    · next hk => simp [hk]

def erase [DecidableEq K] (m : FiniteMap K V) (key : K) : FiniteMap K V where
  get k := if k = key then none else m.get k
  keys := m.keys.erase key
  mem_keys k := by
    rw [Finset.mem_erase, m.mem_keys]
    split
    · next hk => simp [hk]
    · next hk => simp [hk]

def filterMap (f : V → Option W) (m : FiniteMap K V) : FiniteMap K W where
  get k := (m.get k).bind f
  keys := m.keys.filter fun k => ((m.get k).bind f).isSome
  mem_keys k := by
    rw [Finset.mem_filter, m.mem_keys, and_iff_right_iff_imp]
    intro h
    cases hm : m.get k with
    | none =>
      rw [hm] at h
      cases h
    | some _ => rfl

def merge [DecidableEq K] (meet : V → V → V) (m m' : FiniteMap K V) : FiniteMap K V where
  get k := Option.merge meet (m.get k) (m'.get k)
  keys := m.keys ∪ m'.keys
  mem_keys k := by
    rw [Finset.mem_union, m.mem_keys, m'.mem_keys]
    cases m.get k <;> cases m'.get k <;> simp

/-- Adds values to the set under a key, which is there afterwards. -/
def addTo [DecidableEq K] [DecidableEq V] (m : FiniteMap K (Finset V)) (key : K) (values : Finset V) :
    FiniteMap K (Finset V) :=
  m.insert key ((m.get key).getD ∅ ∪ values)

def addUnder [DecidableEq K] [DecidableEq V] (m : FiniteMap K (Finset V)) (keys : Finset K) (value : V) :
    FiniteMap K (Finset V) :=
  m.merge (· ∪ ·) (constant keys {value})

variable [DecidableEq K]

theorem getD_addTo [DecidableEq V] (m : FiniteMap K (Finset V)) (key : K) (values : Finset V) (k : K) (v : V) :
    v ∈ ((m.addTo key values).get k).getD ∅ ↔ v ∈ (m.get k).getD ∅ ∨ (k = key ∧ v ∈ values) := by
  unfold addTo insert
  by_cases hk : k = key
  · simp [hk]
  · simp [hk]

theorem getD_addUnder [DecidableEq V] (m : FiniteMap K (Finset V)) (keys : Finset K) (value : V) (k : K) (v : V) :
    v ∈ ((m.addUnder keys value).get k).getD ∅ ↔ v ∈ (m.get k).getD ∅ ∨ (k ∈ keys ∧ v = value) := by
  change v ∈ (Option.merge (· ∪ ·) (m.get k) (if k ∈ keys then some {value} else none)).getD ∅ ↔ _
  by_cases hk : k ∈ keys
  · cases hm : m.get k with
    | none => simp [hk]
    | some values =>
      rw [if_pos hk]
      exact Finset.mem_union.trans (or_congr_right (Finset.mem_singleton.trans (and_iff_right hk).symm))
  · simp [hk]

omit [DecidableEq K] in
@[simp] theorem get_empty (k : K) : (empty : FiniteMap K V).get k = none := rfl

@[simp] theorem get_constant (keys : Finset K) (value : V) (k : K) :
    (constant keys value).get k = if k ∈ keys then some value else none := rfl

@[simp] theorem get_insert (m : FiniteMap K V) (key : K) (value : V) (k : K) :
    (m.insert key value).get k = if k = key then some value else m.get k := rfl

@[simp] theorem get_erase (m : FiniteMap K V) (key k : K) :
    (m.erase key).get k = if k = key then none else m.get k := rfl

omit [DecidableEq K] in
@[simp] theorem get_filterMap (f : V → Option W) (m : FiniteMap K V) (k : K) :
    (m.filterMap f).get k = (m.get k).bind f := rfl

@[simp] theorem get_merge (meet : V → V → V) (m m' : FiniteMap K V) (k : K) :
    (m.merge meet m').get k = Option.merge meet (m.get k) (m'.get k) := rfl

end FiniteMap

end CfgLib.Lib
