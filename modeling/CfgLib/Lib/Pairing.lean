import CfgLib.Lib.FiniteMap
import Mathlib.Data.List.Perm.Basic
import Mathlib.Data.List.Nodup
import Mathlib.Data.Set.Function

/-!
# One-to-one pairings

A partial pairing of two sets kept as two finite maps, one for each way to look
a pair up.  The maps stay inverse to each other when two free elements are
paired, and a pairing of two lists splits each of them into its paired and its
free elements.
-/

namespace CfgLib.Lib

variable {K V : Type} {f : FiniteMap K V} {g : FiniteMap V K}

/-- Both maps hold the same pairs. -/
def Inverse (f : FiniteMap K V) (g : FiniteMap V K) : Prop :=
  ∀ k v, f.get k = some v ↔ g.get v = some k

namespace Inverse

theorem injective (h : Inverse f g) {k k' : K} {v : V} (hk : f.get k = some v) (hk' : f.get k' = some v) :
    k = k' := by
  have hv := (h k v).mp hk
  rw [(h k' v).mp hk'] at hv
  exact (Option.some.inj hv).symm

theorem empty : Inverse (FiniteMap.empty : FiniteMap K V) .empty := fun _ _ => by simp

theorem insert [DecidableEq K] [DecidableEq V] (h : Inverse f g) {k : K} {v : V} (hk : f.get k = none)
    (hv : g.get v = none) : Inverse (f.insert k v) (g.insert v k) := by
  intro a b
  rw [FiniteMap.get_insert, FiniteMap.get_insert]
  by_cases ha : a = k
  · subst ha
    rw [if_pos rfl]
    by_cases hb : b = v
    · simp [hb]
    · rw [if_neg hb, ← h a b, hk]
      exact ⟨fun he => absurd (Option.some.inj he).symm hb, fun he => by cases he⟩
  · rw [if_neg ha]
    by_cases hb : b = v
    · subst hb
      rw [if_pos rfl, h a b, hv]
      exact ⟨fun he => (by cases he), fun he => absurd (Option.some.inj he).symm ha⟩
    · rw [if_neg hb]
      exact h a b

theorem paired_perm (h : Inverse f g) {l : List K} {l' : List V} (hl : l.Nodup) (hl' : l'.Nodup)
    (hleft : ∀ k v, f.get k = some v → k ∈ l) (hright : ∀ k v, f.get k = some v → v ∈ l') :
    (l.filterMap f.get).Perm (l'.filter fun v => (g.get v).isSome) := by
  rw [List.perm_ext_iff_of_nodup (hl.filterMap ?_) (hl'.filter _)]
  · intro v
    rw [List.mem_filterMap, List.mem_filter, Option.isSome_iff_exists]
    constructor
    · rintro ⟨k, _, hk⟩
      exact ⟨hright k v hk, k, (h k v).mp hk⟩
    · rintro ⟨_, k, hk⟩
      have hv := (h k v).mpr hk
      exact ⟨k, hleft k v hv, hv⟩
  · intro k k' v hk hk'
    exact h.injective hk hk'

theorem split_perm (h : Inverse f g) {l : List K} {l' : List V} (hl : l.Nodup) (hl' : l'.Nodup)
    (hleft : ∀ k v, f.get k = some v → k ∈ l) (hright : ∀ k v, f.get k = some v → v ∈ l') :
    (l.filterMap f.get ++ l'.filter fun v => (g.get v).isNone).Perm l' := by
  refine ((h.paired_perm hl hl' hleft hright).append_right _).trans ?_
  have hnone : (fun v => (g.get v).isNone) = fun v => !(g.get v).isSome := by
    funext v
    exact (Option.not_isSome (g.get v)).symm
  rw [hnone]
  exact List.filter_append_perm _ l'

end Inverse

end CfgLib.Lib
