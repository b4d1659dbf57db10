import Mathlib.Data.List.Basic
import Mathlib.Data.List.Nodup
import Mathlib.Data.List.Flatten

/-!
# Forests given by a parent table

Ancestors in a parent table, and the preorder of a forest of dense nodes in
which siblings come in ascending order: a subtree lists the descendants of its
root, once each, and occupies a stretch of every preorder that contains it.
-/

namespace CfgLib.Lib

/-- `a` is `b` or one of its ancestors in the parent table. -/
inductive Anc (parent : Nat → Option Nat) (a : Nat) : Nat → Prop
  | refl : Anc parent a a
  | step {b c : Nat} : parent b = some c → Anc parent a c → Anc parent a b

variable {a b c : Nat}

theorem Anc.mono {parent parent' : Nat → Option Nat}
    (h : ∀ k j, parent k = some j → parent' k = some j) (hab : Anc parent a b) :
    Anc parent' a b := by
  induction hab with
  | refl => exact .refl
  | step hp _ ih => exact .step (h _ _ hp) ih

theorem Anc.trans {parent : Nat → Option Nat} (hab : Anc parent a b) (hbc : Anc parent b c) : Anc parent a c := by
  induction hbc with
  | refl => exact hab
  | step hp _ ih => exact .step hp ih

theorem Anc.parent {parent : Nat → Option Nat} (hab : Anc parent a b) (hne : a ≠ b)
    (hp : parent b = some c) : Anc parent a c := by
  cases hab with
  | refl => exact absurd rfl hne
  | step hp' hac =>
    rw [hp] at hp'
    cases hp'
    exact hac

theorem Anc.linear {parent : Nat → Option Nat} (hac : Anc parent a c)
    (hbc : Anc parent b c) : Anc parent a b ∨ Anc parent b a := by
  induction hac with
  | refl => exact Or.inr hbc
  | @step c d hp hac ih =>
    by_cases hb : b = c
    · exact Or.inl (hb ▸ .step hp hac)
    · exact ih (hbc.parent hb hp)

/-- A forest of nodes below `bound`, ranked so that parents come before children. -/
structure Forest where
  bound : Nat
  parent : Nat → Option Nat
  rank : Nat → Nat
  top : Nat
  parent_lt : ∀ c p, parent c = some p → c < bound
  rank_lt : ∀ c p, parent c = some p → rank p < rank c
  rank_le : ∀ v, rank v ≤ top

namespace Forest

variable (F : Forest)

/-- The children of a node, in ascending order. -/
def kids (v : Nat) : List Nat := (List.range F.bound).filter fun c => F.parent c = some v

variable {F}

variable {a b c u v : Nat}

@[simp] theorem mem_kids : c ∈ F.kids v ↔ F.parent c = some v := by
  simp only [kids, List.mem_filter, List.mem_range, decide_eq_true_eq, and_iff_right_iff_imp]
  exact F.parent_lt c v

theorem kids_nodup (v : Nat) : (F.kids v).Nodup := List.nodup_range.filter _

variable (F) in
/-- The subtree of a node in preorder. -/
def flat (v : Nat) : List Nat :=
  v :: (F.kids v).attach.flatMap fun c => flat c.1
termination_by F.top - F.rank v
decreasing_by
  have hc := mem_kids.mp c.2
  have := F.rank_lt c.1 v hc
  have := F.rank_le c.1
  omega

theorem flat_eq (v : Nat) : F.flat v = v :: (F.kids v).flatMap F.flat := by
  rw [flat]
  simp

/-- Induction from the leaves up. -/
theorem kids_induction {P : Nat → Prop} (h : ∀ v, (∀ c, F.parent c = some v → P c) → P v) (v : Nat) :
    P v := by
  generalize hm : F.top - F.rank v = m
  induction m using Nat.strongRecOn generalizing v with
  | ind m ih =>
    apply h
    intro c hc
    have h₁ := F.rank_lt c v hc
    have h₂ := F.rank_le c
    exact ih (F.top - F.rank c) (by omega) c rfl

theorem rank_anc (h : Anc F.parent a b) : F.rank a ≤ F.rank b := by
  induction h with
  | refl => exact Nat.le_refl _
  | step hp _ ih =>
    have := F.rank_lt _ _ hp
    omega

theorem exists_root (F : Forest) (v : Nat) : ∃ r, F.parent r = none ∧ Anc F.parent r v := by
  generalize hm : F.rank v = m
  induction m using Nat.strongRecOn generalizing v with
  | ind m ih =>
    cases hp : F.parent v with
    | none => exact ⟨v, hp, .refl⟩
    | some p =>
      obtain ⟨r, hr, hanc⟩ := ih (F.rank p) (by have := F.rank_lt v p hp; omega) p rfl
      exact ⟨r, hr, .step hp hanc⟩

theorem parent_of_anc {F D : Forest} {p : Nat} (h : ∀ a c, Anc F.parent c b → (Anc F.parent a c ↔ Anc D.parent a c))
    (hp : F.parent b = some p) : D.parent b = some p := by
  have hpb : Anc F.parent p b := .step hp .refl
  cases (h p b .refl).mp hpb with
  | refl => exact absurd (F.rank_lt _ _ hp) (Nat.lt_irrefl _)
  | @step _ q hq hpq =>
    have hne : q ≠ b := fun heq => Nat.lt_irrefl _ (heq ▸ D.rank_lt b q hq)
    have hqp := (h q p hpb).mp (Anc.parent ((h q b .refl).mpr (.step hq .refl)) hne hp)
    cases hpq with
    | refl => exact hq
    | step hparent hup =>
      have h₁ := rank_anc hup
      have h₂ := D.rank_lt _ _ hparent
      have h₃ := rank_anc hqp
      omega

theorem self_mem_flat (v : Nat) : v ∈ F.flat v := by
  rw [flat_eq]
  exact List.mem_cons_self

theorem mem_flat : u ∈ F.flat v ↔ Anc F.parent v u := by
  induction v using F.kids_induction generalizing u with
  | h v ih =>
    rw [flat_eq, List.mem_cons, List.mem_flatMap]
    constructor
    · rintro (rfl | ⟨c, hc, hu⟩)
      · exact .refl
      · exact Anc.trans (.step (mem_kids.mp hc) .refl) ((ih c (mem_kids.mp hc)).mp hu)
    · intro h
      induction h with
      | refl => exact Or.inl rfl
      | @step u p hp hvp ihp =>
        right
        rcases ihp with rfl | ⟨c, hc, hpc⟩
        · exact ⟨u, mem_kids.mpr hp, self_mem_flat u⟩
        · exact ⟨c, hc, (ih c (mem_kids.mp hc)).mpr (.step hp ((ih c (mem_kids.mp hc)).mp hpc))⟩

theorem anc_of_mem_flat (hu : u ∈ F.flat v) : Anc F.parent v u := by
  rwa [mem_flat] at hu

theorem anc_root {r : Nat} (hr : F.parent r = none) (h : Anc F.parent a r) : a = r := by
  cases h with
  | refl => rfl
  | step hp _ =>
    rw [hr] at hp
    cases hp

theorem disjoint_flat {d : Nat} (hne : c ≠ d) (hpar : F.parent c = F.parent d)
    (hc : u ∈ F.flat c) (hd : u ∈ F.flat d) : False := by
  have key : ∀ x y, x ≠ y → F.parent x = F.parent y → ¬ Anc F.parent x y := by
    intro x y hxy hp hanc
    cases hanc with
    | refl => exact hxy rfl
    | step hy hx =>
      have h₁ := rank_anc hx
      have h₂ := F.rank_lt x _ (hp.trans hy)
      omega
  rcases Anc.linear (anc_of_mem_flat hc) (anc_of_mem_flat hd) with h | h
  · exact key c d hne hpar h
  · exact key d c (Ne.symm hne) hpar.symm h

/-- Subtrees of distinct nodes with one parent, or of distinct roots, in a row. -/
theorem nodup_flatMap_flat {l : List Nat} (hl : l.Nodup) {p : Option Nat}
    (hp : ∀ c ∈ l, F.parent c = p) (hflat : ∀ c ∈ l, (F.flat c).Nodup) :
    (l.flatMap F.flat).Nodup := by
  rw [List.nodup_flatMap]
  refine ⟨hflat, ?_⟩
  refine List.Pairwise.imp_of_mem ?_ hl
  intro c d hc hd hne u huc hud
  exact disjoint_flat hne ((hp c hc).trans (hp d hd).symm) huc hud

theorem flat_nodup (v : Nat) : (F.flat v).Nodup := by
  induction v using F.kids_induction with
  | h v ih =>
    rw [flat_eq, List.nodup_cons]
    refine ⟨?_, nodup_flatMap_flat (kids_nodup v) (p := some v) (fun c hc => mem_kids.mp hc)
      fun c hc => ih c (mem_kids.mp hc)⟩
    intro hv
    obtain ⟨c, hc, hv⟩ := List.mem_flatMap.mp hv
    have h₁ := rank_anc (anc_of_mem_flat hv)
    have h₂ := F.rank_lt c v (mem_kids.mp hc)
    omega

theorem flat_lt (hv : v < F.bound) (hu : u ∈ F.flat v) : u < F.bound := by
  rcases anc_of_mem_flat hu with _ | ⟨hp, _⟩
  · exact hv
  · exact F.parent_lt _ _ hp

theorem flat_length_le (hv : v < F.bound) : (F.flat v).length ≤ F.bound := by
  have hsub : F.flat v ⊆ List.range F.bound := fun u hu => List.mem_range.mpr (flat_lt hv hu)
  simpa using List.Nodup.length_le_of_subset (flat_nodup v) hsub

end Forest

end CfgLib.Lib
