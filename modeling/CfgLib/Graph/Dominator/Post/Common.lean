import CfgLib.Graph.Dominator.Frontier
import CfgLib.Graph.Dominator.Post.Tree

/-!
# Nearest common dominators

`nearest_common_dominator` and its variants in `graph/dominator.rs` and `post.rs`: two
nodes climb, the deeper one first, until they meet.
-/

namespace CfgLib.Dominator

open CfgLib.Lib Relation List DominatorTree

namespace DominatorTree

/-- Climb until the two meet, or until two roots are reached. -/
def meetFrom (t : DominatorTree) : Nat → Nat → Nat → Option Nat
  | 0, _, _ => none
  | fuel + 1, first, second =>
    if first = second then some first
    else match compare (t.levelAt first) (t.levelAt second) with
      | .gt => (t.idomOf first).bind fun first => t.meetFrom fuel first second
      | .lt => (t.idomOf second).bind fun second => t.meetFrom fuel first second
      | .eq => (t.idomOf first).bind fun first => (t.idomOf second).bind fun second => t.meetFrom fuel first second

def nearestCommonDominator (t : DominatorTree) (first second : Nat) : Option Nat :=
  -- each round climbs at least one level
  if t.isReachable first && t.isReachable second then t.meetFrom (t.levelAt first + t.levelAt second + 1) first second
  else none

def nearestCommonDominatorOf (t : DominatorTree) (nodes : List Nat) : Option Nat :=
  match nodes.filter t.isReachable with
  | [] => none
  | node :: rest => rest.foldlM t.nearestCommonDominator node

variable {F : Forest} {roots : List Nat} {t : DominatorTree} {a b : Nat}

section

variable (h : Represents F roots t)
include h

theorem Represents.levelAt_root (ha : a ∈ t.order) : F.parent a = none ↔ t.levelAt a = 0 := by
  constructor
  · intro hp
    have hlevel := h.level_eq ha
    rw [hp, h.level_of_mem ha] at hlevel
    rw [levelAt, show t.levelOf a = some 0 from hlevel]
    rfl
  · intro hzero
    cases hp : F.parent a with
    | none => rfl
    | some p =>
      have := h.levelAt_child ha hp
      omega

/-- What is above both of two nodes is above both once the deeper one has climbed. -/
theorem Represents.anc_climb {c d p : Nat} (hc : c ∈ t.order) (hp : F.parent a = some p) (hne : a ≠ c)
    (hle : t.levelAt c ≤ t.levelAt a) : Anc F.parent d a ∧ Anc F.parent d c ↔ Anc F.parent d p ∧ Anc F.parent d c := by
  refine ⟨fun ⟨hda, hdc⟩ => ⟨hda.parent ?_ hp, hdc⟩, fun ⟨hdp, hdc⟩ => ⟨.step hp hdp, hdc⟩⟩
  rintro rfl
  have := (h.levelAt_anc hdc hc).resolve_left hne
  omega

theorem Represents.mem_meetFrom {d : Nat} : ∀ {fuel a b}, a ∈ t.order → b ∈ t.order →
    t.levelAt a + t.levelAt b < fuel →
      ((∃ c ∈ t.meetFrom fuel a b, Anc F.parent d c) ↔ Anc F.parent d a ∧ Anc F.parent d b) := by
  intro fuel
  induction fuel with
  | zero => exact fun _ _ hlt => absurd hlt (Nat.not_lt_zero _)
  | succ fuel ih =>
    intro a b ha hb hlt
    unfold meetFrom
    by_cases hab : a = b
    · simp [hab]
    have hup : ∀ {v p}, v ∈ t.order → F.parent v = some p → p ∈ t.order ∧ t.levelAt v = t.levelAt p + 1 :=
      fun hv hp => ⟨h.anc_mem_order hv (.step hp .refl), h.levelAt_child hv hp⟩
    rw [if_neg hab, h.parent]
    rcases hcmp : compare (t.levelAt a) (t.levelAt b) with - | - | -
    · have hlevel := Nat.compare_eq_lt.mp hcmp
      obtain ⟨p, hp⟩ := Option.ne_none_iff_exists'.mp fun hnone => by
        have := (h.levelAt_root hb).mp hnone
        omega
      obtain ⟨hpmem, hpl⟩ := hup hb hp
      simp only [hp, Option.bind_some]
      rw [ih ha hpmem (by omega), and_comm, and_comm (a := Anc F.parent d a),
        h.anc_climb ha hp (Ne.symm hab) hlevel.le]
    · have hlevel := Nat.compare_eq_eq.mp hcmp
      cases hp : F.parent a with
      | none =>
        -- two roots have nothing in common
        have hq := (h.levelAt_root hb).mpr (hlevel ▸ (h.levelAt_root ha).mp hp)
        simp only [Option.bind_none, Option.not_mem_none, false_and, exists_false, false_iff]
        exact fun ⟨hda, hdb⟩ => hab ((Forest.anc_root hp hda).symm.trans (Forest.anc_root hq hdb))
      | some p =>
        obtain ⟨hpmem, hpl⟩ := hup ha hp
        obtain ⟨q, hq⟩ := Option.ne_none_iff_exists'.mp fun hnone => by
          have := (h.levelAt_root hb).mp hnone
          omega
        obtain ⟨hqmem, hql⟩ := hup hb hq
        have hpb : b ≠ p := by
          rintro rfl
          omega
        simp only [hq, Option.bind_some]
        rw [ih hpmem hqmem (by omega), h.anc_climb hb hp hab hlevel.ge, and_comm,
          ← h.anc_climb hpmem hq hpb (by omega), and_comm]
    · have hlevel := Nat.compare_eq_gt.mp hcmp
      obtain ⟨p, hp⟩ := Option.ne_none_iff_exists'.mp fun hnone => by
        have := (h.levelAt_root ha).mp hnone
        omega
      obtain ⟨hpmem, hpl⟩ := hup ha hp
      simp only [hp, Option.bind_some]
      rw [ih hpmem hb (by omega), h.anc_climb hb hp hab hlevel.le]

theorem Represents.mem_nearestCommonDominator {d : Nat} (ha : a ∈ t.order) (hb : b ∈ t.order) :
    (∃ c ∈ t.nearestCommonDominator a b, Anc F.parent d c) ↔ Anc F.parent d a ∧ Anc F.parent d b := by
  rw [nearestCommonDominator, h.isReachable_iff.mpr ha, h.isReachable_iff.mpr hb, Bool.and_self, if_pos rfl]
  exact h.mem_meetFrom ha hb (Nat.lt_succ_self _)

theorem Represents.mem_foldlM_nearest {d : Nat} : ∀ {nodes : List Nat} {a}, a ∈ t.order → (∀ v ∈ nodes, v ∈ t.order) →
    ((∃ c ∈ nodes.foldlM t.nearestCommonDominator a, Anc F.parent d c) ↔
      Anc F.parent d a ∧ ∀ v ∈ nodes, Anc F.parent d v) := by
  intro nodes
  induction nodes with
  | nil => simp
  | cons b nodes ih =>
    intro a ha hnodes
    obtain ⟨hb, hnodes⟩ := forall_mem_cons.mp hnodes
    have hpair := fun d => h.mem_nearestCommonDominator (d := d) ha hb
    rw [foldlM_cons, forall_mem_cons, ← and_assoc, ← hpair]
    cases hc : t.nearestCommonDominator a b with
    | none => simp
    | some c =>
      have hmem := h.anc_mem_order ha ((hpair c).mp ⟨c, hc, .refl⟩).1
      simpa using ih hmem hnodes

end

end DominatorTree

namespace PostDominatorTree

def nearestCommonPostDominator (t : PostDominatorTree) (first second : Nat) : Option PostNode :=
  if t.contains first && t.contains second then some (lift (t.tree.nearestCommonDominator first second)) else none

def nearestCommonPostDominatorOf (t : PostDominatorTree) (blocks : List Nat) : Option PostNode :=
  match blocks.filter t.contains with
  | [] => none
  | block :: rest => some (lift (rest.foldlM t.tree.nearestCommonDominator block))

/-- The answer is the virtual exit when no block post-dominates all of `blocks`, and else
the block that is above just what all of them have above them. -/
def IsNearest (g : RootedView) (blocks : List Nat) (meet : PostNode) : Prop :=
  ∀ d, (∃ c, meet = .node c ∧ PostDominates g d c) ↔ ∀ v ∈ blocks, Reached g v → PostDominates g d v

end PostDominatorTree

end CfgLib.Dominator
