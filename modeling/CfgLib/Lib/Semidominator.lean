import CfgLib.Lib.Dominance
import CfgLib.Lib.Forest

/-!
# Semidominators

The theory behind the Lengauer-Tarjan algorithm, over a graph whose vertices
are their own depth-first numbers.  A depth-first tree is a parent table in
which every edge that climbs in number stays inside a subtree, and in which
subtrees are intervals; from these two facts follow the characterization of
semidominators by predecessors and of immediate dominators by semidominators.
-/

namespace CfgLib.Lib

open Relation

/-- A depth-first spanning tree of the numbers below `n`, numbered in preorder. -/
structure DfsTree (n : Nat) (E : Nat → Nat → Prop) (parent : Nat → Option Nat) : Prop where
  root : parent 0 = none
  parent_some : ∀ k, 0 < k → k < n →
    ∃ j, parent k = some j ∧ j < k ∧ E j k ∧ Anc parent j (k - 1)
  forward : ∀ v w, E v w → v < w → w < n → Anc parent v w
  edge_lt : ∀ v w, E v w → v < n → w < n

/-- A path from `v` to `w` whose interior is numbered above `w`. -/
def SemiPath (E : Nat → Nat → Prop) (w v : Nat) : Prop :=
  ∃ y, ReflTransGen (fun a b => E a b ∧ w < b) v y ∧ E y w

structure IsSemi (E : Nat → Nat → Prop) (w s : Nat) : Prop where
  path : SemiPath E w s
  least : ∀ v, SemiPath E w v → s ≤ v

/-- The relative dominator of `v`: its semidominator when nothing between the
two has a smaller one, and otherwise the vertex between with the smallest. -/
def IsRelative (parent : Nat → Option Nat) (semi : Nat → Nat) (v d : Nat) : Prop :=
  (d = semi v ∧ ∀ u, semi v < u → Anc parent u v → semi v ≤ semi u) ∨
    (semi v < d ∧ Anc parent d v ∧ semi d < semi v ∧
      ∀ u, semi v < u → Anc parent u v → semi d ≤ semi u)

namespace DfsTree

variable {n : Nat} {E : Nat → Nat → Prop} {parent : Nat → Option Nat}

/-! ## Ancestors -/

variable {a b c j s w x : Nat}

section

variable (h : DfsTree n E parent)
include h

theorem parent_lt {k : Nat} (hk : k < n) (hp : parent k = some j) : j < k := by
  by_cases h0 : k = 0
  · rw [h0, h.root] at hp
    cases hp
  · obtain ⟨j', hj', hlt, _⟩ := h.parent_some k (by omega) hk
    rw [hp] at hj'
    cases hj'
    exact hlt

theorem anc_le (hb : b < n) (hab : Anc parent a b) : a ≤ b := by
  induction hab with
  | refl => exact Nat.le_refl _
  | step hp _ ih =>
    have := h.parent_lt hb hp
    have := ih (by omega)
    omega

/-- Subtrees are intervals of numbers. -/
theorem anc_of_between (hb : b < n) (hab : Anc parent a b) (hac : a ≤ c) (hcb : c ≤ b) : Anc parent a c := by
  obtain ⟨k, rfl⟩ : ∃ k, b = c + k := ⟨b - c, by omega⟩
  clear hcb
  induction k with
  | zero => exact hab
  | succ k ih =>
    apply ih (by omega)
    obtain ⟨j, hj, _, _, hanc⟩ := h.parent_some (c + (k + 1)) (by omega) hb
    exact (hab.parent (by omega) hj).trans hanc

theorem anc_of_le (hc : c < n) (hac : Anc parent a c) (hbc : Anc parent b c) (hab : a ≤ b) : Anc parent a b :=
  h.anc_of_between hc hac hab (h.anc_le hc hbc)

theorem tree_path (hb : b < n) (hab : Anc parent a b) :
    ReflTransGen (fun x y => E x y ∧ Anc parent a y ∧ Anc parent y b ∧ a < y) a b := by
  induction hab with
  | refl => exact .refl
  | @step b c hp hac ih =>
    have hcb := h.parent_lt hb hp
    have hle := h.anc_le (by omega) hac
    have hedge : E c b := by
      obtain ⟨j, hj, _, he, _⟩ := h.parent_some b (by omega) hb
      rw [hp] at hj
      cases hj
      exact he
    refine ReflTransGen.tail (ReflTransGen.mono ?_ _ _ (ih (by omega)))
      ⟨hedge, .step hp hac, .refl, by omega⟩
    rintro x y ⟨he, hay, hyc, hlt⟩
    exact ⟨he, hay, .step hp hyc, hlt⟩

theorem anc_root (hb : b < n) : Anc parent 0 b := by
  induction b using Nat.strongRecOn with
  | ind b ih =>
    by_cases h0 : b = 0
    · subst h0; exact .refl
    · obtain ⟨j, hj, hlt, _⟩ := h.parent_some b (by omega) hb
      exact .step hj (ih j hlt (by omega))

/-! ## Paths and least vertices -/

/-- A path that never falls below its start stays inside the start's subtree. -/
theorem anc_of_path {m y : Nat} (hm : m < n)
    (hpath : ReflTransGen (fun a b => E a b ∧ m ≤ b) m y) : y < n ∧ Anc parent m y := by
  induction hpath with
  | refl => exact ⟨hm, .refl⟩
  | @tail y z _ he ih =>
    obtain ⟨hy, hanc⟩ := ih
    have hz := h.edge_lt y z he.1 hy
    refine ⟨hz, ?_⟩
    rcases Nat.lt_or_ge y z with hlt | hge
    · exact hanc.trans (h.forward y z he.1 hlt hz)
    · exact h.anc_of_between hy hanc he.2 hge

end

/-- On a path above `x` out of `a`, the least vertex `b` starts a path that stays
in its subtree, and `a` reaches it through vertices above it. -/
theorem least_on_path {y : Nat} {S : Nat → Prop} (hac : E a c) (hc : x < c) (hSc : S c)
    (hpath : ReflTransGen (fun u v => E u v ∧ x < v ∧ S v) c y) :
    ∃ b, x < b ∧ S b ∧ SemiPath E b a ∧ ReflTransGen (fun u v => E u v ∧ b ≤ v) b y ∧
      ReflTransGen (fun u v => E u v ∧ x < v ∧ S v) c b := by
  induction hpath with
  | refl => exact ⟨c, hc, hSc, ⟨a, .refl, hac⟩, .refl, .refl⟩
  | @tail y z hcy he ih =>
    obtain ⟨b, hxb, hSb, ⟨e, hae, heb⟩, hby, hcb⟩ := ih
    rcases Nat.lt_or_ge z b with hlt | hge
    · -- the new vertex is the least so far
      refine ⟨z, he.2.1, he.2.2, ⟨y, ?_, he.1⟩, .refl, hcy.tail he⟩
      have h₁ : ReflTransGen (fun u v => E u v ∧ z < v) a e :=
        ReflTransGen.mono (fun u v huv => ⟨huv.1, by omega⟩) _ _ hae
      have h₂ : ReflTransGen (fun u v => E u v ∧ z < v) b y :=
        ReflTransGen.mono (fun u v huv => ⟨huv.1, by omega⟩) _ _ hby
      exact (h₁.tail ⟨heb, hlt⟩).trans h₂
    · exact ⟨b, hxb, hSb, ⟨e, hae, heb⟩, hby.tail ⟨he.1, hge⟩, hcb⟩

/-! ## Semidominators -/

variable {semi : Nat → Nat}

section

variable (h : DfsTree n E parent)
include h

theorem semiPath_parent (hw : w < n) (hp : parent w = some j) : SemiPath E w j := by
  obtain ⟨j', hj', _, he, _⟩ := h.parent_some w
    (by have := h.parent_lt hw hp; omega) hw
  rw [hp] at hj'
  cases hj'
  exact ⟨j, .refl, he⟩

theorem semi_le_parent (hw : w < n) (hs : IsSemi E w s) (hp : parent w = some j) : s ≤ j :=
  hs.least j (h.semiPath_parent hw hp)

theorem semi_lt (h0 : 0 < w) (hw : w < n) (hs : IsSemi E w s) : s < w := by
  obtain ⟨j, hj, hlt, _⟩ := h.parent_some w h0 hw
  have := h.semi_le_parent hw hs hj
  omega

/-- The semidominator of a vertex is one of its ancestors. -/
theorem anc_semi (h0 : 0 < w) (hw : w < n) (hs : IsSemi E w s) : Anc parent s w := by
  have hlt := h.semi_lt h0 hw hs
  obtain ⟨y, hpath, he⟩ := hs.path
  have hpath' : ReflTransGen (fun a b => E a b ∧ s ≤ b) s w :=
    ReflTransGen.tail (ReflTransGen.mono (fun a b hab => ⟨hab.1, by omega⟩) _ _ hpath)
      ⟨he, by omega⟩
  exact (h.anc_of_path (by omega) hpath').2

/-- The least candidate over the predecessors is the semidominator: the number
of a predecessor below, or the least semidominator on the tree path to one above. -/
theorem isSemi_of_predecessors (h0 : 0 < w) (hw : w < n)
    (hsemi : ∀ u, w < u → u < n → IsSemi E u (semi u)) (hcand : s = w ∨ ∃ v, E v w ∧ v < n ∧ (v < w ∧ s = v ∨
      ∃ u, w < u ∧ Anc parent u v ∧ s = semi u)) (hbelow : ∀ v, E v w → v < n → v < w → s ≤ v)
    (habove : ∀ v u, E v w → v < n → w < u → Anc parent u v → s ≤ semi u) : IsSemi E w s := by
  have hleast : ∀ v, v < n → SemiPath E w v → s ≤ v ∨ w ≤ v := by
    rintro v hv ⟨y, hpath, he⟩
    rcases hpath.cases_head with rfl | ⟨c, hvc, hcy⟩
    · rcases Nat.lt_or_ge v w with hlt | hge
      · exact Or.inl (hbelow v he hv hlt)
      · exact Or.inr hge
    · -- the least vertex above `w` on the path has a semidominator below its start
      have hcy' : ReflTransGen (fun u v => E u v ∧ w < v ∧ True) c y :=
        ReflTransGen.mono (fun _ _ hab => ⟨hab.1, hab.2, trivial⟩) _ _ hcy
      obtain ⟨b, hwb, _, hvb, hby, hcb⟩ := least_on_path hvc.1 hvc.2 trivial hcy'
      have hb : b < n := by
        have hc := h.edge_lt v c hvc.1 hv
        have : ∀ z, ReflTransGen (fun u v => E u v ∧ w < v ∧ True) c z → z < n := by
          intro z hz
          induction hz with
          | refl => exact hc
          | tail _ he ih => exact h.edge_lt _ _ he.1 ih
        exact this b hcb
      obtain ⟨hy, hanc⟩ := h.anc_of_path hb hby
      have h₁ := habove y b he hy hwb hanc
      have h₂ := (hsemi b hwb hb).least v hvb
      exact Or.inl (by omega)
  have hs_lt : s < w := by
    obtain ⟨j, hj, hlt, he, _⟩ := h.parent_some w h0 hw
    have := hbelow j he (by omega) hlt
    omega
  refine ⟨?_, ?_⟩
  · rcases hcand with rfl | ⟨v, he, hv, ⟨_, rfl⟩ | ⟨u, hwu, hanc, rfl⟩⟩
    · omega
    · exact ⟨s, .refl, he⟩
    · have hu : u < n := by have := h.anc_le hv hanc; omega
      obtain ⟨y, hpath, hyu⟩ := (hsemi u hwu hu).path
      have h₁ : ReflTransGen (fun a b => E a b ∧ w < b) (semi u) y :=
        ReflTransGen.mono (fun a b hab => ⟨hab.1, by omega⟩) _ _ hpath
      have h₂ : ReflTransGen (fun a b => E a b ∧ w < b) u v :=
        ReflTransGen.mono (fun a b hab => ⟨hab.1, by omega⟩) _ _ (h.tree_path hv hanc)
      exact ⟨v, (h₁.tail ⟨hyu, hwu⟩).trans h₂, he⟩
  · intro v hv
    rcases Nat.lt_or_ge v n with hvn | hvn
    · rcases hleast v hvn hv with hle | hge <;> omega
    · omega

/-! ## Dominators -/

theorem anc_of_dominates (hw : w < n) (hdom : Dominates E 0 x w) : Anc parent x w := by
  by_contra hno
  rw [dominates_iff_not_avoids] at hdom
  refine hdom ⟨?_, ReflTransGen.mono ?_ _ _ (h.tree_path hw (h.anc_root hw))⟩
  · rintro rfl
    exact hno (h.anc_root hw)
  · rintro a b ⟨he, _, hanc, _⟩
    exact ⟨he, fun e => hno (e ▸ hanc)⟩

/-- A strict dominator dominates the semidominator. -/
theorem dominates_semi (hw : w < n) (hs : IsSemi E w s) (hdom : StrictlyDominates E 0 x w) : Dominates E 0 x s := by
  have hanc := h.anc_of_dominates hw hdom.2
  have hle := h.anc_le hw hanc
  have hlt : x < w := Nat.lt_of_le_of_ne hle hdom.1
  rw [dominates_iff_not_avoids]
  intro hav
  obtain ⟨y, hpath, he⟩ := hs.path
  have hsy : ReflTransGen (fun a b => E a b ∧ b ≠ x) s y :=
    ReflTransGen.mono (fun a b hab => ⟨hab.1, by omega⟩) _ _ hpath
  have hdom' := hdom.2
  rw [dominates_iff_not_avoids] at hdom'
  exact hdom' ((hav.trans hsy).tail he (Ne.symm hdom.1))

/-- A walk past an ancestor `x` of `w` enters the part of `w`'s tree path below
`x` at a vertex whose semidominator is above `x`. -/
theorem entry_of_avoids (hw : w < n) (hxw : x < w) (hav : Avoids E 0 x w) :
    ∃ b, x < b ∧ b < n ∧ Avoids E 0 x b ∧ Anc parent b w ∧ ∃ a, a < x ∧ SemiPath E b a := by
  have hstate : ∀ y, ReflTransGen (fun u v => E u v ∧ v ≠ x) 0 y → y < n ∧
      (y < x ∨ ∃ a c, a < x ∧ E a c ∧ x < c ∧ c < n ∧ Avoids E 0 x c ∧
        ReflTransGen (fun u v => E u v ∧ x < v ∧ Avoids E 0 x v) c y) := by
    intro y hy
    induction hy with
    | refl =>
      have := hav.1
      exact ⟨by omega, Or.inl (by omega)⟩
    | @tail y z hy he ih =>
      obtain ⟨hyn, hcase⟩ := ih
      have hz := h.edge_lt y z he.1 hyn
      refine ⟨hz, ?_⟩
      have havz : Avoids E 0 x z := ⟨hav.1, hy.tail he⟩
      rcases Nat.lt_or_gt_of_ne he.2 with hlt | hgt
      · exact Or.inl hlt
      rcases hcase with hyx | ⟨a, c, hax, hac, hxc, hcn, havc, hpath⟩
      · exact Or.inr ⟨y, z, hyx, he.1, hgt, hz, havz, .refl⟩
      · exact Or.inr ⟨a, c, hax, hac, hxc, hcn, havc, hpath.tail ⟨he.1, hgt, havz⟩⟩
  obtain ⟨_, hcase⟩ := hstate w hav.2
  rcases hcase with hlt | ⟨a, c, hax, hac, hxc, hcn, havc, hpath⟩
  · omega
  · obtain ⟨b, hxb, havb, hsp, hbw, hcb⟩ := least_on_path hac hxc havc hpath
    have hb : b < n := by
      have : ∀ z, ReflTransGen (fun u v => E u v ∧ x < v ∧ Avoids E 0 x v) c z → z < n := by
        intro z hz
        induction hz with
        | refl => exact hcn
        | tail _ he ih => exact h.edge_lt _ _ he.1 ih
      exact this b hcb
    exact ⟨b, hxb, hb, havb, (h.anc_of_path hb hbw).2, a, hax, hsp⟩

theorem isIdom_semi (h0 : 0 < w) (hw : w < n) (hsemi : ∀ u, 0 < u → u < n → IsSemi E u (semi u))
    (hmin : ∀ u, semi w < u → Anc parent u w → semi w ≤ semi u) : IsIdom E 0 (semi w) w := by
  have hs := hsemi w h0 hw
  have hlt := h.semi_lt h0 hw hs
  refine ⟨⟨by omega, ?_⟩, fun c hc => h.dominates_semi hw hs hc⟩
  rw [dominates_iff_not_avoids]
  intro hav
  obtain ⟨b, hxb, hb, _, hanc, a, hax, hsp⟩ := h.entry_of_avoids hw hlt hav
  have h₁ := hmin b hxb hanc
  have h₂ := (hsemi b (by omega) hb).least a hsp
  omega

/-- Otherwise the vertex between with the smallest semidominator has the same
strict dominators. -/
theorem strictlyDominates_relative {u : Nat} (h0 : 0 < w) (hw : w < n)
    (hsemi : ∀ u, 0 < u → u < n → IsSemi E u (semi u)) (hu : semi w < u) (huw : Anc parent u w)
    (hlt : semi u < semi w) (hmin : ∀ v, semi w < v → Anc parent v w → semi u ≤ semi v) (x : Nat) :
    StrictlyDominates E 0 x w ↔ StrictlyDominates E 0 x u := by
  have hun : u < n := Nat.lt_of_le_of_lt (h.anc_le hw huw) hw
  have hsw := hsemi w h0 hw
  have hsu := hsemi u (by omega) hun
  constructor
  · intro hx
    have hxs := h.anc_le (by have := h.semi_lt h0 hw hsw; omega)
      (h.anc_of_dominates (by have := h.semi_lt h0 hw hsw; omega) (h.dominates_semi hw hsw hx))
    refine ⟨by omega, ?_⟩
    have hdom := hx.2
    rw [dominates_iff_not_avoids] at hdom ⊢
    intro hav
    exact hdom (hav.trans (ReflTransGen.mono (fun a b hab => ⟨hab.1, by omega⟩) _ _
      (h.tree_path hw huw)))
  · intro hx
    have hxs := h.anc_le (by have := h.semi_lt (by omega) hun hsu; omega)
      (h.anc_of_dominates (by have := h.semi_lt (by omega) hun hsu; omega)
        (h.dominates_semi hun hsu hx))
    have huw' := h.anc_le hw huw
    refine ⟨by omega, ?_⟩
    rw [dominates_iff_not_avoids]
    intro hav
    obtain ⟨b, hxb, hb, havb, hanc, a, hax, hsp⟩ := h.entry_of_avoids hw (by omega) hav
    have hsb := (hsemi b (by omega) hb).least a hsp
    -- the entry is above the semidominator of `w`, hence above `u`
    have hbs : b ≤ semi w := by
      by_contra hc
      have := hmin b (by omega) hanc
      omega
    have hbu := h.anc_of_le hw hanc huw (by omega)
    have hdom := hx.2
    rw [dominates_iff_not_avoids] at hdom
    exact hdom (havb.trans (ReflTransGen.mono (fun a b hab => ⟨hab.1, by omega⟩) _ _
      (h.tree_path hun hbu)))

/-- Resolving relative dominators in ascending order yields immediate dominators. -/
theorem isIdom_relative {d i : Nat} (h0 : 0 < w) (hw : w < n)
    (hsemi : ∀ u, 0 < u → u < n → IsSemi E u (semi u)) (hrel : IsRelative parent semi w d)
    (hi : if d = semi w then i = d else IsIdom E 0 i d) : IsIdom E 0 i w := by
  rcases hrel with ⟨rfl, hmin⟩ | ⟨hd, hanc, hlt, hmin⟩
  · rw [if_pos rfl] at hi
    subst hi
    exact h.isIdom_semi h0 hw hsemi hmin
  · rw [if_neg (by omega)] at hi
    have hiff := h.strictlyDominates_relative h0 hw hsemi hd hanc hlt hmin
    exact ⟨(hiff i).mpr hi.strict, fun c hc => hi.least c ((hiff c).mp hc)⟩

end

end DfsTree

end CfgLib.Lib
