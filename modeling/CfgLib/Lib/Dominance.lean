import Mathlib.Data.List.Basic
import Mathlib.Logic.Relation

/-!
# Walks and dominance

Dominance in a rooted directed graph, over an arbitrary vertex type: `a`
dominates `b` when every walk from the root to `b` visits `a`.  A vertex fails
to dominate another exactly when some walk avoids it, which is the form in
which dominance is refuted and established below.
-/

namespace CfgLib.Lib

open Relation

variable {V : Type} {E : V → V → Prop} {r a b c : V}

inductive Walk (E : V → V → Prop) (a : V) : V → List V → Prop
  | single : Walk E a a [a]
  | snoc {b c : V} {p : List V} : Walk E a b p → E b c → Walk E a c (p ++ [c])

def Dominates (E : V → V → Prop) (r a b : V) : Prop :=
  ∀ p, Walk E r b p → a ∈ p

def Avoids (E : V → V → Prop) (r a b : V) : Prop :=
  r ≠ a ∧ ReflTransGen (fun x y => E x y ∧ y ≠ a) r b

/-- Dominance by another vertex. -/
def StrictlyDominates (E : V → V → Prop) (r a b : V) : Prop :=
  a ≠ b ∧ Dominates E r a b

structure IsIdom (E : V → V → Prop) (r a b : V) : Prop where
  strict : StrictlyDominates E r a b
  least : ∀ c, StrictlyDominates E r c b → Dominates E r c a

/-! ## Walks -/

theorem Walk.reaches {p : List V} (h : Walk E a b p) : ReflTransGen E a b := by
  induction h with
  | single => exact .refl
  | snoc _ he ih => exact ih.tail he

theorem Walk.target_mem {p : List V} (h : Walk E a b p) : b ∈ p := by
  cases h with
  | single => simp
  | snoc => simp

theorem Walk.source_mem {p : List V} (h : Walk E a b p) : a ∈ p := by
  induction h with
  | single => simp
  | snoc _ _ ih => simp [ih]

/-- A visited vertex ends a shorter walk, strictly shorter unless it is the target. -/
theorem Walk.upTo {p : List V} (h : Walk E a b p) {x : V} (hx : x ∈ p) :
    ∃ q, Walk E a x q ∧ (∀ y ∈ q, y ∈ p) ∧ q.length ≤ p.length ∧ (x ≠ b → q.length < p.length) := by
  induction h with
  | single =>
    obtain rfl := List.mem_singleton.mp hx
    exact ⟨[x], .single, fun _ hy => hy, Nat.le_refl _, fun hne => absurd rfl hne⟩
  | @snoc b c p hw he ih =>
    by_cases hc : x = c
    · subst hc
      exact ⟨p ++ [x], .snoc hw he, fun _ hy => hy, Nat.le_refl _, fun hne => absurd rfl hne⟩
    · have hx' : x ∈ p := by simpa [hc] using hx
      obtain ⟨q, hq, hsub, hlen, _⟩ := ih hx'
      exact ⟨q, hq, fun y hy => by simp [hsub y hy], by simp; omega, fun _ => by simp; omega⟩

theorem reaches_iff_walk : ReflTransGen E a b ↔ ∃ p, Walk E a b p := by
  constructor
  · intro h
    induction h with
    | refl => exact ⟨[a], .single⟩
    | tail _ he ih =>
      obtain ⟨p, hp⟩ := ih
      exact ⟨_, .snoc hp he⟩
  · rintro ⟨p, hp⟩
    exact hp.reaches

theorem avoids_iff_walk : Avoids E r a b ↔ ∃ p, Walk E r b p ∧ a ∉ p := by
  constructor
  · rintro ⟨hne, h⟩
    induction h with
    | refl => exact ⟨[r], .single, by simpa using fun e => hne e.symm⟩
    | tail _ he ih =>
      obtain ⟨p, hp, hnot⟩ := ih
      exact ⟨_, .snoc hp he.1, by simp [hnot, Ne.symm he.2]⟩
  · rintro ⟨p, hp, hnot⟩
    refine ⟨fun e => hnot (e ▸ hp.source_mem), ?_⟩
    induction hp with
    | single => exact .refl
    | snoc _ he ih =>
      simp only [List.mem_append, List.mem_singleton, not_or] at hnot
      exact (ih hnot.1).tail ⟨he, Ne.symm hnot.2⟩

theorem dominates_iff_not_avoids : Dominates E r a b ↔ ¬ Avoids E r a b := by
  rw [avoids_iff_walk]
  simp [Dominates]

/-! ## Dominance -/

theorem Avoids.tail (h : Avoids E r a b) (he : E b c) (hne : c ≠ a) : Avoids E r a c :=
  ⟨h.1, h.2.tail ⟨he, hne⟩⟩

theorem Avoids.trans (h : Avoids E r a b) (h' : ReflTransGen (fun x y => E x y ∧ y ≠ a) b c) :
    Avoids E r a c :=
  ⟨h.1, h.2.trans h'⟩

theorem Avoids.reaches (h : Avoids E r a b) : ReflTransGen E r b :=
  ReflTransGen.mono (fun _ _ he => he.1) _ _ h.2

theorem Dominates.refl (E : V → V → Prop) (r a : V) : Dominates E r a a :=
  fun _ hp => hp.target_mem

theorem Dominates.root (E : V → V → Prop) (r b : V) : Dominates E r r b :=
  fun _ hp => hp.source_mem

theorem Dominates.trans (hab : Dominates E r a b) (hbc : Dominates E r b c) :
    Dominates E r a c := by
  intro p hp
  obtain ⟨q, hq, hsub, _⟩ := hp.upTo (hbc p hp)
  exact hsub a (hab q hq)

/-- Dominance by both of two vertices of each other makes them equal, on what
the root reaches. -/
theorem Dominates.antisymm (hab : Dominates E r a b) (hba : Dominates E r b a)
    (hreach : ReflTransGen E r a) : a = b := by
  by_contra hne
  have hno : ∀ n, ∀ p : List V, p.length ≤ n → ¬ Walk E r a p := by
    intro n
    induction n with
    | zero =>
      intro p hp hw
      have := hw.target_mem
      rw [List.length_eq_zero_iff.mp (Nat.le_zero.mp hp)] at this
      simp at this
    | succ n ih =>
      intro p hp hw
      obtain ⟨q, hq, _, _, hqlt⟩ := hw.upTo (hba p hw)
      obtain ⟨q', hq', _, hle, _⟩ := hq.upTo (hab q hq)
      have := hqlt (Ne.symm hne)
      exact ih q' (by omega) hq'
  obtain ⟨p, hp⟩ := reaches_iff_walk.mp hreach
  exact hno p.length p (Nat.le_refl _) hp

theorem Dominates.reaches (hab : Dominates E r a b) (hreach : ReflTransGen E r b) :
    ReflTransGen E r a := by
  obtain ⟨p, hp⟩ := reaches_iff_walk.mp hreach
  obtain ⟨q, hq, _⟩ := hp.upTo (hab p hp)
  exact hq.reaches

theorem IsIdom.unique (ha : IsIdom E r a b) (hc : IsIdom E r c b) (hreach : ReflTransGen E r b) :
    a = c :=
  (hc.least a ha.strict).antisymm (ha.least c hc.strict) (ha.strict.2.reaches hreach)

theorem IsIdom.dominates_iff (h : IsIdom E r a b) : Dominates E r c b ↔ c = b ∨ Dominates E r c a := by
  constructor
  · intro hc
    by_cases hcb : c = b
    · exact Or.inl hcb
    · exact Or.inr (h.least c ⟨hcb, hc⟩)
  · rintro (rfl | hc)
    · exact Dominates.refl E r c
    · exact hc.trans h.strict.2

/-- A dominator of an edge's head other than the head dominates its tail. -/
theorem Dominates.of_edge (hac : Dominates E r a c) (hne : a ≠ c) (he : E b c) :
    Dominates E r a b := by
  rw [dominates_iff_not_avoids] at hac ⊢
  exact fun hav => hac (hav.tail he (Ne.symm hne))

theorem IsIdom.of_edge (hidom : IsIdom E r a c) (he : E b c) : Dominates E r a b :=
  hidom.strict.2.of_edge hidom.strict.1 he

theorem ne_of_sole (hb : ReflTransGen E r b) (hne : b ≠ r) (hsole : ∀ c, E c b → c = a) : b ≠ a := by
  rintro rfl
  -- a walk that only ever enters `b` from `b` never enters it
  have hno : ∀ p, ¬ Walk E r b p := by
    intro p
    induction hp : p.length using Nat.strongRecOn generalizing p with
    | ind n ih =>
      intro hw
      cases hw with
      | single => exact hne rfl
      | @snoc c _ q hq he =>
        rw [hsole c he] at hq
        exact ih q.length (by rw [← hp]; simp) q rfl hq
  obtain ⟨p, hp⟩ := reaches_iff_walk.mp hb
  exact hno p hp

/-- A sole predecessor is the immediate dominator. -/
theorem IsIdom.eq_sole (hidom : IsIdom E r c b) (ha : ReflTransGen E r a) (hab : E a b) (hsole : ∀ c, E c b → c = a)
    (hne : b ≠ r) (hba : b ≠ a) : c = a := by
  have hdom : Dominates E r a b := by
    intro p hp
    cases hp with
    | single => exact absurd rfl hne
    | snoc hq he =>
      rw [hsole _ he] at hq
      exact List.mem_append.mpr (Or.inl hq.target_mem)
  have hca := hidom.of_edge hab
  exact hca.antisymm (hidom.least a ⟨Ne.symm hba, hdom⟩) (hca.reaches ha)

/-! ## Renaming the vertices -/

section Corresponds

variable {W : Type} {F : W → W → Prop} {B : V → W → Prop}

/-- A one-to-one correspondence of what two graphs reach from related vertices. -/
structure Corresponds (E : V → V → Prop) (F : W → W → Prop) (B : V → W → Prop) : Prop where
  forth : ∀ a a' b, B a a' → E a b → ∃ b', B b b' ∧ F a' b'
  back : ∀ a a' b', B a a' → F a' b' → ∃ b, B b b' ∧ E a b
  left_unique : ∀ a b c, B a c → B b c → a = b
  right_unique : ∀ a c d, B a c → B a d → c = d

theorem Corresponds.symm (h : Corresponds E F B) : Corresponds F E fun w v => B v w :=
  ⟨fun a a' b hB he => h.back a' a b hB he, fun a a' b' hB he => h.forth a' a b' hB he,
    fun a b c hac hbc => h.right_unique c a b hac hbc,
    fun a c d hac had => h.left_unique c d a hac had⟩

theorem Corresponds.reaches (h : Corresponds E F B) {r' : W} (hr : B r r')
    (hreach : ReflTransGen E r b) : ∃ b', B b b' ∧ ReflTransGen F r' b' := by
  induction hreach with
  | refl => exact ⟨r', hr, .refl⟩
  | tail _ he ih =>
    obtain ⟨b', hb', hreach'⟩ := ih
    obtain ⟨c', hc', he'⟩ := h.forth _ _ _ hb' he
    exact ⟨c', hc', hreach'.tail he'⟩

theorem Corresponds.avoids (h : Corresponds E F B) {r' a' b' : W} (hr : B r r') (ha : B a a')
    (hb : B b b') (hav : Avoids E r a b) : Avoids F r' a' b' := by
  obtain ⟨hne, hpath⟩ := hav
  refine ⟨fun e => hne (h.left_unique r a a' (e ▸ hr) ha), ?_⟩
  have : ∀ c, ReflTransGen (fun x y => E x y ∧ y ≠ a) r c →
      ∃ c', B c c' ∧ ReflTransGen (fun x y => F x y ∧ y ≠ a') r' c' := by
    intro c hc
    induction hc with
    | refl => exact ⟨r', hr, .refl⟩
    | tail _ he ih =>
      obtain ⟨x', hx', hpath'⟩ := ih
      obtain ⟨c', hc', he'⟩ := h.forth _ _ _ hx' he.1
      exact ⟨c', hc', hpath'.tail ⟨he', fun e => he.2 (h.left_unique _ _ a' (e ▸ hc') ha)⟩⟩
  obtain ⟨c', hc', hpath'⟩ := this b hpath
  rwa [h.right_unique b c' b' hc' hb] at hpath'

theorem Corresponds.dominates_iff (h : Corresponds E F B) {r' a' b' : W} (hr : B r r')
    (ha : B a a') (hb : B b b') : Dominates E r a b ↔ Dominates F r' a' b' := by
  rw [dominates_iff_not_avoids, dominates_iff_not_avoids]
  exact not_congr ⟨h.avoids hr ha hb, h.symm.avoids hr ha hb⟩

theorem Corresponds.isIdom (h : Corresponds E F B) {r' a' b' : W} (hr : B r r') (ha : B a a')
    (hb : B b b') (hreach : ReflTransGen E r b) (hidom : IsIdom F r' a' b') : IsIdom E r a b := by
  refine ⟨⟨fun e => hidom.strict.1 (h.right_unique a a' b' ha (e ▸ hb)),
    (h.dominates_iff hr ha hb).mpr hidom.strict.2⟩, ?_⟩
  intro c hc
  obtain ⟨c', hc', _⟩ := h.reaches hr (hc.2.reaches hreach)
  refine (h.dominates_iff hr hc' ha).mpr (hidom.least c' ⟨?_, ?_⟩)
  · exact fun e => hc.1 (h.left_unique c b b' (e ▸ hc') hb)
  · exact (h.dominates_iff hr hc' hb).mp hc.2

end Corresponds

end CfgLib.Lib
