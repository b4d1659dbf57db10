import CfgLib.Lib.Flow
import Mathlib.Logic.Relation

/-!
# Paths past instructions

Paths of a block flow that perform no barred instruction, read off their first and
their last step.
-/

namespace CfgLib.Lib.Flow

open Relation

variable {ι : Type} {F : Flow ι} {throws : ι → Bool} {bars : Nat × Nat → ι → Prop}

/-- A step that performs no instruction barred at its place. -/
def StepPast (F : Flow ι) (throws : ι → Bool) (bars : Nat × Nat → ι → Prop) (p q : Nat × Nat) : Prop :=
  ∃ o, Step F throws p o q ∧ ∀ a, o = some a → ¬ bars p a

/-- A path that performs no barred instruction. -/
def PathPast (F : Flow ι) (throws : ι → Bool) (bars : Nat × Nat → ι → Prop) : Nat × Nat → Nat × Nat → Prop :=
  ReflTransGen (StepPast F throws bars)

variable {l : List ι} {b i t : Nat} {p : Nat × Nat} {a : ι}

theorem stepPast_exec (hc : F.code b = some l) (ha : l[i]? = some a)
    (hbar : ¬ bars (b, i) a) : StepPast F throws bars (b, i) (b, i + 1) :=
  ⟨_, .exec hc ha, fun _ h => Option.some.inj h ▸ hbar⟩

theorem stepPast_leave (hc : F.code b = some l) (hn : F.normal b t) :
    StepPast F throws bars (b, l.length) (t, 0) :=
  ⟨_, .leave hc hn, nofun⟩

theorem stepPast_raise (hc : F.code b = some l) (ha : l[i]? = some a)
    (hthrow : throws a = true) (hu : F.unwind b t) : StepPast F throws bars (b, i) (t, 0) :=
  ⟨_, .raise hc ha hthrow hu, nofun⟩

def EntersFrom (F : Flow ι) (throws : ι → Bool) (p : Nat × Nat) (t : Nat) : Prop :=
  ∃ l, F.code p.1 = some l ∧ ((p.2 = l.length ∧ F.normal p.1 t) ∨
    ((∃ a, l[p.2]? = some a ∧ throws a = true) ∧ F.unwind p.1 t))

theorem stepPast_zero_iff : StepPast F throws bars p (t, 0) ↔ EntersFrom F throws p t := by
  constructor
  · rintro ⟨o, hs, -⟩
    cases hs with
    | leave hc hn => exact ⟨_, hc, Or.inl ⟨rfl, hn⟩⟩
    | raise hc ha hthrow hu => exact ⟨_, hc, Or.inr ⟨⟨_, ha, hthrow⟩, hu⟩⟩
  · obtain ⟨b, i⟩ := p
    rintro ⟨l, hc, ⟨hi, hn⟩ | ⟨⟨a, ha, hthrow⟩, hu⟩⟩
    · have hi' : i = l.length := hi
      subst hi'
      exact stepPast_leave hc hn
    · exact stepPast_raise hc ha hthrow hu

theorem stepPast_succ_iff (hc : F.code b = some l)
    (ha : l[i]? = some a) : StepPast F throws bars p (b, i + 1) ↔ p = (b, i) ∧ ¬ bars (b, i) a := by
  constructor
  · rintro ⟨o, hs, hbar⟩
    cases hs with
    | exec hc' ha' =>
      cases hc.symm.trans hc'
      cases ha.symm.trans ha'
      exact ⟨rfl, hbar _ rfl⟩
  · rintro ⟨rfl, hbar⟩
    exact stepPast_exec hc ha hbar

theorem pathPast_zero_iff (hp : p ≠ (t, 0)) :
    PathPast F throws bars p (t, 0) ↔ ∃ q, PathPast F throws bars p q ∧ EntersFrom F throws q t := by
  constructor
  · intro h
    rcases ReflTransGen.cases_tail h with heq | ⟨q, hq, hs⟩
    · exact absurd heq.symm hp
    · exact ⟨q, hq, stepPast_zero_iff.mp hs⟩
  · rintro ⟨q, hq, hs⟩
    exact ReflTransGen.tail hq (stepPast_zero_iff.mpr hs)

theorem pathPast_succ_iff (hc : F.code b = some l) (ha : l[i]? = some a) : PathPast F throws bars p (b, i + 1) ↔
      p = (b, i + 1) ∨ (PathPast F throws bars p (b, i) ∧ ¬ bars (b, i) a) := by
  constructor
  · intro h
    rcases ReflTransGen.cases_tail h with heq | ⟨q, hq, hs⟩
    · exact Or.inl heq.symm
    · obtain ⟨rfl, hbar⟩ := (stepPast_succ_iff hc ha).mp hs
      exact Or.inr ⟨hq, hbar⟩
  · rintro (rfl | ⟨h, hbar⟩)
    · exact ReflTransGen.refl
    · exact ReflTransGen.tail h ((stepPast_succ_iff hc ha).mpr ⟨rfl, hbar⟩)

/-! ## Where paths lead -/

/-- Some path from the place performs no barred instruction and ends at a goal. -/
def LeadsPast (F : Flow ι) (throws : ι → Bool) (bars : Nat × Nat → ι → Prop) (goal : Nat × Nat → Prop)
    (p : Nat × Nat) : Prop :=
  ∃ q, PathPast F throws bars p q ∧ goal q

variable {goal : Nat × Nat → Prop}

theorem leadsPast_of_goal (h : goal p) : LeadsPast F throws bars goal p :=
  ⟨p, .refl, h⟩

theorem LeadsPast.head {q : Nat × Nat} (hs : StepPast F throws bars p q) (h : LeadsPast F throws bars goal q) :
    LeadsPast F throws bars goal p := by
  obtain ⟨r, hpath, hr⟩ := h
  exact ⟨r, ReflTransGen.head hs hpath, hr⟩

theorem leadsPast_iff : LeadsPast F throws bars goal p ↔
    goal p ∨ ∃ q, StepPast F throws bars p q ∧ LeadsPast F throws bars goal q := by
  constructor
  · rintro ⟨r, hpath, hr⟩
    rcases ReflTransGen.cases_head hpath with rfl | ⟨q, hs, hpath⟩
    · exact Or.inl hr
    · exact Or.inr ⟨q, hs, r, hpath, hr⟩
  · rintro (h | ⟨q, hs, h⟩)
    · exact leadsPast_of_goal h
    · exact h.head hs

theorem leadsPast_at_iff (hc : F.code b = some l) (ha : l[i]? = some a) :
    LeadsPast F throws bars goal (b, i) ↔ goal (b, i) ∨
      (¬ bars (b, i) a ∧ LeadsPast F throws bars goal (b, i + 1)) ∨
      (throws a = true ∧ ∃ t, F.unwind b t ∧ LeadsPast F throws bars goal (t, 0)) := by
  have hlt := (List.getElem?_eq_some_iff.mp ha).1
  rw [leadsPast_iff]
  refine or_congr_right ⟨?_, ?_⟩
  · rintro ⟨q, ⟨o, hs, hbar⟩, h⟩
    cases hs with
    | exec hc' ha' =>
      cases hc.symm.trans hc'
      cases ha.symm.trans ha'
      exact Or.inl ⟨hbar _ rfl, h⟩
    | leave hc' hn =>
      cases hc.symm.trans hc'
      exact absurd hlt (Nat.lt_irrefl _)
    | raise hc' ha' hthrow hu =>
      cases hc.symm.trans hc'
      cases ha.symm.trans ha'
      exact Or.inr ⟨hthrow, _, hu, h⟩
  · rintro (⟨hbar, h⟩ | ⟨hthrow, t, hu, h⟩)
    · exact ⟨_, stepPast_exec hc ha hbar, h⟩
    · exact ⟨_, stepPast_raise hc ha hthrow hu, h⟩

theorem leadsPast_end_iff (hc : F.code b = some l) :
    LeadsPast F throws bars goal (b, l.length) ↔ goal (b, l.length) ∨
      ∃ t, F.normal b t ∧ LeadsPast F throws bars goal (t, 0) := by
  have hnone : l[l.length]? = none := List.getElem?_eq_none (Nat.le_refl _)
  rw [leadsPast_iff]
  refine or_congr_right ⟨?_, ?_⟩
  · rintro ⟨q, ⟨o, hs, _⟩, h⟩
    generalize hp : (b, l.length) = p at hs
    cases hs with
    | exec hc' ha' =>
      obtain ⟨rfl, rfl⟩ := Prod.mk.inj hp
      cases hc.symm.trans hc'
      cases hnone.symm.trans ha'
    | leave hc' hn =>
      obtain ⟨rfl, _⟩ := Prod.mk.inj hp
      exact ⟨_, hn, h⟩
    | raise hc' ha' _ _ =>
      obtain ⟨rfl, rfl⟩ := Prod.mk.inj hp
      cases hc.symm.trans hc'
      cases hnone.symm.trans ha'
  · rintro ⟨t, hn, h⟩
    exact ⟨_, stepPast_leave hc hn, h⟩

theorem leadsPast_none (hc : F.code b = none) :
    LeadsPast F throws bars goal (b, i) ↔ goal (b, i) := by
  rw [leadsPast_iff, or_iff_left_iff_imp]
  rintro ⟨q, ⟨o, hs, _⟩, _⟩
  cases hs with
  | exec hc' _ => cases hc.symm.trans hc'
  | leave hc' _ => cases hc.symm.trans hc'
  | raise hc' _ _ _ => cases hc.symm.trans hc'

end CfgLib.Lib.Flow
