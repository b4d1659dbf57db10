import Mathlib.Data.List.Basic
import Mathlib.Logic.Function.Iterate
import Mathlib.Tactic.Choose

/-!
# Traces and simulation

Systems whose steps emit at most one observation, and what an observer sees of
them: the finite prefixes, the runs that halt, the runs that go on silently for
ever and the infinite sequences of observations.  Two systems that simulate
each other, where a step is matched by at least one step or is silent and
decreases a measure, show the same of each.
-/

namespace CfgLib.Lib

/-- A step from one state to another, with what it emits. -/
abbrev Transition (σ α : Type) := σ → Option α → σ → Prop

variable {σ τ υ α : Type}

/-- Finitely many steps and everything they emit. -/
inductive Run (step : Transition σ α) : σ → List α → σ → Prop
  | refl (p : σ) : Run step p [] p
  | step {p q r : σ} {o : Option α} {l : List α} :
    step p o q → Run step q l r → Run step p (o.toList ++ l) r

def Plus (step : Transition σ α) (p : σ) (l : List α) (r : σ) : Prop :=
  ∃ o q l', step p o q ∧ Run step q l' r ∧ l = o.toList ++ l'

def Stuck (step : Transition σ α) (p : σ) : Prop := ∀ o q, ¬ step p o q

/-- Silent steps can go on for ever. -/
def Spins (step : Transition σ α) (p : σ) : Prop :=
  ∃ f : Nat → σ, f 0 = p ∧ ∀ n, step (f n) none (f (n + 1))

def Emits (step : Transition σ α) (p : σ) (l : List α) : Prop := ∃ q, Run step p l q

/-- Some path emits `l` and ends where no step is possible. -/
def Halts (step : Transition σ α) (p : σ) (l : List α) : Prop :=
  ∃ q, Run step p l q ∧ Stuck step q

/-- Some infinite path emits `l` and nothing more. -/
def Diverges (step : Transition σ α) (p : σ) (l : List α) : Prop :=
  ∃ q, Run step p l q ∧ Spins step q

/-- Some infinite path emits the infinite sequence `w`. -/
def Reacts (step : Transition σ α) (p : σ) (w : Nat → α) : Prop :=
  ∃ f : Nat → σ, f 0 = p ∧ ∀ n, Run step (f n) [w n] (f (n + 1))

structure SameTraces (A : Transition σ α) (p : σ) (B : Transition τ α) (q : τ) : Prop where
  partial_iff : ∀ l, Emits A p l ↔ Emits B q l
  halts_iff : ∀ l, Halts A p l ↔ Halts B q l
  diverges_iff : ∀ l, Diverges A p l ↔ Diverges B q l
  reacts_iff : ∀ w, Reacts A p w ↔ Reacts B q w

theorem SameTraces.refl (A : Transition σ α) (p : σ) : SameTraces A p A p :=
  ⟨fun _ => Iff.rfl, fun _ => Iff.rfl, fun _ => Iff.rfl, fun _ => Iff.rfl⟩

variable {A : Transition σ α} {B : Transition τ α} {p : σ} {q : τ}

theorem SameTraces.symm (h : SameTraces A p B q) : SameTraces B q A p :=
  ⟨fun l => (h.partial_iff l).symm, fun l => (h.halts_iff l).symm,
    fun l => (h.diverges_iff l).symm, fun w => (h.reacts_iff w).symm⟩

theorem SameTraces.trans {C : Transition υ α} {r : υ} (h : SameTraces A p B q) (h' : SameTraces B q C r) :
    SameTraces A p C r :=
  ⟨fun l => (h.partial_iff l).trans (h'.partial_iff l),
    fun l => (h.halts_iff l).trans (h'.halts_iff l),
    fun l => (h.diverges_iff l).trans (h'.diverges_iff l),
    fun w => (h.reacts_iff w).trans (h'.reacts_iff w)⟩

/-! ## Runs -/

section Runs

variable {A : Transition σ α} {B : Transition τ α} {p q r : σ} {l l' : List α} {o : Option α}

theorem Run.trans (h : Run A p l q) (h' : Run A q l' r) : Run A p (l ++ l') r := by
  induction h with
  | refl => exact h'
  | step hs _ ih =>
    rw [List.append_assoc]
    exact .step hs (ih h')

theorem Plus.run (h : Plus A p l r) : Run A p l r := by
  obtain ⟨o, q, l', hs, hr, rfl⟩ := h
  exact .step hs hr

theorem Plus.single (h : A p o q) : Plus A p o.toList q :=
  ⟨o, q, [], h, .refl q, (List.append_nil _).symm⟩

theorem Run.eq_or_plus (h : Run A p [] q) : p = q ∨ Plus A p [] q := by
  generalize hl : ([] : List α) = l at h
  cases h with
  | refl => exact Or.inl rfl
  | step hs hr => exact Or.inr ⟨_, _, _, hs, hr, rfl⟩

theorem Plus.silent_single (h : A p none q) (h' : A q o r) : Plus A p o.toList r :=
  ⟨none, q, o.toList, h, (Plus.single h').run, rfl⟩

theorem Run.then_plus (h : Run A p [] q) (h' : Plus A q l r) : Plus A p l r := by
  rcases h.eq_or_plus with rfl | ⟨o, q₁, l₁, hs, hrun, hnil⟩
  · exact h'
  · obtain ⟨ho, rfl⟩ := List.append_eq_nil_iff.mp hnil.symm
    exact ⟨o, q₁, l, hs, hrun.trans h'.run, by rw [ho, List.nil_append]⟩

/-- A set from which some silent run of at least one step leads back to it spins. -/
theorem spins_of_closed {S : σ → Prop} (h : ∀ q, S q → ∃ q', Plus A q [] q' ∧ S q') (hq : S q) :
    Spins A q := by
  have hnext : ∀ x, (∃ y, Run A x [] y ∧ S y) → ∃ x', A x none x' ∧ ∃ y, Run A x' [] y ∧ S y := by
    rintro x ⟨y, hrun, hy⟩
    have hplus : ∃ z, Plus A x [] z ∧ S z := by
      rcases hrun.eq_or_plus with rfl | hplus
      · exact h x hy
      · exact ⟨y, hplus, hy⟩
    obtain ⟨z, ⟨o, x', l, hs, hr, hnil⟩, hz⟩ := hplus
    obtain ⟨ho, rfl⟩ := List.append_eq_nil_iff.mp hnil.symm
    obtain rfl : o = none := Option.toList_eq_nil_iff.mp ho
    exact ⟨x', hs, z, hr, hz⟩
  classical
  choose! next hstep hkeep using hnext
  refine ⟨fun n => next^[n] q, rfl, ?_⟩
  have hall : ∀ n, ∃ y, Run A (next^[n] q) [] y ∧ S y := by
    intro n
    induction n with
    | zero => exact ⟨q, .refl q, hq⟩
    | succ n ih =>
      rw [Function.iterate_succ_apply']
      exact hkeep _ ih
  intro n
  change A (next^[n] q) none (next^[n + 1] q)
  rw [Function.iterate_succ_apply']
  exact hstep _ (hall n)

end Runs

/-! ## Simulation -/

/-- A step is matched by at least one step, or is silent and decreases `μ`. -/
structure Simulation (A : Transition σ α) (B : Transition τ α) (R : σ → τ → Prop)
    (μ : σ → Nat) : Prop where
  step : ∀ p q o p', R p q → A p o p' →
    (∃ q', Plus B q o.toList q' ∧ R p' q') ∨ (o = none ∧ R p' q ∧ μ p' < μ p)

section Simulation

variable {A : Transition σ α} {B : Transition τ α} {R : σ → τ → Prop} {μ : σ → Nat}
  {ν : τ → Nat} {p p' : σ} {q : τ} {l : List α}

theorem Simulation.run (h : Simulation A B R μ) (hr : R p q) (hrun : Run A p l p') :
    ∃ q', Run B q l q' ∧ R p' q' := by
  induction hrun generalizing q with
  | refl p => exact ⟨q, .refl q, hr⟩
  | step hs _ ih =>
    rcases h.step _ _ _ _ hr hs with ⟨q₁, hplus, hr₁⟩ | ⟨rfl, hr₁, _⟩
    · obtain ⟨q₂, hrun₂, hr₂⟩ := ih hr₁
      exact ⟨q₂, hplus.run.trans hrun₂, hr₂⟩
    · exact ih hr₁

theorem Simulation.reacts (h : Simulation A B R μ) (hr : R p q) {w : Nat → α}
    (hw : Reacts A p w) : Reacts B q w := by
  obtain ⟨f, rfl, hf⟩ := hw
  have hmatch : ∀ n x, R (f n) x → ∃ y, Run B x [w n] y ∧ R (f (n + 1)) y :=
    fun n x hx => h.run hx (hf n)
  have : Nonempty τ := ⟨q⟩
  choose! next hrun hrel using hmatch
  have hall : ∀ n, R (f n) (Nat.rec q next n) := by
    intro n
    induction n with
    | zero => exact hr
    | succ n ih => exact hrel n _ ih
  exact ⟨fun n => Nat.rec q next n, rfl, fun n => hrun n _ (hall n)⟩

/-- An infinite silent path is matched step by step often enough. -/
theorem Simulation.spins (h : Simulation A B R μ) (hr : R p q) (hp : Spins A p) : Spins B q := by
  obtain ⟨f, rfl, hf⟩ := hp
  have hnext : ∀ k n x, μ (f n) = k → R (f n) x → ∃ m y, Plus B x [] y ∧ R (f m) y := by
    intro k
    induction k using Nat.strongRecOn with
    | ind k ih =>
      rintro n x rfl hx
      rcases h.step _ _ _ _ hx (hf n) with ⟨y, hplus, hy⟩ | ⟨_, hy, hlt⟩
      · exact ⟨n + 1, y, hplus, hy⟩
      · exact ih _ hlt (n + 1) x rfl hy
  refine spins_of_closed (S := fun x => ∃ n, R (f n) x) ?_ ⟨0, hr⟩
  rintro x ⟨n, hx⟩
  obtain ⟨m, y, hplus, hy⟩ := hnext _ n x rfl hx
  exact ⟨y, hplus, m, hy⟩

theorem Simulation.diverges (h : Simulation A B R μ) (hr : R p q) (hp : Diverges A p l) :
    Diverges B q l := by
  obtain ⟨p', hrun, hspin⟩ := hp
  obtain ⟨q', hrun', hr'⟩ := h.run hr hrun
  exact ⟨q', hrun', h.spins hr' hspin⟩

theorem Simulation.stuck (h : Simulation B A (fun q p => R p q) ν) (hr : R p q)
    (hp : Stuck A p) : ∃ q', Run B q [] q' ∧ Stuck B q' := by
  induction hk : ν q using Nat.strongRecOn generalizing q with
  | ind k ih =>
    by_cases hq : Stuck B q
    · exact ⟨q, .refl q, hq⟩
    simp only [Stuck, not_forall, not_not] at hq
    obtain ⟨o, q₁, hs⟩ := hq
    rcases h.step _ _ _ _ hr hs with ⟨p', ⟨o', p₁, l', hs', _⟩, _⟩ | ⟨rfl, hr₁, hlt⟩
    · exact absurd hs' (hp o' p₁)
    obtain ⟨q', hrun, hq'⟩ := ih _ (hk ▸ hlt) hr₁ rfl
    exact ⟨q', .step hs hrun, hq'⟩

theorem Simulation.halts (h : Simulation A B R μ) (h' : Simulation B A (fun q p => R p q) ν)
    (hr : R p q) (hp : Halts A p l) : Halts B q l := by
  obtain ⟨p', hrun, hstuck⟩ := hp
  obtain ⟨q₁, hrun₁, hr₁⟩ := h.run hr hrun
  obtain ⟨q₂, hrun₂, hq₂⟩ := h'.stuck hr₁ hstuck
  exact ⟨q₂, by simpa using hrun₁.trans hrun₂, hq₂⟩

theorem Simulation.sameTraces (h : Simulation A B R μ)
    (h' : Simulation B A (fun q p => R p q) ν) (hr : R p q) : SameTraces A p B q where
  partial_iff := by
    intro l
    constructor
    · rintro ⟨p', hrun⟩
      obtain ⟨q', hrun', _⟩ := h.run hr hrun
      exact ⟨q', hrun'⟩
    · rintro ⟨q', hrun⟩
      obtain ⟨p', hrun', _⟩ := h'.run hr hrun
      exact ⟨p', hrun'⟩
  halts_iff := fun _ => ⟨h.halts h' hr, h'.halts h hr⟩
  diverges_iff := fun _ => ⟨h.diverges hr, h'.diverges hr⟩
  reacts_iff := fun _ => ⟨h.reacts hr, h'.reacts hr⟩

end Simulation

end CfgLib.Lib
