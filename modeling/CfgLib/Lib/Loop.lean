import Mathlib.Data.Nat.Basic

/-!
# Bounded loops

A loop of the source is a step function that reports `none` when the loop
exits, repeated at most `fuel` times.  One rule gives a loop's specification:
an invariant that every step keeps, and a measure that every step decreases,
so that enough fuel runs the loop to its exit.  Measures of traversals are
totals of a weight over a list, which drop where one weight drops.
-/

namespace CfgLib.Lib

variable {σ : Type}

/-- Repeat `step` until it reports `none`, at most `fuel` times. -/
def iterate (step : σ → Option σ) : Nat → σ → σ
  | 0, s => s
  | fuel + 1, s =>
    match step s with
    | none => s
    | some s' => iterate step fuel s'

variable {k : Nat} {s s' : σ} {step : σ → Option σ}

theorem iterate_of_none (h : step s = none) (fuel : Nat) : iterate step fuel s = s := by
  cases fuel <;> simp [iterate, h]

theorem iterate_of_some (h : step s = some s') (fuel : Nat) :
    iterate step (fuel + 1) s = iterate step fuel s' := by
  simp [iterate, h]

theorem iterate_invariant {step : σ → Option σ} {I : σ → Prop}
    (hstep : ∀ s s', I s → step s = some s' → I s') (fuel : Nat) {s : σ} (h : I s) :
    I (iterate step fuel s) := by
  induction fuel generalizing s with
  | zero => exact h
  | succ fuel ih =>
    cases hs : step s with
    | none => rw [iterate_of_none hs]; exact h
    | some s' => rw [iterate_of_some hs]; exact ih (hstep s s' h hs)

/-- With a decreasing measure and enough fuel the loop runs to its exit. -/
theorem iterate_spec {step : σ → Option σ} {I : σ → Prop} {μ : σ → Nat}
    (hstep : ∀ s s', I s → step s = some s' → I s' ∧ μ s' < μ s) {fuel : Nat} {s : σ} (h : I s)
    (hfuel : μ s ≤ fuel) : I (iterate step fuel s) ∧ step (iterate step fuel s) = none := by
  induction fuel generalizing s with
  | zero =>
    refine ⟨h, ?_⟩
    cases hs : step s with
    | none => exact hs
    | some s' =>
      have := (hstep s s' h hs).2
      omega
  | succ fuel ih =>
    cases hs : step s with
    | none => rw [iterate_of_none hs]; exact ⟨h, hs⟩
    | some s' =>
      rw [iterate_of_some hs]
      obtain ⟨h', hlt⟩ := hstep s s' h hs
      exact ih h' (by omega)

/-- With a measure that descends in a well-founded order some fuel runs the loop to its
exit, and more fuel does not change where it ends. -/
theorem iterate_terminates {step : σ → Option σ} {I : σ → Prop} {τ : Type} {rel : τ → τ → Prop}
    (hwf : WellFounded rel) {μ : σ → τ} (hstep : ∀ s s', I s → step s = some s' → I s' ∧ rel (μ s') (μ s))
    {s : σ} (h : I s) : ∃ N t, (∀ fuel, N ≤ fuel → iterate step fuel s = t) ∧ I t ∧ step t = none := by
  generalize hm : μ s = m
  induction m using hwf.induction generalizing s with
  | _ m ih =>
    subst hm
    cases hs : step s with
    | none => exact ⟨0, s, fun fuel _ => iterate_of_none hs fuel, h, hs⟩
    | some s' =>
      obtain ⟨h', hrel⟩ := hstep s s' h hs
      obtain ⟨N, t, hrun, hI, hdone⟩ := ih _ hrel h' rfl
      refine ⟨N + 1, t, fun fuel hfuel => ?_, hI, hdone⟩
      obtain ⟨k, rfl⟩ : ∃ k, fuel = k + 1 := ⟨fuel - 1, by omega⟩
      rw [iterate_of_some hs]
      exact hrun k (by omega)

inductive Steps (step : σ → Option σ) : Nat → σ → σ → Prop
  | zero (s : σ) : Steps step 0 s s
  | succ {k : Nat} {s s' s'' : σ} : step s = some s' → Steps step k s' s'' → Steps step (k + 1) s s''

theorem Steps.trans {l : Nat} {s'' : σ} (h : Steps step k s s')
    (h' : Steps step l s' s'') : Steps step (k + l) s s'' := by
  induction h with
  | zero s => rwa [Nat.zero_add]
  | @succ k _ _ _ hs _ ih =>
    rw [show k + 1 + l = (k + l) + 1 by omega]
    exact .succ hs (ih h')

theorem Steps.single (h : step s = some s') : Steps step 1 s s' :=
  .succ h (.zero s')

/-- A loop that exits after `k` steps ends there with any fuel from `k` on. -/
theorem Steps.iterate_eq (h : Steps step k s s')
    (hexit : step s' = none) {fuel : Nat} (hfuel : k ≤ fuel) : iterate step fuel s = s' := by
  induction h generalizing fuel with
  | zero s => exact iterate_of_none hexit fuel
  | succ hs _ ih =>
    obtain ⟨fuel, rfl⟩ : ∃ f, fuel = f + 1 := ⟨fuel - 1, by omega⟩
    rw [iterate_of_some hs]
    exact ih hexit (by omega)

theorem Steps.eq_of_exit (h : Steps step k s s') (hexit : step s' = none)
    {fuel : Nat} (hdone : step (iterate step fuel s) = none) : iterate step fuel s = s' := by
  induction h generalizing fuel with
  | zero s => exact iterate_of_none hexit fuel
  | succ hs _ ih =>
    cases fuel with
    | zero =>
      rw [iterate, hs] at hdone
      cases hdone
    | succ fuel =>
      rw [iterate_of_some hs] at hdone ⊢
      exact ih hexit hdone

/-! ## Totals -/

variable {α : Type}

/-- The sum of a weight over a list. -/
def total (f : α → Nat) : List α → Nat
  | [] => 0
  | a :: l => f a + total f l

theorem total_nil (f : α → Nat) : total f [] = 0 := rfl

theorem total_cons (f : α → Nat) (a : α) (l : List α) : total f (a :: l) = f a + total f l := rfl

theorem total_append (w : α → Nat) (l l' : List α) : total w (l ++ l') = total w l + total w l' := by
  induction l with
  | nil => exact (Nat.zero_add _).symm
  | cons a l ih => simp only [List.cons_append, total_cons, ih, Nat.add_assoc]

theorem total_one (l : List α) : total (fun _ => 1) l = l.length := by
  induction l with
  | nil => rfl
  | cons a l ih =>
    simp only [total_cons, ih, List.length_cons]
    omega

theorem total_const (k : Nat) (l : List α) : total (fun _ => k) l = k * l.length := by
  induction l with
  | nil => rfl
  | cons a l ih =>
    simp only [total_cons, ih, List.length_cons, Nat.mul_succ]
    omega

theorem total_le {f f' : α → Nat} {l : List α} (h : ∀ a ∈ l, f' a ≤ f a) :
    total f' l ≤ total f l := by
  induction l with
  | nil => exact Nat.le_refl _
  | cons a l ih =>
    have h₁ := h a List.mem_cons_self
    have h₂ := ih fun b hb => h b (List.mem_cons_of_mem a hb)
    simp only [total_cons]
    omega

theorem total_drop {f f' : α → Nat} {l : List α} {x : α} {d : Nat} (h : ∀ a ∈ l, f' a ≤ f a)
    (hx : x ∈ l) (hd : f' x + d ≤ f x) : total f' l + d ≤ total f l := by
  induction l with
  | nil => cases hx
  | cons a l ih =>
    have htail : ∀ b ∈ l, f' b ≤ f b := fun b hb => h b (List.mem_cons_of_mem a hb)
    simp only [total_cons]
    rcases List.mem_cons.mp hx with rfl | hx
    · have := total_le htail
      omega
    · have := h a List.mem_cons_self
      have := ih htail hx
      omega

end CfgLib.Lib
