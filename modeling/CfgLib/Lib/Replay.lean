import CfgLib.Lib.Loop
import Mathlib.Data.List.Basic
import Mathlib.Tactic.Common

/-!
# Reports that may break off

A walk reports events to a callback that may break it off with a value.  What
a run has reported is the replay of its events: everything up to the first one
that breaks, and the value it broke with.
-/

namespace CfgLib.Lib

variable {ε β : Type} {stop : ε → Option β}

/-- Report events one by one on top of a log, until one breaks. -/
def replay (stop : ε → Option β) : List ε → List ε → Option β × List ε
  | [], log => (none, log)
  | event :: events, log =>
    match stop event with
    | some value => (some value, log ++ [event])
    | none => replay stop events (log ++ [event])

theorem replay_event (event : ε) (events log : List ε) : replay stop (event :: events) log =
    match stop event with
    | some value => (some value, log ++ [event])
    | none => replay stop events (log ++ [event]) := rfl

theorem replay_fst (events : List ε) : ∀ log, (replay stop events log).1 = events.findSome? stop := by
  induction events with
  | nil => exact fun _ => rfl
  | cons event events ih =>
    intro log
    rw [replay_event, List.findSome?_cons]
    cases stop event with
    | some value => rfl
    | none => exact ih _

theorem replay_append (events more : List ε) : ∀ log, replay stop (events ++ more) log =
    if (replay stop events log).1.isSome then replay stop events log
    else replay stop more (replay stop events log).2 := by
  induction events with
  | nil => exact fun _ => rfl
  | cons event events ih =>
    intro log
    rw [List.cons_append, replay_event, replay_event]
    cases stop event with
    | some value => rfl
    | none => exact ih _

theorem replay_snd (events : List ε) : ∀ log, ∃ reported, reported <+: events ∧
    (replay stop events log).2 = log ++ reported := by
  induction events with
  | nil => exact fun log => ⟨[], List.prefix_rfl, (List.append_nil log).symm⟩
  | cons event events ih =>
    intro log
    rw [replay_event]
    cases stop event with
    | some value => exact ⟨[event], by simp, rfl⟩
    | none =>
      obtain ⟨reported, hpre, heq⟩ := ih (log ++ [event])
      refine ⟨event :: reported, List.cons_prefix_cons.mpr ⟨rfl, hpre⟩, ?_⟩
      dsimp only
      rw [heq, List.append_assoc, List.singleton_append]

/-! ## Loops in pieces -/

variable {σ : Type} {step : σ → Option σ}

theorem iterate_add (k l : Nat) : ∀ s : σ, iterate step (k + l) s = iterate step l (iterate step k s) := by
  induction k with
  | zero => exact fun s => by rw [Nat.zero_add]; rfl
  | succ k ih =>
    intro s
    rw [Nat.succ_add]
    cases hs : step s with
    | none => rw [iterate_of_none hs, iterate_of_none hs, iterate_of_none hs]
    | some s' => rw [iterate_of_some hs, iterate_of_some hs, ih]

theorem steps_iterate (fuel : Nat) : ∀ s : σ, ∃ k, Steps step k s (iterate step fuel s) := by
  induction fuel with
  | zero => exact fun s => ⟨0, .zero s⟩
  | succ fuel ih =>
    intro s
    cases hs : step s with
    | none => exact ⟨0, by rw [iterate_of_none hs]; exact .zero s⟩
    | some s' =>
      obtain ⟨k, hk⟩ := ih s'
      exact ⟨k + 1, by rw [iterate_of_some hs]; exact .succ hs hk⟩

theorem Steps.split {k n : Nat} {s s' t : σ} (h : Steps step k s s') (hexit : Steps step n s t)
    (ht : step t = none) : k ≤ n ∧ Steps step (n - k) s' t := by
  induction h generalizing n with
  | zero s => exact ⟨Nat.zero_le n, hexit⟩
  | @succ k s s₁ s' hs _ ih =>
    cases hexit with
    | zero => rw [hs] at ht; cases ht
    | @succ n _ s₂ _ hs' hrest =>
      obtain rfl : s₁ = s₂ := Option.some.inj (hs.symm.trans hs')
      obtain ⟨hle, hsplit⟩ := ih hrest
      exact ⟨Nat.succ_le_succ hle, by rwa [Nat.succ_sub_succ]⟩

/-- A loop that leads to an exit ends there with any fuel that runs it to an exit. -/
theorem Steps.iterate_of_exit {k fuel : Nat} {s s' : σ} (h : Steps step k s s') (hexit : step s' = none)
    (hfuel : step (iterate step fuel s) = none) : iterate step fuel s = s' := by
  have hmore := h.iterate_eq hexit (Nat.le_add_left k fuel)
  rwa [iterate_add, iterate_of_none hfuel] at hmore

end CfgLib.Lib
