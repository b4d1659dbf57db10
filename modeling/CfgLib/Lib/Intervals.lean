import CfgLib.Lib.Cycles
import CfgLib.Lib.Loop
import Mathlib.Data.List.Count
import Mathlib.Data.List.Nodup

/-!
# Intervals

A partition of the vertices that a root reaches into single-entry intervals: every
vertex but the headers has its predecessors inside its interval, edges to such vertices
lead nowhere in a circle, and every header but the root is entered from two intervals.
At most one partition is like that, whatever order its vertices are found in.
-/

namespace CfgLib.Lib

open Relation

variable {V : Type} {E : V → V → Prop} {r x : V} {head head' : V → V} {p : List V}

/-- A partition into intervals, given by the header of each vertex. -/
structure IsIntervals (E : V → V → Prop) (r : V) (head : V → V) : Prop where
  reached : ∀ x, ReflTransGen E r x → ReflTransGen E r (head x)
  idem : ∀ x, ReflTransGen E r x → head (head x) = head x
  root : head r = r
  inside : ∀ p x, ReflTransGen E r p → E p x → head x ≠ x → head p = head x
  forward : WellFounded fun a b => ReflTransGen E r a ∧ E a b ∧ head b ≠ b
  entered : ∀ x, ReflTransGen E r x → head x = x → x ≠ r →
    ∃ p q, ReflTransGen E r p ∧ ReflTransGen E r q ∧ E p x ∧ E q x ∧ head p ≠ head q

namespace IsIntervals

/-- A vertex that is no header of one partition is none of the other, and belongs there to the
interval of its header. -/
theorem head_ne (h : IsIntervals E r head) (h' : IsIntervals E r head') (hx : ReflTransGen E r x)
    (hne : head' x ≠ x) : head x ≠ x ∧ head x = head (head' x) := by
  induction x using h'.forward.induction with
  | _ x ih =>
    have hpred : ∀ p, ReflTransGen E r p → E p x → head p = head (head' x) := by
      intro p hp he
      rw [← h'.inside p x hp he hne]
      by_cases hpp : head' p = p
      · rw [hpp]
      · exact (ih p ⟨hp, he, hne⟩ hp hpp).2
    have hxr : x ≠ r := by
      rintro rfl
      exact hne h'.root
    have hxne : head x ≠ x := by
      intro heq
      obtain ⟨p, q, hp, hq, hep, heq', hpq⟩ := h.entered x hx heq hxr
      exact hpq ((hpred p hp hep).trans (hpred q hq heq').symm)
    refine ⟨hxne, ?_⟩
    obtain hroot | ⟨p, hp, he⟩ := hx.cases_tail
    · exact absurd hroot hxr
    · rw [← h.inside p x hp he hxne]
      exact hpred p hp he

theorem unique (h : IsIntervals E r head) (h' : IsIntervals E r head') (hx : ReflTransGen E r x) :
    head x = head' x := by
  have hheader : ∀ y, ReflTransGen E r y → head' y = y → head y = y := by
    intro y hy heq
    by_contra hne
    exact (h'.head_ne h hy hne).1 heq
  by_cases hxx : head' x = x
  · rw [hxx]
    exact hheader x hx hxx
  · rw [(h.head_ne h' hx hxx).2]
    exact hheader _ (h'.reached x hx) (h'.idem x hx)

theorem dominates (h : IsIntervals E r head) (x : V) : Dominates E r (head x) x := by
  intro p hwalk
  induction hwalk with
  | single =>
    rw [h.root]
    exact List.mem_singleton_self r
  | @snoc b c p hb he ih =>
    by_cases hc : head c = c
    · rw [hc]
      exact List.mem_append_right _ (List.mem_singleton_self c)
    · rw [← h.inside b c hb.reaches he hc]
      exact List.mem_append_left _ ih

theorem header_mem_cycle (h : IsIntervals E r head) (hp : IsCycle E p) {c : V}
    (hin : ∀ y ∈ p, ReflTransGen E r y ∧ head y = c) : c ∈ p := by
  by_contra hc
  have hne : ∀ y ∈ p, ReflTransGen E r y ∧ head y ≠ y := by
    intro y hy
    refine ⟨(hin y hy).1, fun heq => hc ?_⟩
    rw [← (hin y hy).2, heq]
    exact hy
  obtain ⟨a, b, hwalk, hback⟩ := hp
  have ha := hne a hwalk.source_mem
  have hb := hne b hwalk.target_mem
  have hpath := (hwalk.within hne hwalk.target_mem).1
  have hforward : ReflTransGen (fun a b => ReflTransGen E r a ∧ E a b ∧ head b ≠ b) a b := by
    clear hb hback hwalk
    induction hpath with
    | refl => exact .refl
    | tail hto he ih =>
      have hpath : ReflTransGen E _ _ := ReflTransGen.mono (fun _ _ hstep => hstep.1) _ _ hto
      exact ih.tail ⟨ha.1.trans hpath, he.1, he.2.2⟩
  exact h.forward.transGen.irrefl.irrefl a (TransGen.tail' hforward ⟨hb.1, hback, ha.2⟩)

end IsIntervals

/-! ## Counting arrivals -/

section counting

variable [DecidableEq V] {l done : List V}

theorem total_count (hdone : done.Nodup) (l : List V) :
    total (fun b => l.count b) done = l.countP fun p => p ∈ done := by
  induction done with
  | nil => exact (List.countP_eq_zero.mpr fun p _ hp => by simp at hp).symm
  | cons b done ih =>
    obtain ⟨hb, hrest⟩ := List.nodup_cons.mp hdone
    have hsplit : l.countP (fun p => p ∈ b :: done) = l.count b + l.countP fun p => p ∈ done := by
      clear ih hdone
      induction l with
      | nil => rfl
      | cons a l ih =>
        rw [List.countP_cons, List.countP_cons, List.count_cons, ih]
        by_cases hab : a = b
        · subst hab
          simp [hb]
          omega
        · simp [hab]
          omega
    rw [total, ih hrest, hsplit]

theorem total_count_le (hdone : done.Nodup) (l : List V) : total (fun b => l.count b) done ≤ l.length := by
  rw [total_count hdone]
  exact List.countP_le_length

theorem total_count_eq_iff (hdone : done.Nodup) : total (fun b => l.count b) done = l.length ↔ ∀ p ∈ l, p ∈ done := by
  rw [total_count hdone, List.countP_eq_length]
  simp only [decide_eq_true_eq]

end counting

end CfgLib.Lib
