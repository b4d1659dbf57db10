import Mathlib.Data.List.Basic
import Mathlib.Data.List.Count
import Mathlib.Data.List.Induction
import Mathlib.Order.Monotone.Basic

/-!
# Rank and select

The order-preserving numbering of the slots that satisfy a predicate: `rank`
counts the satisfying slots below one, `select` lists them, and the two are
inverse.  Compaction of a dense slot space renumbers by `rank`.
-/

namespace CfgLib.Lib

open List

/-- How many slots below `i` satisfy `p`. -/
def rank (p : Nat → Bool) (i : Nat) : Nat := (List.range i).countP p

/-- The slots below `n` that satisfy `p`, ascending. -/
def select (p : Nat → Bool) (n : Nat) : List Nat := (List.range n).filter p

variable {p : Nat → Bool}

@[simp] theorem rank_zero : rank p 0 = 0 := rfl

theorem rank_succ (i : Nat) : rank p (i + 1) = rank p i + if p i then 1 else 0 := by
  simp [rank, range_succ, countP_append, countP_cons]

theorem rank_le_succ (i : Nat) : rank p i ≤ rank p (i + 1) := by
  rw [rank_succ]; omega

variable {i j n : Nat} {q : Nat → Bool} {α : Type}

theorem rank_mono (h : i ≤ j) : rank p i ≤ rank p j :=
  monotone_nat_of_le_succ rank_le_succ h

theorem rank_lt (hi : p i = true) (h : i < j) : rank p i < rank p j := by
  have hstep : rank p (i + 1) = rank p i + 1 := by rw [rank_succ, if_pos hi]
  have hmono := rank_mono (p := p) (show i + 1 ≤ j from h)
  omega

theorem rank_inj (hi : p i = true) (hj : p j = true) (h : rank p i = rank p j) : i = j := by
  rcases Nat.lt_trichotomy i j with hlt | heq | hgt
  · have := rank_lt hi hlt; omega
  · exact heq
  · have := rank_lt hj hgt; omega

theorem rank_congr (h : ∀ k < i, p k = q k) : rank p i = rank q i := by
  apply countP_congr
  intro k hk
  rw [h k (mem_range.mp hk)]

theorem rank_push (h : ∀ k < n, q k = p k) (hn : q n = true) : rank q (n + 1) = rank p n + 1 := by
  rw [rank_succ, if_pos hn, rank_congr h]

/-- One satisfying slot fewer. -/
theorem rank_erase {k : Nat} (hk : k < n) (hp : p k = true)
    (hq : q k = false) (h : ∀ i, i ≠ k → q i = p i) : rank q n + 1 = rank p n := by
  induction n with
  | zero => omega
  | succ n ih =>
    rw [rank_succ, rank_succ]
    by_cases hkn : k = n
    · subst hkn
      rw [rank_congr (fun i hi => h i (Nat.ne_of_lt hi)), if_pos hp, hq]
      simp
    · have := ih (by omega)
      rw [h n (fun e => hkn e.symm)]
      omega

@[simp] theorem length_select (n : Nat) : (select p n).length = rank p n := by
  rw [select, rank, countP_eq_length_filter]

theorem mem_select : i ∈ select p n ↔ i < n ∧ p i = true := by
  simp [select, mem_filter]

theorem select_nodup (n : Nat) : (select p n).Nodup := nodup_range.filter p

theorem select_succ (n : Nat) : select p (n + 1) = select p n ++ if p n then [n] else [] := by
  simp [select, range_succ, filter_append, filter_cons]

/-- Slot `i` is selected at position `rank p i`, and nowhere else. -/
theorem getElem?_select {k : Nat} :
    (select p n)[k]? = some i ↔ i < n ∧ p i = true ∧ rank p i = k := by
  induction n with
  | zero => simp [select]
  | succ n ih =>
    rw [select_succ, getElem?_append, length_select]
    split
    · next hk =>
      rw [ih]
      constructor
      · rintro ⟨h1, h2, h3⟩; exact ⟨by omega, h2, h3⟩
      · rintro ⟨h1, h2, h3⟩
        refine ⟨?_, h2, h3⟩
        by_contra hc
        obtain rfl : i = n := by omega
        omega
    · next hk =>
      by_cases hn : p n
      · rw [if_pos hn]
        constructor
        · intro h
          obtain ⟨h0, hi⟩ := List.getElem?_eq_some_iff.mp h
          have h0' : k - rank p n = 0 := by simpa using h0
          have hi' : n = i := by simpa [h0'] using hi
          subst hi'
          exact ⟨by omega, hn, by omega⟩
        · rintro ⟨h1, h2, h3⟩
          obtain rfl : i = n := by
            by_contra hne
            have := rank_lt h2 (show i < n by omega)
            omega
          simp [← h3]
      · rw [if_neg hn]
        constructor
        · intro h; simp at h
        · rintro ⟨h1, h2, h3⟩
          have hne : i ≠ n := by rintro rfl; exact hn h2
          have := rank_lt h2 (show i < n by omega)
          omega

theorem getElem?_select_rank (hi : i < n) (hp : p i = true) : (select p n)[rank p i]? = some i :=
  getElem?_select.mpr ⟨hi, hp, rfl⟩

theorem zipIdx_filter_map {β : Type} (f : α × Nat → β) (l : List α) :
    (l.zipIdx.filter (fun entry => p entry.2)).map f =
      (select p l.length).filterMap (fun i => (l[i]?).map (fun x => f (x, i))) := by
  induction l using List.reverseRecOn with
  | nil => simp
  | append_singleton l a ih =>
    have hold : (select p l.length).filterMap
          (fun i => ((l ++ [a])[i]?).map (fun x => f (x, i))) =
        (select p l.length).filterMap (fun i => (l[i]?).map (fun x => f (x, i))) := by
      apply filterMap_congr
      intro i hi
      rw [getElem?_append_left (mem_select.mp hi).1]
    rw [zipIdx_append, filter_append, map_append, ih, length_append,
      length_singleton, select_succ, filterMap_append, hold]
    by_cases hp : p l.length <;> simp [hp]

theorem length_zipIdx_filter (l : List α) :
    (l.zipIdx.filter (fun entry => p entry.2)).length = rank p l.length := by
  induction l using List.reverseRecOn with
  | nil => simp
  | append_singleton l a ih =>
    rw [zipIdx_append, filter_append, length_append, ih, length_append,
      length_singleton, rank_succ]
    by_cases hp : p l.length <;> simp [hp]

theorem getElem?_zipIdx_filter_map {β : Type} (f : α × Nat → β) (l : List α) (k : Nat) :
    ((l.zipIdx.filter (fun entry => p entry.2)).map f)[k]? =
      ((select p l.length)[k]?).bind (fun i => (l[i]?).map (fun x => f (x, i))) := by
  rw [zipIdx_filter_map]
  have hall : ∀ sel : List Nat, (∀ i ∈ sel, i < l.length) →
      (sel.filterMap (fun i => (l[i]?).map (fun x => f (x, i))))[k]? =
        (sel[k]?).bind (fun i => (l[i]?).map (fun x => f (x, i))) := by
    intro sel
    induction sel generalizing k with
    | nil => simp
    | cons i sel ih =>
      intro hsel
      have hi : i < l.length := hsel i (by simp)
      rw [filterMap_cons, getElem?_eq_getElem hi]
      cases k with
      | zero => simp [getElem?_eq_getElem hi]
      | succ k => simpa using ih k (fun j hj => hsel j (by simp [hj]))
  exact hall _ (fun i hi => (mem_select.mp hi).1)

end CfgLib.Lib
