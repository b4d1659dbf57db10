import Mathlib.Data.List.Basic
import Mathlib.Data.List.Count
import Mathlib.Data.List.Dedup
import Mathlib.Data.List.Sort

/-!
# Counting placement

A stable counting sort over dense keys, as the compressed indices of a graph
are built: one pass tallies the keys, one accumulates the tallies into run
offsets, and one places every value at the next free slot of its key's run.
The run of a key then lists the values of that key in their original order.
-/

namespace CfgLib.Lib.CountingSort

/-- How many pairs carry each key, counted one slot to the right. -/
def tally (bound : Nat) (keys : List Nat) : List Nat :=
  keys.foldl (fun counts key => counts.modify (key + 1) (· + 1)) (List.replicate (bound + 1) 0)

/-- The running sum, in place, from the second entry on. -/
def accumulate (counts : List Nat) : List Nat :=
  (List.range (counts.length - 1)).foldl
    (fun sums i => sums.modify (i + 1) (· + sums.getD i 0)) counts

/-- The first slot of every key's run, with the total after the last. -/
def offsets (bound : Nat) (keys : List Nat) : List Nat :=
  accumulate (tally bound keys)

/-- The next free slot of every run, and the slots filled so far. -/
structure Placing (α : Type) where
  next : List Nat
  placed : List α

def Placing.place {α : Type} (state : Placing α) (pair : Nat × α) : Placing α :=
  let slot := state.next.getD pair.1 0
  { next := state.next.modify pair.1 (· + 1)
    placed := state.placed.set slot pair.2 }

/-- Every value at the next free slot of its key's run. -/
def placement {α : Type} (fill : α) (bound : Nat) (pairs : List (Nat × α)) : List α :=
  (pairs.foldl Placing.place
    { next := (offsets bound (pairs.map Prod.fst)).take bound
      placed := List.replicate pairs.length fill }).placed

def valuesOf {α : Type} (key : Nat) (pairs : List (Nat × α)) : List α :=
  (pairs.filter (fun pair => pair.1 == key)).map Prod.snd

def slice {α : Type} (values : List α) (start stop : Nat) : List α :=
  (values.drop start).take (stop - start)

def overwrite {α : Type} (values : List α) (start : Nat) (run : List α) : List α :=
  values.take start ++ run ++ values.drop (start + run.length)

/-! ## Dense table reads -/

theorem getD_modify (l : List Nat) (k i : Nat) (f : Nat → Nat) (hk : k < l.length) :
    (l.modify k f).getD i 0 = if i = k then f (l.getD i 0) else l.getD i 0 := by
  simp only [List.getD_eq_getElem?_getD, List.getElem?_modify]
  by_cases h : i = k
  · subst h
    simp [List.getElem?_eq_getElem hk]
  · have h' : k ≠ i := Ne.symm h
    simp [h, h']

/-! ## Offsets -/

theorem tally_fold_length (keys : List Nat) (counts : List Nat) :
    (keys.foldl (fun counts key => counts.modify (key + 1) (· + 1)) counts).length =
      counts.length := by
  induction keys generalizing counts with
  | nil => rfl
  | cons key keys ih => rw [List.foldl_cons, ih, List.length_modify]

@[simp] theorem length_tally (bound : Nat) (keys : List Nat) :
    (tally bound keys).length = bound + 1 := by
  rw [tally, tally_fold_length, List.length_replicate]

theorem tally_fold_getD (keys : List Nat) (counts : List Nat) (i : Nat)
    (hkeys : ∀ key ∈ keys, key + 1 < counts.length) :
    (keys.foldl (fun counts key => counts.modify (key + 1) (· + 1)) counts).getD i 0 =
      counts.getD i 0 + keys.countP (fun key => key + 1 == i) := by
  induction keys generalizing counts with
  | nil => simp
  | cons key keys ih =>
    have hkey : key + 1 < counts.length := hkeys key (by simp)
    have hrest : ∀ k ∈ keys, k + 1 < (counts.modify (key + 1) (· + 1)).length := by
      intro k hk
      rw [List.length_modify]
      exact hkeys k (by simp [hk])
    rw [List.foldl_cons, ih _ hrest, getD_modify _ _ _ _ hkey, List.countP_cons]
    by_cases h : i = key + 1
    · subst h; simp; omega
    · have h' : ¬ key + 1 = i := fun e => h e.symm
      simp [h, h']

theorem tally_zero (bound : Nat) (keys : List Nat) (hkeys : ∀ key ∈ keys, key < bound) :
    (tally bound keys).getD 0 0 = 0 := by
  rw [tally, tally_fold_getD _ _ _ (by simpa using hkeys)]
  simp [List.getD_eq_getElem?_getD]

theorem tally_succ (bound : Nat) (keys : List Nat) (hkeys : ∀ key ∈ keys, key < bound)
    (k : Nat) : (tally bound keys).getD (k + 1) 0 = keys.count k := by
  rw [tally, tally_fold_getD _ _ _ (by simpa using hkeys)]
  have hzero : (List.replicate (bound + 1) 0).getD (k + 1) 0 = 0 := by
    simp only [List.getD_eq_getElem?_getD, List.getElem?_replicate]
    split <;> rfl
  rw [hzero, Nat.zero_add]
  simp only [List.count]
  congr 1
  funext key
  simp

@[simp] theorem length_accumulate (counts : List Nat) :
    (accumulate counts).length = counts.length := by
  unfold accumulate
  generalize List.range (counts.length - 1) = is
  induction is generalizing counts with
  | nil => rfl
  | cons i is ih => rw [List.foldl_cons, ih, List.length_modify]

/-- The sum of the counts up to and including an entry. -/
def partialSum (counts : List Nat) : Nat → Nat
  | 0 => counts.getD 0 0
  | i + 1 => partialSum counts i + counts.getD (i + 1) 0

/-- The accumulation loop after `m` steps: summed up to `m`, untouched after. -/
theorem accumulate_steps (counts : List Nat) (m : Nat) (hm : m ≤ counts.length - 1) :
    let sums := (List.range m).foldl
      (fun sums i => sums.modify (i + 1) (· + sums.getD i 0)) counts
    sums.length = counts.length ∧
      (∀ i, i ≤ m → sums.getD i 0 = partialSum counts i) ∧
      (∀ i, m < i → sums.getD i 0 = counts.getD i 0) := by
  induction m with
  | zero =>
    refine ⟨rfl, ?_, fun i _ => rfl⟩
    intro i hi
    obtain rfl : i = 0 := by omega
    rfl
  | succ m ih =>
    obtain ⟨hlen, hdone, hrest⟩ := ih (by omega)
    simp only [List.range_succ, List.foldl_append, List.foldl_cons, List.foldl_nil]
    set sums := (List.range m).foldl
      (fun sums i => sums.modify (i + 1) (· + sums.getD i 0)) counts
    have hslot : m + 1 < sums.length := by omega
    refine ⟨by rw [List.length_modify, hlen], ?_, ?_⟩
    · intro i hi
      rw [getD_modify _ _ _ _ hslot]
      split
      · subst i
        rw [hrest _ (by omega), hdone _ (by omega)]
        exact Nat.add_comm _ _
      · exact hdone i (by omega)
    · intro i hi
      rw [getD_modify _ _ _ _ hslot, if_neg (by omega)]
      exact hrest i (by omega)

theorem accumulate_getD (counts : List Nat) (i : Nat) (hi : i < counts.length) :
    (accumulate counts).getD i 0 = partialSum counts i :=
  (accumulate_steps counts (counts.length - 1) (Nat.le_refl _)).2.1 i (by omega)

@[simp] theorem length_offsets (bound : Nat) (keys : List Nat) :
    (offsets bound keys).length = bound + 1 := by
  simp [offsets]

theorem offsets_zero (bound : Nat) (keys : List Nat) (hkeys : ∀ key ∈ keys, key < bound) :
    (offsets bound keys).getD 0 0 = 0 := by
  rw [offsets, accumulate_getD _ _ (by simp)]
  exact tally_zero bound keys hkeys

theorem offsets_succ (bound : Nat) (keys : List Nat) (hkeys : ∀ key ∈ keys, key < bound)
    (k : Nat) (hk : k < bound) :
    (offsets bound keys).getD (k + 1) 0 = (offsets bound keys).getD k 0 + keys.count k := by
  rw [offsets, accumulate_getD _ _ (by simp; omega), accumulate_getD _ _ (by simp; omega),
    partialSum, tally_succ bound keys hkeys]

theorem countP_lt_succ (keys : List Nat) (k : Nat) : keys.countP (fun key => decide (key < k + 1)) =
      keys.countP (fun key => decide (key < k)) + keys.count k := by
  induction keys with
  | nil => rfl
  | cons key keys ih =>
    rw [List.countP_cons, List.countP_cons, List.count_cons, ih]
    rcases Nat.lt_trichotomy key k with h | h | h
    · simp [h, Nat.lt_succ_of_lt h, Nat.ne_of_lt h]; omega
    · subst h; simp; omega
    · have h1 : ¬ key < k := by omega
      have h2 : ¬ key < k + 1 := by omega
      have h3 : ¬ key = k := by omega
      simp [h1, h2, h3]

theorem offsets_getD (bound : Nat) (keys : List Nat) (hkeys : ∀ key ∈ keys, key < bound)
    (k : Nat) (hk : k ≤ bound) :
    (offsets bound keys).getD k 0 = keys.countP (fun key => decide (key < k)) := by
  induction k with
  | zero => rw [offsets_zero bound keys hkeys]; simp
  | succ k ih => rw [offsets_succ bound keys hkeys k hk, ih (by omega), countP_lt_succ]

theorem offsets_last (bound : Nat) (keys : List Nat) (hkeys : ∀ key ∈ keys, key < bound) :
    (offsets bound keys).getD bound 0 = keys.length := by
  rw [offsets_getD bound keys hkeys bound (Nat.le_refl _), List.countP_eq_length]
  simpa using hkeys

theorem offsets_mono (bound : Nat) (keys : List Nat) (hkeys : ∀ key ∈ keys, key < bound)
    {i k : Nat} (hik : i ≤ k) (hk : k ≤ bound) :
    (offsets bound keys).getD i 0 ≤ (offsets bound keys).getD k 0 := by
  rw [offsets_getD bound keys hkeys i (by omega), offsets_getD bound keys hkeys k hk]
  apply List.countP_mono_left
  intro key _ h
  simp only [decide_eq_true_eq] at h ⊢
  omega

/-! ## Placement -/

section Placement

variable {α : Type}

@[simp] theorem valuesOf_nil (k : Nat) : valuesOf k ([] : List (Nat × α)) = [] := rfl

theorem valuesOf_append (k : Nat) (xs ys : List (Nat × α)) :
    valuesOf k (xs ++ ys) = valuesOf k xs ++ valuesOf k ys := by
  simp [valuesOf]

theorem valuesOf_singleton (k : Nat) (pair : Nat × α) :
    valuesOf k [pair] = if pair.1 = k then [pair.2] else [] := by
  by_cases h : pair.1 = k <;> simp [valuesOf, h]

theorem length_valuesOf (k : Nat) (pairs : List (Nat × α)) :
    (valuesOf k pairs).length = (pairs.map Prod.fst).count k := by
  induction pairs with
  | nil => rfl
  | cons pair pairs ih =>
    rw [← List.singleton_append, valuesOf_append, List.length_append, ih, valuesOf_singleton]
    by_cases h : pair.1 = k <;> simp [h]
    omega

/-- The placing loop after the pairs `done`: every run is filled from its
offset with the values seen so far, and its next slot follows them. -/
structure Filled (off : Nat → Nat) (bound : Nat) (done : List (Nat × α))
    (state : Placing α) : Prop where
  next_length : state.next.length = bound
  next_getD : ∀ k < bound, state.next.getD k 0 = off k + (valuesOf k done).length
  placed_get : ∀ k < bound, ∀ j < (valuesOf k done).length,
    state.placed[off k + j]? = (valuesOf k done)[j]?

theorem Filled.place {off : Nat → Nat} {bound : Nat} {done rest : List (Nat × α)}
    {pair : Nat × α} {state : Placing α} (h : Filled off bound done state) (hpair : pair.1 < bound)
    (hroom : ∀ k < bound, off k + (valuesOf k (done ++ pair :: rest)).length ≤ off (k + 1))
    (hmono : ∀ i k, i ≤ k → k ≤ bound → off i ≤ off k) (hlen : off bound ≤ state.placed.length) :
    Filled off bound (done ++ [pair]) (state.place pair) := by
  have hcount : ∀ k < bound, off k + (valuesOf k done).length ≤ off (k + 1) ∧
      (pair.1 = k → off k + (valuesOf k done).length < off (k + 1)) := by
    intro k hk
    have hr := hroom k hk
    rw [valuesOf_append, ← List.singleton_append, valuesOf_append, valuesOf_singleton] at hr
    constructor
    · simp only [List.length_append] at hr; omega
    · intro he
      simp only [he, if_true, List.length_append, List.length_singleton] at hr
      omega
  have hslot := h.next_getD pair.1 hpair
  refine ⟨?_, ?_, ?_⟩
  · simpa [Placing.place] using h.next_length
  · intro k hk
    simp only [Placing.place]
    rw [getD_modify _ _ _ _ (by rw [h.next_length]; exact hpair), h.next_getD k hk,
      valuesOf_append, valuesOf_singleton]
    by_cases hpk : pair.1 = k
    · simp [hpk]; omega
    · have : ¬ k = pair.1 := fun e => hpk e.symm
      simp [hpk, this]
  · intro k hk j hj
    simp only [Placing.place, hslot]
    rw [List.getElem?_set]
    by_cases hpk : pair.1 = k
    · subst hpk
      rw [valuesOf_append, valuesOf_singleton, if_pos rfl] at hj ⊢
      simp only [List.length_append, List.length_singleton] at hj
      by_cases hjl : j = (valuesOf pair.1 done).length
      · subst hjl
        have hin : off pair.1 + (valuesOf pair.1 done).length < state.placed.length := by
          have h1 := (hcount pair.1 hpair).2 rfl
          have h2 := hmono (pair.1 + 1) bound hpair (Nat.le_refl _)
          omega
        simp [hin]
      · rw [if_neg (by omega), h.placed_get _ hpair j (by omega),
          List.getElem?_append_left (by omega)]
    · rw [valuesOf_append, valuesOf_singleton, if_neg hpk, List.append_nil] at hj ⊢
      -- the slot written lies in another key's run
      have hne : off pair.1 + (valuesOf pair.1 done).length ≠ off k + j := by
        have h1 := (hcount pair.1 hpair).2 rfl
        have h2 := (hcount k hk).1
        rcases Nat.lt_or_gt_of_ne hpk with hlt | hgt
        · have := hmono (pair.1 + 1) k hlt (by omega)
          omega
        · have := hmono (k + 1) pair.1 hgt (by omega)
          omega
      rw [if_neg hne, h.placed_get k hk j hj]

theorem filled_foldl {off : Nat → Nat} {bound : Nat} (rest : List (Nat × α)) :
    ∀ {done : List (Nat × α)} {state : Placing α}, Filled off bound done state →
    (∀ pair ∈ rest, pair.1 < bound) →
    (∀ k < bound, off k + (valuesOf k (done ++ rest)).length ≤ off (k + 1)) →
    (∀ i k, i ≤ k → k ≤ bound → off i ≤ off k) → off bound ≤ state.placed.length →
    Filled off bound (done ++ rest) (rest.foldl Placing.place state) := by
  induction rest with
  | nil => intro done state h _ _ _ _; simpa using h
  | cons pair rest ih =>
    intro done state h hkeys hroom hmono hlen
    have hstep := h.place (hkeys pair (by simp)) hroom hmono hlen
    have hsplit : done ++ pair :: rest = (done ++ [pair]) ++ rest := by simp
    rw [hsplit] at hroom ⊢
    exact ih hstep (fun p hp => hkeys p (by simp [hp])) hroom hmono
      (by simpa [Placing.place] using hlen)

theorem length_placement (fill : α) (bound : Nat) (pairs : List (Nat × α)) :
    (placement fill bound pairs).length = pairs.length := by
  have h : ∀ (l : List (Nat × α)) (state : Placing α),
      (l.foldl Placing.place state).placed.length = state.placed.length := by
    intro l
    induction l with
    | nil => intro state; rfl
    | cons pair l ih => intro state; rw [List.foldl_cons, ih]; simp [Placing.place]
  rw [placement, h, List.length_replicate]

theorem filled_placement (fill : α) (bound : Nat) (pairs : List (Nat × α))
    (hkeys : ∀ pair ∈ pairs, pair.1 < bound) :
    Filled (fun i => (offsets bound (pairs.map Prod.fst)).getD i 0) bound pairs
      (pairs.foldl Placing.place
        { next := (offsets bound (pairs.map Prod.fst)).take bound
          placed := List.replicate pairs.length fill }) ∧
      ∀ i < bound, (offsets bound (pairs.map Prod.fst)).getD (i + 1) 0 =
        (offsets bound (pairs.map Prod.fst)).getD i 0 + (valuesOf i pairs).length := by
  generalize hoff : offsets bound (pairs.map Prod.fst) = off
  have hkeys' : ∀ key ∈ pairs.map Prod.fst, key < bound := by
    intro key hkey
    obtain ⟨pair, hpair, rfl⟩ := List.mem_map.mp hkey
    exact hkeys pair hpair
  have hsucc : ∀ i < bound, off.getD (i + 1) 0 = off.getD i 0 + (valuesOf i pairs).length := by
    intro i hi
    rw [length_valuesOf, ← hoff]
    exact offsets_succ bound _ hkeys' i hi
  have hstart : Filled (fun i => off.getD i 0) bound ([] : List (Nat × α))
      { next := off.take bound, placed := List.replicate pairs.length fill } := by
    refine ⟨by simp [← hoff], ?_, ?_⟩
    · intro i hi
      simp only [valuesOf_nil, List.length_nil, Nat.add_zero, List.getD_eq_getElem?_getD,
        List.getElem?_take, hi, if_true]
    · intro i _ j hj
      simp at hj
  have hfilled := filled_foldl pairs hstart hkeys
    (fun i hi => by rw [List.nil_append]; exact Nat.le_of_eq (hsucc i hi).symm)
    (fun i j hij hj => by rw [← hoff]; exact offsets_mono bound _ hkeys' hij hj)
    (by
      have h := offsets_last bound _ hkeys'
      rw [List.length_map, hoff] at h
      simpa using Nat.le_of_eq h)
  exact ⟨hfilled, hsucc⟩

/-- Run `key` of the placement lists the values of `key` in order. -/
theorem placement_run (fill : α) (bound : Nat) (pairs : List (Nat × α))
    (hkeys : ∀ pair ∈ pairs, pair.1 < bound) (k : Nat) (hk : k < bound) :
    let off := offsets bound (pairs.map Prod.fst)
    slice (placement fill bound pairs) (off.getD k 0) (off.getD (k + 1) 0) = valuesOf k pairs := by
  intro off
  obtain ⟨hfilled, hsucc⟩ := filled_placement fill bound pairs hkeys
  have hget := hfilled.placed_get k hk
  have hlen : off.getD (k + 1) 0 - off.getD k 0 = (valuesOf k pairs).length := by
    have hk' : off.getD (k + 1) 0 = off.getD k 0 + (valuesOf k pairs).length := hsucc k hk
    omega
  apply List.ext_getElem?
  intro j
  rw [slice, hlen, List.getElem?_take, List.getElem?_drop]
  split
  · next hj => exact hget j (by simpa using hj)
  · next hj => rw [List.getElem?_eq_none (by omega)]

end Placement

/-! ## Rewriting runs -/

section Overwrite

variable {α : Type}

variable {run values : List α} {start : Nat}

theorem length_overwrite (h : start + run.length ≤ values.length) :
    (overwrite values start run).length = values.length := by
  simp only [overwrite, List.length_append, List.length_take, List.length_drop]
  omega

theorem getElem?_overwrite (h : start + run.length ≤ values.length) (i : Nat) :
    (overwrite values start run)[i]? =
      if start ≤ i ∧ i < start + run.length then run[i - start]? else values[i]? := by
  have hlen : (values.take start).length = start := by
    rw [List.length_take]; omega
  unfold overwrite
  by_cases h1 : i < start
  · rw [List.append_assoc, List.getElem?_append_left (by omega), List.getElem?_take, if_pos h1,
      if_neg (by omega)]
  · by_cases h2 : i < start + run.length
    · rw [List.append_assoc, List.getElem?_append_right (by omega),
        List.getElem?_append_left (by omega), hlen, if_pos ⟨by omega, h2⟩]
    · rw [List.getElem?_append_right (by simp only [List.length_append]; omega), List.getElem?_drop,
        if_neg (by omega)]
      congr 1
      simp only [List.length_append]
      omega

theorem slice_overwrite_self {stop : Nat} (h : start + run.length ≤ values.length) (hstop : stop = start + run.length) :
    slice (overwrite values start run) start stop = run := by
  apply List.ext_getElem?
  intro j
  rw [slice, List.getElem?_take, List.getElem?_drop, getElem?_overwrite h]
  by_cases hj : j < stop - start
  · rw [if_pos hj, if_pos (by omega)]
    congr 1
    omega
  · rw [if_neg hj, List.getElem?_eq_none (by omega)]

theorem slice_overwrite_other {first last : Nat} (h : start + run.length ≤ values.length)
    (hdisj : last ≤ start ∨ start + run.length ≤ first) :
    slice (overwrite values start run) first last = slice values first last := by
  apply List.ext_getElem?
  intro j
  rw [slice, slice, List.getElem?_take, List.getElem?_drop, List.getElem?_take, List.getElem?_drop,
    getElem?_overwrite h]
  by_cases hj : j < last - first
  · rw [if_pos hj, if_pos hj, if_neg (by omega)]
  · rw [if_neg hj, if_neg hj]

/-- Rewriting whole runs, each at most once: a listed key's run becomes its
replacement, and every other run stays. -/
theorem slice_foldl_overwrite {off : Nat → Nat} {bound : Nat}
    (hmono : ∀ i k, i ≤ k → k ≤ bound → off i ≤ off k) (entries : List (Nat × List α)) :
    ∀ (values : List α), off bound ≤ values.length →
    (∀ entry ∈ entries, entry.1 < bound ∧ off entry.1 + entry.2.length = off (entry.1 + 1)) →
    (entries.map Prod.fst).Nodup →
    let result := entries.foldl (fun values entry => overwrite values (off entry.1) entry.2) values
    result.length = values.length ∧
      ∀ k < bound,
        (∀ entry ∈ entries, entry.1 = k → slice result (off k) (off (k + 1)) = entry.2) ∧
        (k ∉ entries.map Prod.fst →
          slice result (off k) (off (k + 1)) = slice values (off k) (off (k + 1))) := by
  induction entries with
  | nil => intro values _ _ _; exact ⟨rfl, fun k _ => ⟨by simp, fun _ => rfl⟩⟩
  | cons entry entries ih =>
    intro values hlen hentries hnodup
    obtain ⟨hlt, hrun⟩ := hentries entry (by simp)
    have hfit : off entry.1 + entry.2.length ≤ values.length := by
      have := hmono (entry.1 + 1) bound hlt (Nat.le_refl _)
      omega
    have hlen' := length_overwrite hfit
    rw [List.map_cons, List.nodup_cons] at hnodup
    obtain ⟨hres, hslices⟩ := ih (overwrite values (off entry.1) entry.2)
      (by rw [hlen']; exact hlen) (fun e he => hentries e (by simp [he])) hnodup.2
    refine ⟨hres.trans hlen', ?_⟩
    intro k hk
    obtain ⟨hin, hout⟩ := hslices k hk
    refine ⟨?_, ?_⟩
    · intro e he hek
      rcases List.mem_cons.mp he with rfl | he
      · subst hek
        exact (hout hnodup.1).trans (slice_overwrite_self hfit hrun.symm)
      · exact hin e he hek
    · intro hk'
      simp only [List.map_cons, List.mem_cons, not_or] at hk'
      refine (hout hk'.2).trans (slice_overwrite_other hfit ?_)
      rcases Nat.lt_or_gt_of_ne hk'.1 with hlt' | hgt'
      · exact Or.inl (hmono (k + 1) entry.1 hlt' (by omega))
      · exact Or.inr (by have := hmono (entry.1 + 1) k hgt' (by omega); omega)

end Overwrite

end CfgLib.Lib.CountingSort

namespace CfgLib.Lib

/-! ## Sorting without repetitions -/

section Ascending

variable {α : Type} [LinearOrder α]

/-- The members of a list in strictly ascending order. -/
def ascending (l : List α) : List α := (l.insertionSort (· ≤ ·)).dedup

@[simp] theorem mem_ascending {l : List α} {a : α} : a ∈ ascending l ↔ a ∈ l := by
  rw [ascending, List.mem_dedup, List.mem_insertionSort]

theorem nodup_ascending (l : List α) : (ascending l).Nodup := List.nodup_dedup _

theorem pairwise_ascending (l : List α) : (ascending l).Pairwise (· < ·) := by
  have hle : (ascending l).Pairwise (· ≤ ·) :=
    (List.pairwise_insertionSort (· ≤ ·) l).sublist (List.dedup_sublist _)
  exact hle.imp₂ (fun a b hab hne => lt_of_le_of_ne hab hne) (nodup_ascending l)

end Ascending

end CfgLib.Lib
