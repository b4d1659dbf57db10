import CfgLib.Lib.CountingSort
import CfgLib.Lib.Fold
import CfgLib.Lib.MapM
import Mathlib.Data.List.Flatten

/-!
# Fan-out tables

`DenseFanout` of `graph/fanout.rs`: the values of every key of a dense key space in one column,
with the bounds of their runs.  While a table is built the bounds column is the counters, then
the ends of the runs, and then the cursors that values are placed from, backwards.
-/

namespace CfgLib

open CfgLib.Lib List
open CountingSort (valuesOf slice)

variable {V : Type}

/-- A table that gives every key below its bound a run of values. -/
structure DenseFanout (V : Type) where
  offsets : List Nat
  values : List V
  deriving DecidableEq, Repr

namespace DenseFanout

def bound (t : DenseFanout V) : Nat := t.offsets.length - 1

/-- The run of a key; `none` is the panic on a key outside the table. -/
def get (t : DenseFanout V) (key : Nat) : Option (List V) := do
  let start ← t.offsets[key]?
  let stop ← t.offsets[key + 1]?
  if start ≤ stop ∧ stop ≤ t.values.length then some (slice t.values start stop) else none

/-- A run bound; `none` is the panic on one that is no `u32`. -/
def runBound (count : Nat) : Option Nat := if count ≤ 0xFFFFFFFF then some count else none

/-- Count a pair; `none` is the panic on a key outside the key space. -/
def countKey (bound : Nat) (counts : List Nat) (pair : Nat × V) : Option (List Nat) :=
  if pair.1 < bound then some (counts.modify pair.1 (· + 1)) else none

/-- The counters turned into the ends of the runs, in place, behind `stop`. -/
def runEnds (stop : Nat) : List Nat → List Nat
  | [] => []
  | count :: counts => (stop + count) :: runEnds (stop + count) counts

/-- Put a value in the slot below its key's cursor. -/
def placeBack (state : List Nat × List (Option V)) (pair : Nat × V) : Option (List Nat × List (Option V)) := do
  let stop ← state.1[pair.1]?
  if 0 < stop ∧ stop ≤ state.2.length then
    some (state.1.set pair.1 (stop - 1), state.2.set (stop - 1) (some pair.2))
  else none

def fromPairs (bound : Nat) (pairs : List (Nat × V)) : Option (DenseFanout V) := do
  let total ← runBound pairs.length
  if bound = 0 then if pairs.isEmpty then some ⟨[], []⟩ else none
  else
    let counts ← pairs.foldlM (countKey bound) (replicate (bound + 1) 0)
    let ends := runEnds 0 (counts.take bound) ++ [total]
    let (offsets, slots) ← pairs.reverse.foldlM placeBack (ends, replicate total none)
    let values ← slots.mapM id
    some ⟨offsets, values⟩

/-- Put a group behind the values so far; `none` is the panic on a start that is no `u32`. -/
def openGroup (state : List Nat × List V) (group : List V) : Option (List Nat × List V) := do
  let start ← runBound state.2.length
  some (state.1 ++ [start], state.2 ++ group)

def fromGrouped (groups : List (List V)) : Option (DenseFanout V) := do
  let (offsets, values) ← groups.foldlM openGroup ([], [])
  if offsets.isEmpty then some ⟨offsets, values⟩
  else
    let total ← runBound values.length
    some ⟨offsets ++ [total], values⟩

/-! ## The counters and the ends -/

variable {bound : Nat} {pairs : List (Nat × V)} {off : Nat → Nat}

theorem foldlM_countKey {counts : List Nat}
    (h : pairs.foldlM (countKey bound) (replicate (bound + 1) 0) = some counts) : (∀ pair ∈ pairs, pair.1 < bound) ∧
      counts.length = bound + 1 ∧ ∀ key, counts.getD key 0 = (pairs.map Prod.fst).count key := by
  refine foldlM_option (I := fun done counts => (∀ pair ∈ done, pair.1 < bound) ∧
      counts.length = bound + 1 ∧ ∀ key, counts.getD key 0 = (done.map Prod.fst).count key)
    (fun done pair counts counts' ⟨hkeys, hlength, hcounts⟩ hs => ?_) ⟨by simp, length_replicate, fun key => ?_⟩ h
  · rw [getD_eq_getElem?_getD, getElem?_replicate]
    split <;> rfl
  · obtain ⟨hlt, hs⟩ := Option.ite_none_right_eq_some.mp hs
    cases hs
    refine ⟨fun p hp => ?_, by rw [length_modify, hlength], fun key => ?_⟩
    · rcases mem_append.mp hp with hp | hp
      · exact hkeys p hp
      · exact mem_singleton.mp hp ▸ hlt
    · rw [CountingSort.getD_modify _ _ _ _ (by omega), hcounts, map_append, count_append, map_singleton, count_singleton]
      by_cases he : key = pair.1
      · simp [he]
      · simp [he, Ne.symm he]

theorem exists_foldlM_countKey (hkeys : ∀ pair ∈ pairs, pair.1 < bound) :
    ∃ counts, pairs.foldlM (countKey bound) (replicate (bound + 1) 0) = some counts := by
  have hstep : ∀ done pair rest (counts : List Nat), pairs = done ++ pair :: rest → True →
      ∃ counts', countKey bound counts pair = some counts' ∧ True :=
    fun _ pair _ _ he _ => ⟨_, if_pos (hkeys pair (he ▸ mem_append_right _ mem_cons_self)), trivial⟩
  obtain ⟨counts, h, -⟩ := foldlM_option_total (I := fun _ _ => True) hstep trivial
  exact ⟨counts, h⟩

/-- The ends are the sums of the counters. -/
theorem getElem?_runEnds {counts : List Nat} {n : Nat} (hoff : ∀ key < n, off (key + 1) = off key + counts.getD key 0) :
    ∀ key < n, n ≤ counts.length → (runEnds (off 0) (counts.take n))[key]? = some (off (key + 1)) := by
  induction counts generalizing n off with
  | nil => exact fun key hkey hle => absurd (hkey.trans_le hle) (Nat.not_lt_zero _)
  | cons count counts ih =>
    intro key hkey hle
    obtain ⟨n, rfl⟩ : ∃ m, n = m + 1 := ⟨n - 1, by omega⟩
    have hfirst : off 0 + count = off 1 := (hoff 0 (Nat.succ_pos n)).symm
    rw [take_succ_cons, runEnds, hfirst]
    cases key with
    | zero => rfl
    | succ key =>
      exact @ih (fun k => off (k + 1)) _ (fun k hk => hoff (k + 1) (Nat.succ_lt_succ hk)) key
        (Nat.lt_of_succ_lt_succ hkey) (Nat.le_of_succ_le_succ hle)

theorem length_runEnds (counts : List Nat) : ∀ stop, (runEnds stop counts).length = counts.length := by
  induction counts with
  | nil => exact fun _ => rfl
  | cons count counts ih => exact fun stop => congrArg (· + 1) (ih (stop + count))

/-! ## Placing -/

/-- Where the runs lie that hold the values of some pairs. -/
structure IsLayout (off : Nat → Nat) (bound : Nat) (pairs : List (Nat × V)) : Prop where
  keys_lt : ∀ pair ∈ pairs, pair.1 < bound
  mono : ∀ {i k}, i ≤ k → k ≤ bound → off i ≤ off k
  room : ∀ key < bound, off key + (valuesOf key pairs).length ≤ off (key + 1)

/-- The pairs `done`, which are the last ones, fill the upper ends of their runs down to the cursors. -/
structure Placed (off : Nat → Nat) (bound total : Nat) (done : List (Nat × V)) (state : List Nat × List (Option V)) :
    Prop where
  length_cursors : state.1.length = bound + 1
  length_slots : state.2.length = off bound
  closing : state.1[bound]? = some total
  cursor : ∀ key < bound, ∃ start, state.1[key]? = some start ∧ start + (valuesOf key done).length = off (key + 1) ∧
    ∀ j < (valuesOf key done).length, state.2[start + j]? = some (valuesOf key done)[j]?

theorem valuesOf_cons (key : Nat) (pair : Nat × V) (pairs : List (Nat × V)) :
    valuesOf key (pair :: pairs) = if pair.1 = key then pair.2 :: valuesOf key pairs else valuesOf key pairs := by
  by_cases h : pair.1 = key <;> simp [valuesOf, h]

/-- Placing one more pair, the one before `done`. -/
theorem Placed.placeBack {total : Nat} {pair : Nat × V} {done : List (Nat × V)} {state : List Nat × List (Option V)}
    (h : Placed off bound total done state) (hlay : IsLayout off bound (pair :: done)) :
    ∃ state', placeBack state pair = some state' ∧ Placed off bound total (pair :: done) state' := by
  have hlt := hlay.keys_lt pair mem_cons_self
  have hroom : ∀ key < bound, off key + (valuesOf key done).length + (if pair.1 = key then 1 else 0) ≤ off (key + 1) := by
    intro key hkey
    have := hlay.room key hkey
    rw [valuesOf_cons] at this
    split <;> simp_all
    omega
  obtain ⟨stop, hstop, hcount, hslots⟩ := h.cursor pair.1 hlt
  have hown := hroom pair.1 hlt
  have htop := hlay.mono (i := pair.1 + 1) hlt (Nat.le_refl bound)
  rw [if_pos rfl] at hown
  have hpos : 0 < stop ∧ stop ≤ state.2.length := by
    rw [h.length_slots]
    omega
  refine ⟨_, by rw [DenseFanout.placeBack, hstop]; exact if_pos hpos, by rw [length_set, h.length_cursors],
    by rw [length_set, h.length_slots], ?_, fun key hkey => ?_⟩
  · rw [getElem?_set_ne (by omega), h.closing]
  · obtain ⟨start, hstart, hcount', hslots'⟩ := h.cursor key hkey
    rw [valuesOf_cons]
    by_cases he : pair.1 = key
    · subst he
      cases hstop.symm.trans hstart
      rw [if_pos rfl]
      refine ⟨stop - 1, getElem?_set_self (by rw [h.length_cursors]; omega), by rw [length_cons]; omega, fun j hj => ?_⟩
      cases j with
      | zero => exact getElem?_set_self (by omega)
      | succ j =>
        rw [getElem?_set_ne (by omega), getElem?_cons_succ, ← hslots j (by simpa using hj)]
        congr 1
        omega
    · rw [if_neg he]
      refine ⟨start, by rw [getElem?_set_ne he, hstart], hcount', fun j hj => ?_⟩
      -- the slot written lies in another key's run
      have hother := hroom key hkey
      have hne : stop - 1 ≠ start + j := by
        rcases Nat.lt_or_gt_of_ne he with hlt' | hgt
        · have := hlay.mono (i := pair.1 + 1) hlt' hkey.le
          omega
        · have := hlay.mono (i := key + 1) hgt hlt.le
          omega
      rw [getElem?_set_ne hne, hslots' j hj]

theorem exists_foldlM_placeBack {total : Nat} {state : List Nat × List (Option V)} (h : Placed off bound total [] state) :
    ∀ {pairs : List (Nat × V)}, IsLayout off bound pairs → ∃ state',
      pairs.reverse.foldlM DenseFanout.placeBack state = some state' ∧ Placed off bound total pairs state' := by
  intro pairs
  induction pairs with
  | nil => exact fun _ => ⟨state, rfl, h⟩
  | cons pair pairs ih =>
    intro hlay
    obtain ⟨mid, hmid, hplaced⟩ := ih ⟨fun p hp => hlay.keys_lt p (mem_cons_of_mem _ hp), hlay.mono, fun key hkey => by
      have := hlay.room key hkey
      rw [valuesOf_cons] at this
      split at this <;> simp_all
      omega⟩
    obtain ⟨state', hs, hplaced'⟩ := hplaced.placeBack hlay
    refine ⟨state', ?_, hplaced'⟩
    rw [reverse_cons, foldlM_append, hmid]
    exact (Option.bind_some _ _).trans (by rw [foldlM_cons, hs]; rfl)

/-! ## The table of some runs -/

/-- Every key's values, in ascending key order. -/
def runsOf (bound : Nat) (pairs : List (Nat × V)) : List (List V) := (range bound).map fun key => valuesOf key pairs

/-- The table of some runs: where each starts, and all of them end to end. -/
def ofRuns (runs : List (List V)) : DenseFanout V where
  offsets := if runs.isEmpty then [] else (range (runs.length + 1)).map fun key => (runs.take key).flatten.length
  values := runs.flatten

theorem slice_flatten {runs : List (List V)} {key : Nat} (hkey : key < runs.length) :
    slice runs.flatten (runs.take key).flatten.length (runs.take (key + 1)).flatten.length = runs[key] := by
  have hsplit : runs.flatten = (runs.take key).flatten ++ (runs[key] ++ (runs.drop (key + 1)).flatten) := by
    rw [← flatten_cons, ← drop_eq_getElem_cons hkey, ← flatten_append, take_append_drop]
  rw [slice, take_succ_eq_append_getElem hkey, flatten_append, length_append, Nat.add_sub_cancel_left, hsplit, drop_left]
  simp

theorem bound_ofRuns (runs : List (List V)) : (ofRuns runs).bound = runs.length := by
  cases runs <;> simp [ofRuns, DenseFanout.bound]

theorem get_ofRuns (runs : List (List V)) (key : Nat) : (ofRuns runs).get key = runs[key]? := by
  by_cases hkey : key < runs.length
  · have hruns : runs.isEmpty = false := isEmpty_eq_false_iff.mpr (ne_nil_of_length_pos (Nat.zero_lt_of_lt hkey))
    have hoff : ∀ k ≤ runs.length, (ofRuns runs).offsets[k]? = some (runs.take k).flatten.length := fun k hk => by
      rw [ofRuns, hruns, if_neg Bool.false_ne_true, getElem?_map, getElem?_range (Nat.lt_succ_of_le hk), Option.map_some]
    have hslice := slice_flatten hkey
    have hle : (runs.take key).flatten.length ≤ (runs.take (key + 1)).flatten.length ∧
        (runs.take (key + 1)).flatten.length ≤ (ofRuns runs).values.length :=
      ⟨by rw [take_succ_eq_append_getElem hkey, flatten_append, length_append]; exact Nat.le_add_right _ _,
        (take_sublist _ _).flatten.length_le⟩
    rw [DenseFanout.get, hoff key hkey.le, hoff (key + 1) hkey, getElem?_eq_getElem hkey]
    exact (if_pos hle).trans (congrArg some hslice)
  · have hstop : (ofRuns runs).offsets[key + 1]? = none := getElem?_eq_none (by
      rw [ofRuns]
      split <;> simp
      omega)
    rw [DenseFanout.get, hstop, getElem?_eq_none (Nat.not_lt.mp hkey)]
    exact Option.bind_eq_none_iff.mpr fun _ _ => rfl

/-- The starts of the groups so far, and their values. -/
structure Opened (done : List (List V)) (state : List Nat × List V) : Prop where
  starts : state.1 = (range done.length).map fun key => (done.take key).flatten.length
  values : state.2 = done.flatten

theorem Opened.openGroup {done : List (List V)} {group : List V} {state : List Nat × List V} (h : Opened done state) :
    Opened (done ++ [group]) (state.1 ++ [state.2.length], state.2 ++ group) where
  starts := by
    rw [h.starts, h.values, length_append, length_singleton, range_succ, map_append, map_singleton, take_left]
    exact congrArg (· ++ _) (map_congr_left fun k hk => by rw [take_append_of_le_length (mem_range.mp hk).le])
  values := by rw [h.values, flatten_append, flatten_singleton]

theorem fromGrouped_eq (groups : List (List V)) :
    fromGrouped groups = if groups.flatten.length ≤ 0xFFFFFFFF then some (ofRuns groups) else none := by
  by_cases hlt : groups.flatten.length ≤ 0xFFFFFFFF
  · have hstep : ∀ done group rest state, groups = done ++ group :: rest → Opened done state →
        ∃ state', openGroup state group = some state' ∧ Opened (done ++ [group]) state' := by
      intro done group rest state he h
      have hle := congrArg (fun l => l.flatten.length) he
      simp only [flatten_append, length_append] at hle
      refine ⟨_, ?_, h.openGroup⟩
      rw [DenseFanout.openGroup, runBound, h.values, if_pos (by omega)]
      rfl
    obtain ⟨⟨starts, values⟩, hs, hstarts, hvalues⟩ := foldlM_option_total hstep (s := ([], [])) ⟨rfl, rfl⟩
    dsimp only at hstarts hvalues
    rw [if_pos hlt, fromGrouped, hs, hstarts, hvalues]
    by_cases hnil : groups = []
    · subst hnil
      rfl
    · have hne : ((range groups.length).map fun key => (groups.take key).flatten.length).isEmpty = false := by
        simpa using hnil
      have htotal : runBound groups.flatten.length = some groups.flatten.length := if_pos hlt
      rw [Option.bind_eq_bind, Option.bind_some]
      dsimp only
      rw [hne, if_neg Bool.false_ne_true, htotal, ofRuns, if_neg (by simpa using hnil), range_succ, map_append,
        map_singleton, take_length]
      rfl
  · rw [if_neg hlt]
    refine Option.bind_eq_none_iff.mpr fun ⟨starts, values⟩ hs => ?_
    have hopened : Opened groups (starts, values) := by
      refine foldlM_option (fun done group state state' h hs => ?_) ⟨rfl, rfl⟩ hs
      obtain ⟨start, hstart, hs⟩ := Option.bind_eq_some_iff.mp hs
      obtain ⟨-, hstart⟩ := Option.ite_none_right_eq_some.mp hstart
      cases hstart
      cases hs
      exact h.openGroup
    obtain ⟨hstarts, hvalues⟩ := hopened
    dsimp only at hstarts hvalues
    have htotal : runBound values.length = none := if_neg (by rw [hvalues]; exact hlt)
    have hne : starts ≠ [] := by
      rintro rfl
      rw [eq_comm, map_eq_nil_iff, range_eq_nil, length_eq_zero_iff] at hstarts
      subst hstarts
      exact hlt (Nat.zero_le _)
    simp [hne, htotal]

theorem take_succ_runsOf {key : Nat} (hkey : key < bound) :
    ((runsOf bound pairs).take (key + 1)).flatten = ((runsOf bound pairs).take key).flatten ++ valuesOf key pairs := by
  rw [take_succ_eq_append_getElem (by simpa [runsOf] using hkey), flatten_append, flatten_singleton]
  simp [runsOf]

/-- With every pair placed the cursors are the starts of the runs, and the slots the runs end to end. -/
theorem Placed.columns {total : Nat} {state : List Nat × List (Option V)} (h : Placed off bound total pairs state)
    (hzero : off 0 = 0) (hsucc : ∀ key < bound, off (key + 1) = off key + (valuesOf key pairs).length)
    (hlast : off bound = total) :
    state.1 = (range (bound + 1)).map (fun key => ((runsOf bound pairs).take key).flatten.length) ∧
      state.2 = (runsOf bound pairs).flatten.map some := by
  have hslots : ∀ key ≤ bound, state.2.take (off key) = ((runsOf bound pairs).take key).flatten.map some := by
    intro key
    induction key with
    | zero => exact fun _ => by rw [hzero]; rfl
    | succ key ih =>
      intro hkey
      obtain ⟨start, -, hstart, hrun⟩ := h.cursor key hkey
      obtain rfl : start = off key := by have := hsucc key hkey; omega
      rw [hsucc key hkey, take_add, ih (Nat.le_of_succ_le hkey), take_succ_runsOf hkey, map_append]
      congr 1
      refine ext_getElem? fun j => ?_
      rw [getElem?_take, getElem?_drop, getElem?_map]
      split
      · next hj => rw [hrun j hj, getElem?_eq_getElem hj]; rfl
      · next hj => rw [getElem?_eq_none (Nat.not_lt.mp hj)]; rfl
  have hoff : ∀ key ≤ bound, ((runsOf bound pairs).take key).flatten.length = off key := by
    intro key
    induction key with
    | zero => exact fun _ => hzero.symm
    | succ key ih =>
      exact fun hkey => by rw [take_succ_runsOf hkey, length_append, ih (Nat.le_of_succ_le hkey), hsucc key hkey]
  refine ⟨ext_getElem? fun key => ?_, ?_⟩
  · rw [getElem?_map]
    rcases Nat.lt_trichotomy key bound with hkey | rfl | hkey
    · obtain ⟨start, hcursor, hstart, -⟩ := h.cursor key hkey
      rw [hcursor, getElem?_range (Nat.lt_succ_of_lt hkey), Option.map_some, hoff key hkey.le]
      have := hsucc key hkey
      congr 1
      omega
    · rw [h.closing, getElem?_range (Nat.lt_succ_self key), Option.map_some, hoff key le_rfl, hlast]
    · rw [getElem?_eq_none (by rw [h.length_cursors]; exact hkey), getElem?_eq_none (by rw [length_range]; exact hkey)]
      rfl
  · rw [← take_of_length_le h.length_slots.le, hslots bound le_rfl, take_of_length_le (by simp [runsOf])]

theorem placed_nil {counts : List Nat} (hlength : counts.length = bound + 1)
    (hsucc : ∀ key < bound, off (key + 1) = off key + counts.getD key 0) (hzero : off 0 = 0) :
    Placed off bound pairs.length []
      (runEnds 0 (counts.take bound) ++ [pairs.length], replicate (off bound) (none : Option V)) := by
  have hends : (runEnds 0 (counts.take bound)).length = bound := by
    rw [length_runEnds, length_take, hlength, Nat.min_eq_left (Nat.le_succ bound)]
  refine ⟨by rw [length_append, hends, length_singleton], length_replicate, ?_, fun key hkey => ?_⟩
  · rw [getElem?_append_right hends.le, hends, Nat.sub_self]
    rfl
  · have hend := getElem?_runEnds hsucc key hkey (by omega)
    rw [hzero] at hend
    exact ⟨off (key + 1), (getElem?_append_left (hkey.trans_eq hends.symm)).trans hend, rfl, fun j hj => nomatch hj⟩

/-- Both passes, when every key is in the key space. -/
theorem exists_columns (hkeys : ∀ pair ∈ pairs, pair.1 < bound) : (runsOf bound pairs).flatten.length = pairs.length ∧
    ∃ counts, pairs.foldlM (countKey bound) (replicate (bound + 1) 0) = some counts ∧
      pairs.reverse.foldlM placeBack
          (runEnds 0 (counts.take bound) ++ [pairs.length], replicate pairs.length none) =
        some ((range (bound + 1)).map (fun key => ((runsOf bound pairs).take key).flatten.length),
          (runsOf bound pairs).flatten.map some) := by
  obtain ⟨counts, hcounts⟩ := exists_foldlM_countKey hkeys
  obtain ⟨-, hlength, hcount⟩ := foldlM_countKey hcounts
  have hkeys' : ∀ key ∈ pairs.map Prod.fst, key < bound := forall_mem_map.mpr hkeys
  let off := fun key => (CountingSort.offsets bound (pairs.map Prod.fst)).getD key 0
  have hzero : off 0 = 0 := CountingSort.offsets_zero bound _ hkeys'
  have hlast : off bound = pairs.length := (CountingSort.offsets_last bound _ hkeys').trans (length_map _)
  have hsucc : ∀ key < bound, off (key + 1) = off key + (valuesOf key pairs).length := fun key hkey =>
    (CountingSort.offsets_succ bound _ hkeys' key hkey).trans (by rw [CountingSort.length_valuesOf])
  have hstart : Placed off bound pairs.length [] (_, replicate (off bound) (none : Option V)) := placed_nil hlength
    (fun key hkey => by rw [hcount, ← CountingSort.length_valuesOf]; exact hsucc key hkey) hzero
  rw [hlast] at hstart
  obtain ⟨⟨cursors, slots⟩, hplace, hplaced⟩ := exists_foldlM_placeBack hstart
    ⟨hkeys, fun hik hk => CountingSort.offsets_mono bound _ hkeys' hik hk, fun key hkey => (hsucc key hkey).ge⟩
  obtain ⟨rfl, rfl⟩ := hplaced.columns hzero hsucc hlast
  exact ⟨(length_map _).symm.trans (hplaced.length_slots.trans hlast), counts, hcounts, hplace⟩

theorem fromPairs_eq (bound : Nat) (pairs : List (Nat × V)) :
    fromPairs bound pairs = if (∀ pair ∈ pairs, pair.1 < bound) ∧ pairs.length ≤ 0xFFFFFFFF then
      some (ofRuns (runsOf bound pairs)) else none := by
  by_cases hfit : (∀ pair ∈ pairs, pair.1 < bound) ∧ pairs.length ≤ 0xFFFFFFFF
  · obtain ⟨-, counts, hcounts, hplace⟩ := exists_columns hfit.1
    have htotal : runBound pairs.length = some pairs.length := if_pos hfit.2
    rw [if_pos hfit, fromPairs, htotal, Option.bind_eq_bind, Option.bind_some]
    by_cases hbound : bound = 0
    · subst hbound
      cases pairs with
      | nil => rfl
      | cons pair pairs => exact absurd (hfit.1 pair mem_cons_self) (Nat.not_lt_zero _)
    · rw [if_neg hbound, hcounts, Option.bind_eq_bind, Option.bind_some]
      simp only [hplace, Option.bind_eq_bind, Option.bind_some, mapM_map]
      rw [mapM_option_some (f := id ∘ some) (v := id) fun _ _ => rfl, map_id]
      simp [ofRuns, runsOf, hbound]
  · rw [if_neg hfit]
    refine Option.bind_eq_none_iff.mpr fun total htotal => ?_
    obtain ⟨hlt, -⟩ := Option.ite_none_right_eq_some.mp htotal
    have hkeys : ¬ ∀ pair ∈ pairs, pair.1 < bound := fun hkeys => hfit ⟨hkeys, hlt⟩
    split_ifs with hbound hempty
    · rw [isEmpty_iff.mp hempty] at hkeys
      exact absurd (fun _ h => nomatch h) hkeys
    · rfl
    · exact Option.bind_eq_none_iff.mpr fun counts hcounts => absurd (foldlM_countKey hcounts).1 hkeys

/-- The table of some pairs is the table of their runs in key order, and every key reads its own values in the
order they came. -/
theorem fromPairs_exact (bound : Nat) (pairs : List (Nat × V)) :
    fromPairs bound pairs = (if ∀ pair ∈ pairs, pair.1 < bound then fromGrouped (runsOf bound pairs) else none) ∧
      (fromPairs bound pairs = none ↔ 0xFFFFFFFF < pairs.length ∨ ∃ pair ∈ pairs, bound ≤ pair.1) ∧
      ∀ t, fromPairs bound pairs = some t → t.bound = bound ∧ t.values.length = pairs.length ∧
        ∀ key, t.get key = if key < bound then some (valuesOf key pairs) else none := by
  rw [fromPairs_eq]
  refine ⟨?_, ?_, fun t ht => ?_⟩
  · by_cases hkeys : ∀ pair ∈ pairs, pair.1 < bound
    · rw [if_pos hkeys, fromGrouped_eq, (exists_columns hkeys).1]
      exact if_congr (and_iff_right hkeys) rfl rfl
    · rw [if_neg hkeys, if_neg fun h => hkeys h.1]
  · rw [ite_eq_right_iff]
    simp only [reduceCtorEq, imp_false, not_and_or, not_forall, Nat.not_lt, Nat.not_le, exists_prop]
    exact or_comm
  · obtain ⟨⟨hkeys, -⟩, ht⟩ := Option.ite_none_right_eq_some.mp ht
    cases ht
    have hlength : (runsOf bound pairs).length = bound := by rw [runsOf, length_map, length_range]
    refine ⟨(bound_ofRuns _).trans hlength, (exists_columns hkeys).1, fun key => ?_⟩
    rw [get_ofRuns, runsOf, getElem?_map]
    split
    · next hkey => rw [getElem?_range hkey]; rfl
    · next hkey => rw [getElem?_eq_none (by rw [length_range]; exact Nat.not_lt.mp hkey)]; rfl

example : (fromPairs 3 [(2, 'c'), (0, 'a'), (2, 'b')]).bind (get · 2) = some ['c', 'b'] := by decide

end DenseFanout

end CfgLib
