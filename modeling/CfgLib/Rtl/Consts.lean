import CfgLib.Rtl.Machine

/-!
# What the tracked constants say

`ir/rtl/facts/resolution/state.rs`: how the tables of constants read after each
operation, and what it means that they hold of a machine state.
-/

namespace CfgLib.Rtl

open List

/-! ## Root constants -/

namespace ConstState

theorem find?_setEntry (root : Nat) (value : List Word) (entries : List (Nat × List Word))
    (r : Nat) : ((setEntry root value entries).find? fun entry => entry.1 == r).map (·.2) =
      if r = root then some value else (entries.find? fun entry => entry.1 == r).map (·.2) := by
  induction entries with
  | nil =>
    unfold setEntry
    by_cases hr : r = root
    · simp [hr]
    · simp [hr, Ne.symm hr]
  | cons head rest ih =>
    unfold setEntry
    split
    · next hlt =>
      by_cases hhead : head.1 = r
      · rw [if_neg (by omega)]
        simp [hhead]
      · simp only [find?_cons_of_neg (p := fun entry : Nat × List Word => entry.1 == r)
          (show ¬ (head.1 == r) = true by simpa using hhead), ih]
    · split
      · next heq =>
        by_cases hr : r = root
        · simp [hr]
        · simp [hr, Ne.symm hr, heq]
      · by_cases hr : r = root
        · simp [hr]
        · simp [hr, Ne.symm hr]

theorem get_set (s : ConstState) (root : Nat) (value : List Word) (r : Nat) :
    (s.set root value).get r = if r = root then some value else s.get r :=
  find?_setEntry root value s.entries r

theorem get_remove (s : ConstState) (root r : Nat) :
    (s.remove root).get r = if r = root then none else s.get r := by
  unfold get remove
  rw [find?_filter]
  by_cases hr : r = root
  · rw [if_pos hr, Option.map_eq_none_iff, find?_eq_none]
    intro entry _
    simp [hr]
  · rw [if_neg hr]
    congr 2
    funext entry
    by_cases heq : entry.1 = r
    · simp [heq, hr]
    · simp [heq]

variable {s : ConstState}

theorem mem_of_get {r : Nat} {value : List Word} (h : s.get r = some value) :
    (r, value) ∈ s.entries := by
  obtain ⟨entry, hfind, rfl⟩ := Option.map_eq_some_iff.mp h
  have hkey := find?_some hfind
  have hr : entry.1 = r := by simpa using hkey
  rw [← hr]
  exact mem_of_find?_eq_some hfind

theorem get_of_mem {entry : Nat × List Word} (h : entry ∈ s.entries) :
    s.get entry.1 = some entry.2 := by
  unfold get
  have hasc := s.ascending
  generalize s.entries = entries at h hasc
  induction entries with
  | nil => cases h
  | cons head rest ih =>
    obtain ⟨hhead, hrest⟩ := pairwise_cons.mp hasc
    rcases mem_cons.mp h with rfl | h
    · simp
    · have hlt := hhead entry h
      simp only [find?_cons_of_neg (p := fun e : Nat × List Word => e.1 == entry.1)
        (show ¬ (head.1 == entry.1) = true by simp; omega)]
      exact ih h hrest

@[simp] theorem get_empty (r : Nat) : empty.get r = none := rfl

/-- Every value the state lists is listed by `other` too. -/
def Le (s other : ConstState) : Prop := ∀ r value, s.get r = some value → other.get r = some value

theorem Le.refl (s : ConstState) : s.Le s := fun _ _ h => h

theorem Le.trans {t u : ConstState} (h : s.Le t) (h' : t.Le u) : s.Le u :=
  fun r value hget => h' r value (h r value hget)

theorem intersect_le (s other : ConstState) :
    (s.intersect other).1.Le s ∧ (s.intersect other).1.Le other := by
  have hmem : ∀ r value, (s.intersect other).1.get r = some value →
      (r, value) ∈ s.entries ∧ other.get r = some value := by
    intro r value h
    obtain ⟨hentry, hother⟩ := mem_filter.mp (mem_of_get h)
    exact ⟨hentry, of_decide_eq_true hother⟩
  exact ⟨fun r value h => get_of_mem (hmem r value h).1, fun r value h => (hmem r value h).2⟩

variable {other : ConstState}

theorem intersect_eq (h : (s.intersect other).2 = false) : (s.intersect other).1 = s := by
  simp only [intersect, ne_eq, decide_eq_false_iff_not, not_not] at h
  have heq := List.Sublist.eq_of_length filter_sublist h
  cases s
  simp only [intersect, mk.injEq]
  exact heq

theorem length_intersect (h : (s.intersect other).2 = true) :
    (s.intersect other).1.entries.length < s.entries.length := by
  simp only [intersect, ne_eq, decide_eq_true_eq] at h
  exact lt_of_le_of_ne (length_filter_le _ _) h

end ConstState

section Roots

variable {ρ : Type} [DecidableEq ρ] {rootWidth : ρ → Nat} {roots : List ρ}

def KnownBy (rootWidth : ρ → Nat) (roots : List ρ) (get : Nat → Option (List Word))
    (state : ρ → Value) : Prop :=
  ∀ root ∈ roots, ∀ words, get (indexOfNamed roots root) = some words →
    words.length = wordsFor (rootWidth root) ∧ HoldsWords (rootWidth root) words (state root)

variable {get get' : Nat → Option (List Word)} {root : ρ} {state : ρ → Value}

theorem index_ne {r : ρ} (hr : r ∈ roots) (hne : r ≠ root) :
    indexOfNamed roots r ≠ indexOfNamed roots root :=
  fun heq => hne ((idxOf_inj hr).mp heq)

theorem KnownBy.mono (h : KnownBy rootWidth roots get state)
    (hle : ∀ r value, get' r = some value → get r = some value) :
    KnownBy rootWidth roots get' state :=
  fun root hroot words hget => h root hroot words (hle _ _ hget)

theorem KnownBy.update (h : KnownBy rootWidth roots get state) {known : Option (List Word)} {v : Value}
    (hget : ∀ r, get' r = if r = indexOfNamed roots root then known else get r)
    (hknown : ∀ words, known = some words → words.length = wordsFor (rootWidth root) ∧
      HoldsWords (rootWidth root) words v) :
    KnownBy rootWidth roots get' (Function.update state root v) := by
  intro r hr words hwords
  rw [hget] at hwords
  by_cases heq : r = root
  · rw [if_pos (by rw [heq])] at hwords
    rw [heq, Function.update_self]
    exact hknown words hwords
  · rw [if_neg (index_ne hr heq)] at hwords
    rw [Function.update_of_ne heq]
    exact h r hr words hwords

end Roots

/-! ## Value constants -/

/-- The constants of a record hold of its values; `defined` lists the values that earlier
statements define. -/
structure ValueConsts.Hold (consts : ValueConsts) (width : Nat → Nat) (values : Nat → Value)
    (defined : List Nat) : Prop where
  room : ∀ handle start, consts.slots handle = some start →
    start + wordsFor (width handle) ≤ consts.pool.length
  defined : ∀ handle start, consts.slots handle = some start → handle ∈ defined
  bits : ∀ handle words, consts.get handle (width handle) = some words →
    Represents words (values handle)

namespace ValueConsts

variable {consts : ValueConsts} {width : Nat → Nat} {values values' : Nat → Value}
  {defined : List Nat}

theorem hold_empty (width : Nat → Nat) (values : Nat → Value) : empty.Hold width values [] :=
  ⟨fun _ _ h => (by cases h), fun _ _ h => (by cases h), fun _ _ h => (by cases h)⟩

theorem Hold.frame (h : consts.Hold width values defined) {new : List Nat}
    (hsame : SameOff new values values') (hnew : ∀ handle ∈ new, handle ∉ defined) :
    consts.Hold width values' (defined ++ new) := by
  refine ⟨h.room, fun handle start hs => mem_append_left _ (h.defined handle start hs), ?_⟩
  intro handle words hget
  obtain ⟨start, hstart, _⟩ := Option.map_eq_some_iff.mp hget
  rw [hsame handle fun hmem => hnew handle hmem (h.defined handle start hstart)]
  exact h.bits handle words hget

variable {words : List Word} {handle : Nat}

theorem get_insert_self (consts : ValueConsts) {w : Nat} (hlength : words.length = wordsFor w) :
    (consts.insert handle words).get handle w = some words := by
  unfold get insert
  simp only
  rw [Function.update_self, Option.map_some, drop_left, ← hlength, take_length]

theorem get_insert_of_ne {other : Nat} (hne : other ≠ handle) (hroom : ∀ start, consts.slots other = some start →
      start + wordsFor (width other) ≤ consts.pool.length) :
    (consts.insert handle words).get other (width other) = consts.get other (width other) := by
  unfold get insert
  simp only
  rw [Function.update_of_ne hne]
  cases hslot : consts.slots other with
  | none => rfl
  | some start =>
    have hle := hroom start hslot
    rw [Option.map_some, Option.map_some, drop_append_of_le_length (by omega),
      take_append_of_le_length (by rw [length_drop]; omega)]

theorem Hold.insert (h : consts.Hold width values defined)
    (hlength : words.length = wordsFor (width handle)) (hsame : SameOff [handle] values values')
    (hbits : Represents words (values' handle)) :
    (consts.insert handle words).Hold width values' (defined ++ [handle]) := by
  have hcases : ∀ other start, (consts.insert handle words).slots other = some start →
      (other = handle ∧ start = consts.pool.length) ∨
        (other ≠ handle ∧ consts.slots other = some start) := by
    intro other start hslot
    by_cases heq : other = handle
    · simp only [ValueConsts.insert, heq, Function.update_self] at hslot
      exact Or.inl ⟨heq, (Option.some.inj hslot).symm⟩
    · simp only [ValueConsts.insert, Function.update_of_ne heq] at hslot
      exact Or.inr ⟨heq, hslot⟩
  refine ⟨?_, ?_, ?_⟩
  · intro other start hslot
    change _ ≤ (consts.pool ++ words).length
    rw [length_append]
    rcases hcases other start hslot with ⟨rfl, rfl⟩ | ⟨_, hslot⟩
    · omega
    · have := h.room other start hslot
      omega
  · intro other start hslot
    rcases hcases other start hslot with ⟨rfl, _⟩ | ⟨_, hslot⟩
    · exact mem_append_right _ mem_cons_self
    · exact mem_append_left _ (h.defined other start hslot)
  · intro other found hget
    by_cases heq : other = handle
    · subst heq
      rw [get_insert_self consts hlength] at hget
      cases hget
      exact hbits
    · rw [get_insert_of_ne heq (h.room other)] at hget
      rw [hsame other (by simpa using heq)]
      exact h.bits other found hget

end ValueConsts

end CfgLib.Rtl
