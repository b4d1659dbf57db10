import Mathlib.Data.List.Basic
import Mathlib.Data.Nat.Count

/-!
# Liveness of dense slots

The packed bitset of `store/liveness.rs`: one bit per slot, in words of 64.
Reads outside the slot space answer `false`, so the only shape the operations
depend on is that there are as many words as the slots need.
-/

namespace CfgLib.Store

open List

abbrev bitsPerWord : Nat := 64

/-- A growable bitset whose index space is a store's dense slot space. -/
structure LiveSet where
  words : List (BitVec 64)
  len : Nat
  deriving DecidableEq, Repr

namespace LiveSet

/-- `1_u64 << (index % BITS_PER_WORD)`. -/
def mask (index : Nat) : BitVec 64 := 1#64 <<< (index % bitsPerWord)

def new : LiveSet := ⟨[], 0⟩

/-- Append one live slot and return its index. -/
def pushLive (s : LiveSet) : LiveSet × Nat :=
  let index := s.len
  let words := if index % bitsPerWord = 0 then s.words ++ [0#64] else s.words
  (⟨words.modify (index / bitsPerWord) (· ||| mask index), index + 1⟩, index)

/-- Whether `index` names a live slot. -/
def isLive (s : LiveSet) (index : Nat) : Bool :=
  if s.len ≤ index then false
  else s.words.getD (index / bitsPerWord) 0#64 &&& mask index != 0#64

/-- The filter of a walk: a store with no removed edge passes no set and keeps
everything. -/
def passes (live : Option LiveSet) (index : Nat) : Bool := live.all (·.isLive index)

/-- Clear `index` and return whether it had been live. -/
def clear (s : LiveSet) (index : Nat) : LiveSet × Bool :=
  if s.isLive index then
    ({ s with words := s.words.modify (index / bitsPerWord) (· &&& ~~~mask index) }, true)
  else (s, false)

def resetAllLive (slots : Nat) : LiveSet :=
  let words := List.replicate ((slots + (bitsPerWord - 1)) / bitsPerWord) (BitVec.allOnes 64)
  let tail := slots % bitsPerWord
  let words := if tail ≠ 0 then words.set (words.length - 1) ((1#64 <<< tail) - 1#64) else words
  ⟨words, slots⟩

/-- As many words as the slots need. -/
structure WF (s : LiveSet) : Prop where
  words_length : s.words.length = (s.len + 63) / 64

/-! ## One word -/

theorem mask_eq_twoPow (i : Nat) : mask i = BitVec.twoPow 64 (i % 64) := by
  simp [mask, bitsPerWord, BitVec.twoPow]

theorem and_mask_ne_zero (w : BitVec 64) (i : Nat) :
    (w &&& mask i != 0#64) = w.getLsbD (i % 64) := by
  rw [mask_eq_twoPow, BitVec.and_twoPow]
  have hlt : i % 64 < 64 := Nat.mod_lt _ (by omega)
  cases h : w.getLsbD (i % 64) with
  | false => simp
  | true =>
    have hne : BitVec.twoPow 64 (i % 64) ≠ 0#64 := by
      intro h0
      have := congrArg (·.getLsbD (i % 64)) h0
      simp [hlt] at this
    simp [hne]

theorem getLsbD_or_mask (w : BitVec 64) (i j : Nat) :
    (w ||| mask i).getLsbD j = (w.getLsbD j || decide (i % 64 = j)) := by
  rw [mask_eq_twoPow, BitVec.getLsbD_or, BitVec.getLsbD_twoPow]
  have hlt : i % 64 < 64 := Nat.mod_lt _ (by omega)
  simp [hlt]

theorem getLsbD_and_not_mask (w : BitVec 64) (i j : Nat) (hj : j < 64) :
    (w &&& ~~~mask i).getLsbD j = (w.getLsbD j && !decide (i % 64 = j)) := by
  rw [mask_eq_twoPow, BitVec.getLsbD_and, BitVec.getLsbD_not, BitVec.getLsbD_twoPow]
  have hlt : i % 64 < 64 := Nat.mod_lt _ (by omega)
  simp [hlt, hj]

theorem getLsbD_tail_mask (t j : Nat) (ht : t < 64) (hj : j < t) :
    ((1#64 <<< t) - 1#64).getLsbD j = true := by
  have hval : ((1#64 <<< t) - 1#64).toNat = 2 ^ t - 1 := by
    have hpow : 2 ^ t < 2 ^ 64 := Nat.pow_lt_pow_right (by omega) ht
    have hpos : 0 < 2 ^ t := Nat.two_pow_pos t
    rw [BitVec.toNat_sub, BitVec.toNat_shiftLeft]
    simp only [BitVec.toNat_ofNat, Nat.shiftLeft_eq]
    omega
  rw [BitVec.getLsbD, hval, Nat.testBit_two_pow_sub_one]
  simpa using hj

/-! ## Reads after writes -/

variable {s : LiveSet}

theorem isLive_of_len_le {i : Nat} (h : s.len ≤ i) : s.isLive i = false := by
  simp [isLive, h]

theorem isLive_eq {i : Nat} (h : i < s.len) :
    s.isLive i = (s.words.getD (i / 64) 0#64).getLsbD (i % 64) := by
  have hn : ¬ s.len ≤ i := by omega
  rw [isLive, if_neg hn, and_mask_ne_zero]

@[simp] theorem isLive_new (i : Nat) : new.isLive i = false :=
  isLive_of_len_le (Nat.zero_le i)

theorem wf_new : new.WF := ⟨rfl⟩

@[simp] theorem len_pushLive (s : LiveSet) : s.pushLive.1.len = s.len + 1 := rfl

@[simp] theorem len_clear (s : LiveSet) (k : Nat) : (s.clear k).1.len = s.len := by
  unfold clear; split <;> rfl

theorem wf_pushLive (h : s.WF) : s.pushLive.1.WF := by
  have hw := h.words_length
  refine ⟨?_⟩
  simp only [pushLive, length_modify, bitsPerWord]
  split
  · simp only [length_append, length_singleton]
    omega
  · omega

theorem wf_clear (h : s.WF) (k : Nat) : (s.clear k).1.WF := by
  refine ⟨?_⟩
  have hw := h.words_length
  unfold clear
  split
  · simpa using hw
  · exact hw

theorem wf_resetAllLive (n : Nat) : (resetAllLive n).WF := by
  refine ⟨?_⟩
  simp only [resetAllLive, bitsPerWord]
  split <;> simp

theorem getD_modify (l : List (BitVec 64)) (k i : Nat) (f : BitVec 64 → BitVec 64)
    (hk : k < l.length) :
    (l.modify k f).getD i 0#64 = if i = k then f (l.getD i 0#64) else l.getD i 0#64 := by
  simp only [getD_eq_getElem?_getD, getElem?_modify]
  by_cases h : i = k
  · subst h
    simp [getElem?_eq_getElem hk]
  · have h' : k ≠ i := Ne.symm h
    simp [h, h']

theorem isLive_pushLive (h : s.WF) (i : Nat) :
    s.pushLive.1.isLive i = (decide (i = s.len) || s.isLive i) := by
  have hw := h.words_length
  by_cases hlen : s.len + 1 ≤ i
  · rw [isLive_of_len_le (by simpa using hlen), isLive_of_len_le (by omega : s.len ≤ i)]
    have : i ≠ s.len := by omega
    simp [this]
  rw [isLive_eq (by simp only [len_pushLive]; omega)]
  -- the grown words read as the old ones, the fresh word being zero
  have hgrow : ∀ j, (if s.len % 64 = 0 then s.words ++ [0#64] else s.words).getD j 0#64 =
      s.words.getD j 0#64 := by
    intro j
    split
    · rcases Nat.lt_trichotomy j s.words.length with hj | hj | hj
      · simp [getD_eq_getElem?_getD, getElem?_append_left hj]
      · subst hj; simp [getD_eq_getElem?_getD]
      · rw [getD_eq_getElem?_getD, getD_eq_getElem?_getD,
          getElem?_eq_none (by simp; omega), getElem?_eq_none (by omega)]
    · rfl
  have hslot : s.len / 64 <
      (if s.len % 64 = 0 then s.words ++ [0#64] else s.words).length := by
    split
    · simp only [length_append, length_singleton]; omega
    · omega
  simp only [pushLive, bitsPerWord]
  rw [getD_modify _ _ _ _ hslot, hgrow]
  by_cases hi : i = s.len
  · subst hi
    rw [if_pos rfl, getLsbD_or_mask]
    simp
  · rw [isLive_eq (by omega : i < s.len)]
    split
    · rw [getLsbD_or_mask]
      have : s.len % 64 ≠ i % 64 := by omega
      simp [hi, this]
    · simp [hi]

theorem isLive_clear (h : s.WF) (k i : Nat) :
    (s.clear k).1.isLive i = (s.isLive i && !decide (i = k)) := by
  have hw := h.words_length
  by_cases hk : s.isLive k
  · have hklen : k < s.len := by
      by_contra hc
      rw [isLive_of_len_le (by omega)] at hk
      cases hk
    by_cases hi : s.len ≤ i
    · rw [isLive_of_len_le (by simpa using hi), isLive_of_len_le hi]
      rfl
    rw [isLive_eq (by simpa using hi), isLive_eq (by omega : i < s.len)]
    simp only [clear, hk, if_true, bitsPerWord]
    rw [getD_modify _ _ _ _ (by omega)]
    split
    · rw [getLsbD_and_not_mask _ _ _ (Nat.mod_lt _ (by omega))]
      by_cases hik : i = k
      · subst hik; simp
      · have : k % 64 ≠ i % 64 := by omega
        simp [hik, this]
    · have hik : i ≠ k := by rintro rfl; contradiction
      simp [hik]
  · have hs : (s.clear k).1 = s := by simp [clear, hk]
    rw [hs]
    by_cases hik : i = k
    · subst hik; simp [hk]
    · simp [hik]

@[simp] theorem clear_snd (s : LiveSet) (k : Nat) : (s.clear k).2 = s.isLive k := by
  unfold clear
  split <;> simp_all

@[simp] theorem len_resetAllLive (n : Nat) : (resetAllLive n).len = n := rfl

theorem isLive_resetAllLive (n i : Nat) : (resetAllLive n).isLive i = decide (i < n) := by
  by_cases hi : n ≤ i
  · rw [isLive_of_len_le (by simpa using hi)]
    simp [hi]
  rw [isLive_eq (by simpa using hi)]
  have hmod : i % 64 < 64 := Nat.mod_lt _ (by omega)
  have hword : i / 64 < (n + 63) / 64 := by omega
  have hall : (BitVec.allOnes 64).getLsbD (i % 64) = true := by
    rw [BitVec.getLsbD_allOnes, decide_eq_true hmod]
  have hlt : i < n := by omega
  simp only [resetAllLive, bitsPerWord, length_replicate, hlt, decide_true]
  split
  · rw [getD_eq_getElem?_getD, getElem?_set]
    split
    · -- the last word keeps only the tail's bits
      simp only [length_replicate]
      split
      · exact getLsbD_tail_mask _ _ (Nat.mod_lt _ (by omega)) (by omega)
      · omega
    · simp only [getElem?_replicate, Nat.add_one_sub_one, hword, if_true, Option.getD_some]
      exact hall
  · simp only [getD_eq_getElem?_getD, getElem?_replicate, Nat.add_one_sub_one, hword,
      if_true, Option.getD_some]
    exact hall

end LiveSet

end CfgLib.Store
