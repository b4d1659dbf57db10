import Mathlib.Data.Nat.Bitwise
import Mathlib.Data.List.Basic

/-!
# Little-endian words

`ir/rtl/facts/words.rs`: bit-field copies over 64-bit words.  Every lemma reads
words bit by bit.
-/

namespace CfgLib.Rtl

open List

abbrev Word := BitVec 64

/-- How many words hold a value of a type. -/
def wordsFor (width : Nat) : Nat := (width + 63) / 64

def lowMask (chunk : Nat) : Word := if chunk = 64 then BitVec.allOnes 64 else (1#64 <<< chunk) - 1#64

def copyChunk (target : List Word) (dest : Nat) (source : List Word) (origin chunk : Nat) : List Word :=
  let bits := (source.getD (origin / 64) 0 >>> (origin % 64)) &&& lowMask chunk
  target.modify (dest / 64) fun word =>
    (word &&& ~~~(lowMask chunk <<< (dest % 64))) ||| (bits <<< (dest % 64))

def copyLoop (targetOffset : Nat) (source : List Word) (sourceOffset width : Nat) :
    Nat → Nat → List Word → List Word
  | 0, _, target => target
  | fuel + 1, copied, target =>
    if copied < width then
      let dest := targetOffset + copied
      let origin := sourceOffset + copied
      let chunk := min (min (width - copied) (64 - dest % 64)) (64 - origin % 64)
      copyLoop targetOffset source sourceOffset width fuel (copied + chunk)
        (copyChunk target dest source origin chunk)
    else target

/-- Copy `width` bits; the source past its end reads as zero, and the target has the room. -/
def copyBits (target : List Word) (targetOffset : Nat) (source : List Word)
    (sourceOffset width : Nat) : List Word :=
  copyLoop targetOffset source sourceOffset width width 0 target

def zeros (width : Nat) : List Word := List.replicate (wordsFor width) 0

/-- The low bits of `words` as a value of type `width`. -/
def normalized (words : List Word) (width : Nat) : List Word :=
  copyBits (zeros width) 0 words 0 width

/-- The number the words hold, unless it exceeds a 64-bit `usize`. -/
def toUsize : List Word → Option Nat
  | [] => none
  | low :: high => if high.any fun word => word ≠ 0 then none else some low.toNat

/-! ## Bits -/

def bitAt (words : List Word) (k : Nat) : Bool := (words.getD (k / 64) 0).getLsbD (k % 64)

variable {chunk sourceOffset targetOffset width : Nat}

theorem getLsbD_lowMask (h : chunk ≤ 64) (k : Nat) :
    (lowMask chunk).getLsbD k = decide (k < chunk) := by
  unfold lowMask
  split
  · next heq => rw [BitVec.getLsbD_allOnes, heq]
  · next hne =>
    have hpow : 2 ^ chunk < 2 ^ 64 := Nat.pow_lt_pow_right (by omega) (by omega)
    have hshift : (1#64 <<< chunk).toNat = 2 ^ chunk := by
      rw [BitVec.toNat_shiftLeft, BitVec.toNat_ofNat, Nat.shiftLeft_eq]
      omega
    have hle : 1#64 ≤ 1#64 <<< chunk := by
      rw [BitVec.le_def, hshift]
      exact Nat.one_le_two_pow
    have hsub : (1#64 <<< chunk - 1#64).toNat = 2 ^ chunk - 1 := by
      rw [BitVec.toNat_sub_of_le hle, hshift]
      rfl
    rw [← BitVec.testBit_toNat, hsub, Nat.testBit_two_pow_sub_one]

theorem length_copyChunk (target : List Word) (dest : Nat) (source : List Word) (origin chunk : Nat) :
    (copyChunk target dest source origin chunk).length = target.length :=
  length_modify ..

variable {copied dest fuel n origin : Nat}

theorem getLsbD_splice (word from' : Word) (horigin : chunk ≤ 64 - origin) {k : Nat} (hk : k < 64) :
    ((word &&& ~~~(lowMask chunk <<< dest)) |||
        (((from' >>> origin) &&& lowMask chunk) <<< dest)).getLsbD k =
      if dest ≤ k ∧ k < dest + chunk then from'.getLsbD (origin + (k - dest))
      else word.getLsbD k := by
  have hmask := getLsbD_lowMask (show chunk ≤ 64 by omega) (k - dest)
  simp only [BitVec.getLsbD_or, BitVec.getLsbD_and, BitVec.getLsbD_not, BitVec.getLsbD_shiftLeft,
    BitVec.getLsbD_ushiftRight, hmask, hk, decide_true, Bool.true_and]
  by_cases hlow : k < dest
  · rw [if_neg (by omega)]
    simp [hlow]
  · by_cases hhigh : k < dest + chunk
    · rw [if_pos ⟨by omega, hhigh⟩]
      simp [hlow, show k - dest < chunk by omega]
    · rw [if_neg (by omega)]
      simp [hlow, show ¬ k - dest < chunk by omega]

variable {source target : List Word}

theorem bitAt_copyChunk (hroom : dest + chunk ≤ 64 * target.length) (hpos : 0 < chunk) (hdest : chunk ≤ 64 - dest % 64)
    (horigin : chunk ≤ 64 - origin % 64) (k : Nat) :
    bitAt (copyChunk target dest source origin chunk) k =
      if dest ≤ k ∧ k < dest + chunk then bitAt source (origin + (k - dest))
      else bitAt target k := by
  unfold bitAt copyChunk
  simp only [getD_eq_getElem?_getD, getElem?_modify]
  by_cases hword : dest / 64 = k / 64
  · have hlt : k / 64 < target.length := by omega
    have hk : k % 64 < 64 := Nat.mod_lt _ (by omega)
    simp only [if_pos hword, getElem?_eq_getElem hlt, Option.map_eq_map, Option.map_some,
      Option.getD_some]
    rw [getLsbD_splice _ _ horigin hk]
    by_cases hin : dest ≤ k ∧ k < dest + chunk
    · have hdiv : (origin + (k - dest)) / 64 = origin / 64 := by omega
      have hmod : (origin + (k - dest)) % 64 = origin % 64 + (k % 64 - dest % 64) := by omega
      rw [if_pos hin, if_pos (by omega), hdiv, hmod]
    · rw [if_neg hin, if_neg (by omega)]
  · rw [if_neg (by omega)]
    simp [hword]

theorem length_copyLoop (targetOffset : Nat) (source : List Word) (sourceOffset width : Nat)
    (fuel copied : Nat) (target : List Word) :
    (copyLoop targetOffset source sourceOffset width fuel copied target).length =
      target.length := by
  induction fuel generalizing copied target with
  | zero => rfl
  | succ fuel ih =>
    unfold copyLoop
    split
    · exact (ih _ _).trans (length_copyChunk ..)
    · rfl

@[simp] theorem length_copyBits (target : List Word) (targetOffset : Nat) (source : List Word)
    (sourceOffset width : Nat) :
    (copyBits target targetOffset source sourceOffset width).length = target.length :=
  length_copyLoop ..

/-- What is left to copy after `copied` bits. -/
theorem bitAt_copyLoop (hroom : targetOffset + width ≤ 64 * target.length)
    (hcopied : copied ≤ width) (hfuel : width ≤ copied + fuel) (k : Nat) :
    bitAt (copyLoop targetOffset source sourceOffset width fuel copied target) k =
      if targetOffset + copied ≤ k ∧ k < targetOffset + width then
        bitAt source (sourceOffset + (k - targetOffset)) else bitAt target k := by
  induction fuel generalizing copied target with
  | zero =>
    rw [if_neg (by omega)]
    rfl
  | succ fuel ih =>
    unfold copyLoop
    by_cases hlt : copied < width
    · rw [if_pos hlt]
      simp only
      generalize hchunk : min (min (width - copied) (64 - (targetOffset + copied) % 64))
        (64 - (sourceOffset + copied) % 64) = chunk
      have hpos : 0 < chunk := by omega
      have hle : copied + chunk ≤ width := by omega
      rw [ih (by rw [length_copyChunk]; exact hroom) hle (by omega),
        bitAt_copyChunk (by omega) hpos (by omega) (by omega)]
      by_cases hdone : k < targetOffset + copied + chunk
      · rw [if_neg (by omega)]
        by_cases hstart : targetOffset + copied ≤ k
        · rw [if_pos ⟨hstart, hdone⟩, if_pos (by omega)]
          congr 1
          omega
        · rw [if_neg (by omega), if_neg (by omega)]
      · by_cases hend : k < targetOffset + width
        · rw [if_pos (by omega), if_pos (by omega)]
        · rw [if_neg (by omega), if_neg (by omega), if_neg (by omega)]
    · rw [if_neg hlt, if_neg (by omega)]

theorem bitAt_copyBits (hroom : targetOffset + width ≤ 64 * target.length) (k : Nat) :
    bitAt (copyBits target targetOffset source sourceOffset width) k =
      if targetOffset ≤ k ∧ k < targetOffset + width then
        bitAt source (sourceOffset + (k - targetOffset)) else bitAt target k :=
  bitAt_copyLoop hroom (Nat.zero_le _) (by omega) k

theorem width_le_wordsFor (width : Nat) : width ≤ 64 * wordsFor width := by
  unfold wordsFor
  omega

@[simp] theorem length_zeros (width : Nat) : (zeros width).length = wordsFor width :=
  length_replicate

@[simp] theorem bitAt_zeros (width k : Nat) : bitAt (zeros width) k = false := by
  unfold bitAt zeros
  rw [getD_eq_getElem?_getD, getElem?_replicate]
  split <;> simp

theorem bitAt_copyBits_zeros (source : List Word) (offset width k : Nat) :
    bitAt (copyBits (zeros width) 0 source offset width) k =
      (decide (k < width) && bitAt source (offset + k)) := by
  rw [bitAt_copyBits (by rw [length_zeros, Nat.zero_add]; exact width_le_wordsFor width)]
  by_cases hk : k < width
  · simp [hk]
  · simp [hk]

theorem bitAt_normalized (words : List Word) (width k : Nat) :
    bitAt (normalized words width) k = (decide (k < width) && bitAt words k) := by
  rw [normalized, bitAt_copyBits_zeros, Nat.zero_add]

variable {words : List Word}

theorem testBit_toUsize (h : toUsize words = some n) (k : Nat) : bitAt words k = n.testBit k := by
  cases words with
  | nil => cases h
  | cons low high =>
    simp only [toUsize] at h
    split at h
    · cases h
    next hzero =>
    cases h
    unfold bitAt
    rw [← BitVec.testBit_toNat]
    by_cases hk : k < 64
    · rw [Nat.div_eq_of_lt hk, Nat.mod_eq_of_lt hk]
      rfl
    · have hhigh : (low :: high).getD (k / 64) 0 = 0 := by
        rw [getD_eq_getElem?_getD]
        obtain ⟨j, hj⟩ : ∃ j, k / 64 = j + 1 := ⟨k / 64 - 1, by omega⟩
        rw [hj, getElem?_cons_succ]
        cases hget : high[j]? with
        | none => rfl
        | some word =>
          by_contra hne
          apply hzero
          rw [any_eq_true]
          exact ⟨word, mem_of_getElem? hget, by simpa using hne⟩
      rw [hhigh]
      symm
      have hbound : low.toNat < 2 ^ k :=
        low.isLt.trans_le (Nat.pow_le_pow_right (by omega) (by omega))
      rw [Nat.testBit_eq_false_of_lt hbound]
      simp

/-! ## Copies on machine words -/

/-- One turn of a copy; `none` is a bit position beyond `usize`, a shift by a whole word or an
index past the target. -/
def copyChunk? (target : List Word) (dest : Nat) (source : List Word) (origin chunk : Nat) : Option (List Word) :=
  if dest < 2 ^ 64 ∧ origin < 2 ^ 64 ∧ (chunk = 64 ∨ chunk < 64) ∧ origin % 64 < 64 ∧ dest % 64 < 64 ∧
      dest / 64 < target.length then
    some (copyChunk target dest source origin chunk)
  else none

/-- The loop of a copy; `none` is a turn that fails or a loop that has not ended. -/
def copyLoop? (targetOffset : Nat) (source : List Word) (sourceOffset width : Nat) :
    Nat → Nat → List Word → Option (List Word)
  | 0, _, _ => none
  | fuel + 1, copied, target =>
    if copied < width then do
      let dest := targetOffset + copied
      let origin := sourceOffset + copied
      let chunk := min (min (width - copied) (64 - dest % 64)) (64 - origin % 64)
      let target ← copyChunk? target dest source origin chunk
      copyLoop? targetOffset source sourceOffset width fuel (copied + chunk) target
    else some target

/-- `copy_bits` as it runs, each turn checked. -/
def copyBits? (target : List Word) (targetOffset : Nat) (source : List Word) (sourceOffset width : Nat) :
    Option (List Word) :=
  copyLoop? targetOffset source sourceOffset width (width + 1) 0 target

/-- With room in the target and positions within `usize`, the loop ends and no turn fails. -/
theorem copyLoop?_eq (hroom : targetOffset + width ≤ 64 * target.length) (hdest : targetOffset + width ≤ 2 ^ 64)
    (horigin : sourceOffset + width ≤ 2 ^ 64) (hfuel : width ≤ copied + fuel) :
    copyLoop? targetOffset source sourceOffset width (fuel + 1) copied target =
      some (copyLoop targetOffset source sourceOffset width fuel copied target) := by
  induction fuel generalizing copied target with
  | zero =>
    rw [copyLoop?, if_neg (by omega)]
    rfl
  | succ fuel ih =>
    rw [copyLoop?, copyLoop]
    by_cases hlt : copied < width
    · rw [if_pos hlt, if_pos hlt]
      dsimp only
      generalize hchunk : min (min (width - copied) (64 - (targetOffset + copied) % 64))
        (64 - (sourceOffset + copied) % 64) = chunk
      rw [copyChunk?, if_pos (by omega)]
      exact ih (by rw [length_copyChunk]; exact hroom) (by omega)
    · rw [if_neg hlt, if_neg hlt]

theorem copyBits?_eq (hroom : targetOffset + width ≤ 64 * target.length) (hdest : targetOffset + width ≤ 2 ^ 64)
    (horigin : sourceOffset + width ≤ 2 ^ 64) : copyBits? target targetOffset source sourceOffset width =
      some (copyBits target targetOffset source sourceOffset width) :=
  copyLoop?_eq hroom hdest horigin (Nat.zero_add width).ge

/-- The number that little-endian words denote. -/
def number : List Word → Nat
  | [] => 0
  | word :: words => 2 ^ 64 * number words + word.toNat

theorem testBit_number (words : List Word) (k : Nat) : (number words).testBit k = bitAt words k := by
  induction words generalizing k with
  | nil => simp [number, bitAt]
  | cons word words ih =>
    rw [number, Nat.testBit_two_pow_mul_add _ word.isLt, ih, bitAt, bitAt]
    by_cases hk : k < 64
    · rw [if_pos hk, Nat.div_eq_of_lt hk, Nat.mod_eq_of_lt hk]
      rfl
    · have hdiv : k / 64 = (k - 64) / 64 + 1 := by omega
      have hmod : k % 64 = (k - 64) % 64 := by omega
      rw [if_neg hk, hdiv, hmod, getD_cons_succ]

theorem number_normalized (words : List Word) (width : Nat) :
    number (normalized words width) = number words % 2 ^ width := by
  apply Nat.eq_of_testBit_eq
  intro k
  rw [Nat.testBit_mod_two_pow, testBit_number, testBit_number, bitAt_normalized]

theorem number_eq_zero_iff (words : List Word) : number words = 0 ↔ ∀ word ∈ words, word = 0 := by
  induction words with
  | nil => simp [number]
  | cons word words ih =>
    have hword : word.toNat = 0 ↔ word = 0 := ⟨fun h => BitVec.eq_of_toNat_eq h, fun h => h ▸ rfl⟩
    rw [number, forall_mem_cons, ← ih, ← hword]
    omega

theorem toUsize_eq_some : toUsize words = some n ↔ words ≠ [] ∧ number words = n ∧ n < 2 ^ 64 := by
  cases words with
  | nil => simp [toUsize]
  | cons low high =>
    have hlow := low.isLt
    rw [toUsize, number]
    by_cases hhigh : number high = 0
    · have hzero := (number_eq_zero_iff high).mp hhigh
      rw [if_neg (by simpa using hzero), Option.some.injEq, hhigh]
      constructor
      · rintro rfl
        exact ⟨cons_ne_nil _ _, by omega, hlow⟩
      · intro h
        omega
    · have hany : (high.any fun word => word ≠ 0) = true := by
        simpa [number_eq_zero_iff] using hhigh
      rw [if_pos hany]
      constructor
      · intro h
        cases h
      · intro h
        omega

/-- A copy with room in the target and positions within `usize` runs to its end and moves exactly
its bits; a normalized value denotes its words modulo the width; a number that fits is read
off the words, if there are any. -/
theorem copies_exact :
    (∀ (target : List Word) (targetOffset : Nat) (source : List Word) (sourceOffset width : Nat),
      targetOffset + width ≤ 64 * target.length → targetOffset + width ≤ 2 ^ 64 → sourceOffset + width ≤ 2 ^ 64 →
      ∃ copied, copyBits? target targetOffset source sourceOffset width = some copied ∧
        copied.length = target.length ∧
        (∀ i < width, bitAt copied (targetOffset + i) = bitAt source (sourceOffset + i)) ∧
        ∀ k, k < targetOffset ∨ targetOffset + width ≤ k → bitAt copied k = bitAt target k) ∧
    (∀ (words : List Word) (width : Nat),
      (width ≤ 2 ^ 64 → copyBits? (zeros width) 0 words 0 width = some (normalized words width)) ∧
      (normalized words width).length = wordsFor width ∧
      number (normalized words width) = number words % 2 ^ width ∧
      ∀ k, width ≤ k → bitAt (normalized words width) k = false) ∧
    ∀ (words : List Word) (n : Nat), toUsize words = some n ↔ words ≠ [] ∧ number words = n ∧ n < 2 ^ 64 := by
  refine ⟨fun target targetOffset source sourceOffset width hroom hdest horigin => ?_, fun words width => ?_,
    fun words n => toUsize_eq_some⟩
  · refine ⟨_, copyBits?_eq hroom hdest horigin, length_copyBits .., fun i hi => ?_, fun k hk => ?_⟩
    · rw [bitAt_copyBits hroom, if_pos ⟨Nat.le_add_right _ _, by omega⟩, Nat.add_sub_cancel_left]
    · rw [bitAt_copyBits hroom, if_neg (by omega)]
  · have hroom : 0 + width ≤ 64 * (zeros width).length := by
      rw [length_zeros, Nat.zero_add]
      exact width_le_wordsFor width
    refine ⟨fun hwidth => copyBits?_eq hroom (by omega) (by omega), ?_, number_normalized words width, fun k hk => ?_⟩
    · rw [normalized, length_copyBits, length_zeros]
    · rw [bitAt_normalized, decide_eq_false (by omega), Bool.false_and]

theorem copies_exact_acrossWords : ∃ copied, copyBits? [0, 0] 60 [0xff#64] 4 8 = some copied ∧
    ∀ i < 8, bitAt copied (60 + i) = bitAt [0xff#64] (4 + i) := by
  obtain ⟨copied, hrun, _, hbits, _⟩ := copies_exact.1 [0, 0] 60 [0xff#64] 4 8 (by decide) (by decide) (by decide)
  exact ⟨copied, hrun, hbits⟩

/-- No words at all denote zero, which fits, and no number is read off them. -/
theorem toUsize_noWords :
    ¬ ∀ (words : List Word) (n : Nat), toUsize words = some n ↔ number words = n ∧ n < 2 ^ 64 := by
  intro h
  have hread : toUsize [] = some 0 := (h [] 0).mpr ⟨rfl, by decide⟩
  cases hread

end CfgLib.Rtl
