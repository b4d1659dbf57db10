import CfgLib.Builder.Address

/-!
# The inspected stream

`builder/address.rs`: what inspection and the handler table establish about
addresses, positions and flows.
-/

namespace CfgLib.Builder

open CfgLib.Lib List

variable {ι A K π : Type} [AddressSpace A] {I : AddressInstruction ι A K} {instructions : List ι}

/-! ## Inspection -/

structure Inspects (I : AddressInstruction ι A K) (instructions : List ι) (s : Inspected A K) :
    Prop where
  addresses : s.addresses = instructions.map I.address
  previous : ∀ a ∈ s.addresses, ∃ last, s.previous = some last ∧ a ≤ last
  sorted : s.addresses.Pairwise (· < ·)
  ends : ∀ x ∈ instructions, I.address x < I.endOf x
  codeEnd : ∀ x ∈ instructions, ∃ last, s.codeEnd = some last ∧ I.endOf x ≤ last
  transfers : ∀ position flow, (position, flow) ∈ s.transfers ↔
    ∃ x, instructions[position]? = some x ∧ flow = I.flow x ∧ (I.flow x).endsBlock = true

theorem getElem?_append_singleton {α : Type} {l : List α} {x y : α} {i : Nat} :
    (l ++ [x])[i]? = some y ↔ l[i]? = some y ∨ (i = l.length ∧ y = x) := by
  rw [getElem?_append]
  by_cases hi : i < l.length
  · rw [if_pos hi]
    exact ⟨Or.inl, fun h => h.resolve_right fun ⟨heq, _⟩ => by omega⟩
  · rw [if_neg hi, getElem?_singleton]
    by_cases heq : i = l.length
    · simp [heq, eq_comm]
    · have hnone : l[i]? = none := getElem?_eq_none (by omega)
      rw [if_neg (by omega), hnone]
      simp [heq]

theorem furthest_spec (codeEnd : Option A) (stop : A) : ∃ last, furthest codeEnd stop = some last ∧
    stop ≤ last ∧ ∀ current, codeEnd = some current → current ≤ last := by
  unfold furthest
  split
  · exact ⟨stop, rfl, le_refl _, fun _ hc => (by cases hc)⟩
  · next current =>
    split
    · next hlt => exact ⟨stop, rfl, le_refl _, fun _ hc => by cases hc; exact hlt.le⟩
    · next hnot => exact ⟨current, rfl, not_lt.mp hnot, fun _ hc => by cases hc; exact le_refl _⟩

variable {s : Inspected A K}

theorem Inspects.step {s' : Inspected A K} {x : ι} (h : Inspects I instructions s)
    (hs : inspectInstruction I s x = .ok s') : Inspects I (instructions ++ [x]) s' := by
  unfold inspectInstruction at hs
  split at hs
  · cases hs
  next stop hstop =>
  split at hs
  · cases hs
  next hsize =>
  split at hs
  · cases hs
  next hprevious =>
  cases hs
  have hend : I.endOf x = stop := by
    unfold AddressInstruction.endOf
    rw [hstop]
    rfl
  have hbefore : ∀ a ∈ s.addresses, a < I.address x := by
    intro a ha
    obtain ⟨last, hlast, hle⟩ := h.previous a ha
    rw [hlast, Option.filter_eq_none_iff] at hprevious
    have hnot := hprevious last rfl
    simp only [decide_eq_true_eq, not_le] at hnot
    exact lt_of_le_of_lt hle hnot
  refine ⟨?_, ?_, ?_, ?_, ?_, ?_⟩
  · simp [h.addresses]
  · intro a ha
    refine ⟨_, rfl, ?_⟩
    rcases mem_append.mp ha with ha | ha
    · exact (hbefore a ha).le
    · exact (mem_singleton.mp ha).le
  · refine pairwise_append.mpr ⟨h.sorted, pairwise_singleton _ _, ?_⟩
    intro a ha b hb
    rw [mem_singleton.mp hb]
    exact hbefore a ha
  · intro y hy
    rcases mem_append.mp hy with hy | hy
    · exact h.ends y hy
    · rw [mem_singleton.mp hy, hend]
      exact not_le.mp hsize
  · intro y hy
    obtain ⟨last, hlast, hstopLe, hcurrent⟩ := furthest_spec s.codeEnd stop
    refine ⟨last, hlast, ?_⟩
    rcases mem_append.mp hy with hy | hy
    · obtain ⟨current, hc, hle⟩ := h.codeEnd y hy
      exact hle.trans (hcurrent current hc)
    · rw [mem_singleton.mp hy, hend]
      exact hstopLe
  · intro position flow
    have hlength : s.addresses.length = instructions.length := by
      rw [h.addresses, length_map]
    simp only
    split
    · next hends =>
      rw [mem_append, h.transfers, mem_singleton, Prod.mk.injEq, hlength]
      constructor
      · intro hmem
        rcases hmem with ⟨y, hy, hflow, hy'⟩ | ⟨rfl, rfl⟩
        · exact ⟨y, getElem?_append_singleton.mpr (Or.inl hy), hflow, hy'⟩
        · exact ⟨x, getElem?_append_singleton.mpr (Or.inr ⟨rfl, rfl⟩), rfl, hends⟩
      · intro ⟨y, hy, hflow, hy'⟩
        rcases getElem?_append_singleton.mp hy with hy | ⟨rfl, rfl⟩
        · exact Or.inl ⟨y, hy, hflow, hy'⟩
        · exact Or.inr ⟨rfl, hflow⟩
    · next hends =>
      rw [h.transfers]
      constructor
      · intro ⟨y, hy, hrest⟩
        exact ⟨y, getElem?_append_singleton.mpr (Or.inl hy), hrest⟩
      · intro ⟨y, hy, hflow, hy'⟩
        rcases getElem?_append_singleton.mp hy with hy | ⟨_, rfl⟩
        · exact ⟨y, hy, hflow, hy'⟩
        · exact absurd hy' hends

theorem inspectInstructions_spec (hs : inspectInstructions I instructions = .ok s) : Inspects I instructions s :=
  foldlM_except (fun _ _ _ _ h hstep => h.step hstep)
    ⟨rfl, fun _ h => (by cases h), List.Pairwise.nil, fun _ h => (by cases h),
      fun _ h => (by cases h), fun _ _ => by simp⟩ hs

namespace Inspects

variable {s : Inspected A K}

theorem length_addresses (h : Inspects I instructions s) :
    s.addresses.length = instructions.length := by
  rw [h.addresses, length_map]

variable {a : A} {p q : Nat} {x : ι}

section

variable (h : Inspects I instructions s)
include h

theorem address_eq (hx : instructions[p]? = some x) : s.addresses[p]? = some (I.address x) := by
  rw [h.addresses, getElem?_map, hx]
  rfl

theorem exists_instruction (ha : s.addresses[p]? = some a) : ∃ x, instructions[p]? = some x ∧ I.address x = a := by
  rw [h.addresses, getElem?_map] at ha
  exact Option.map_eq_some_iff.mp ha

theorem lt_iff {b : A} (ha : s.addresses[p]? = some a) (hb : s.addresses[q]? = some b) : a < b ↔ p < q := by
  have hmono : ∀ {p q : Nat} {a b : A}, s.addresses[p]? = some a → s.addresses[q]? = some b →
      p < q → a < b := by
    intro p q a b ha hb hlt
    obtain ⟨hp, rfl⟩ := List.getElem?_eq_some_iff.mp ha
    obtain ⟨hq, rfl⟩ := List.getElem?_eq_some_iff.mp hb
    exact pairwise_iff_getElem.mp h.sorted p q hp hq hlt
  refine ⟨fun hlt => ?_, hmono ha hb⟩
  by_contra hnot
  rcases Nat.lt_or_ge q p with hqp | hpq
  · exact lt_asymm hlt (hmono hb ha hqp)
  · have heq : p = q := by omega
    rw [heq, hb] at ha
    cases ha
    exact lt_irrefl _ hlt

theorem le_iff {b : A} (ha : s.addresses[p]? = some a) (hb : s.addresses[q]? = some b) : a ≤ b ↔ p ≤ q := by
  rw [← not_lt, h.lt_iff hb ha, Nat.not_lt]

theorem binarySearch_iff : binarySearch s.addresses a = some p ↔ s.addresses[p]? = some a := by
  unfold binarySearch
  rw [idxOf?_eq_some_iff]
  constructor
  · intro ⟨hlt, heq, _⟩
    rw [getElem?_eq_getElem hlt, heq]
  · intro hget
    obtain ⟨hlt, heq⟩ := List.getElem?_eq_some_iff.mp hget
    refine ⟨hlt, heq, fun j hj hja => ?_⟩
    have hgetj : s.addresses[j]? = some a := by
      rw [getElem?_eq_getElem (by omega), hja]
    exact lt_irrefl a ((h.lt_iff hgetj hget).mpr hj)

theorem binarySearch_none (hs : binarySearch s.addresses a = none) (p : Nat) : s.addresses[p]? ≠ some a := by
  intro hget
  rw [h.binarySearch_iff.mpr hget] at hs
  cases hs

theorem position_eq {y : ι}
    (hx : instructions[p]? = some x) (hy : instructions[q]? = some y) (hsame : I.address x = I.address y) : p = q :=
  Option.some.inj ((h.binarySearch_iff.mpr (h.address_eq hx)).symm.trans
    (h.binarySearch_iff.mpr (hsame ▸ h.address_eq hy)))

theorem flowAt_eq (hx : instructions[p]? = some x) :
    flowAt s.transfers p = if (I.flow x).endsBlock then some (I.flow x) else none := by
  unfold flowAt
  cases hfind : s.transfers.find? fun transfer => decide (transfer.1 = p) with
  | none =>
    rw [if_neg, Option.map_none]
    intro hends
    have hmem := (h.transfers p (I.flow x)).mpr ⟨x, hx, rfl, hends⟩
    have hnot := find?_eq_none.mp hfind _ hmem
    simp at hnot
  | some transfer =>
    obtain ⟨position, flow⟩ := transfer
    have hp := find?_some hfind
    simp only [decide_eq_true_eq] at hp
    obtain ⟨y, hy, rfl, hends⟩ :=
      (h.transfers position flow).mp (mem_of_find?_eq_some hfind)
    rw [hp, hx] at hy
    cases hy
    rw [if_pos hends]
    rfl

end

end Inspects

/-! ## Handler ranges -/

theorem rangePositions_spec (h : Inspects I instructions s) {start stop : A}
    {first last : Nat} (hs : rangePositions start stop s.codeEnd s.addresses = .ok (first, last)) :
    start < stop ∧ first < last ∧ last ≤ instructions.length ∧ ∀ p x, instructions[p]? = some x →
        (first ≤ p ∧ p < last ↔ start ≤ I.address x ∧ I.address x < stop) := by
  unfold rangePositions at hs
  split at hs
  · cases hs
  next hlt =>
  have hlt := not_le.mp hlt
  split at hs
  · cases hs
  next first' hfirst =>
  have hstart := h.binarySearch_iff.mp hfirst
  have hfirstLt : first' < instructions.length := by
    rw [← h.length_addresses]
    exact (List.getElem?_eq_some_iff.mp hstart).1
  split at hs
  · next hend =>
    cases hs
    refine ⟨hlt, ?_, h.length_addresses.le, fun p x hx => ?_⟩
    · rw [h.length_addresses]
      exact hfirstLt
    · obtain ⟨last, hlast, hle⟩ := h.codeEnd x (mem_of_getElem? hx)
      rw [hend] at hlast
      cases hlast
      have hbelow := (h.ends x (mem_of_getElem? hx)).trans_le hle
      have hp := (List.getElem?_eq_some_iff.mp hx).1
      rw [h.le_iff hstart (h.address_eq hx), h.length_addresses]
      exact ⟨fun hin => ⟨hin.1, hbelow⟩, fun hin => ⟨hin.1, hp⟩⟩
  · split at hs
    · cases hs
    next last' hlast =>
    cases hs
    have hstop := h.binarySearch_iff.mp hlast
    refine ⟨hlt, (h.lt_iff hstart hstop).mp hlt, ?_, fun p x hx => ?_⟩
    · rw [← h.length_addresses]
      exact (List.getElem?_eq_some_iff.mp hstop).1.le
    · rw [h.le_iff hstart (h.address_eq hx), h.lt_iff (h.address_eq hx) hstop]

end CfgLib.Builder
