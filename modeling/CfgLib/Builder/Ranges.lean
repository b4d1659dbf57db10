import CfgLib.Builder.Leaders

/-!
# The handler table

`builder/address.rs`: every boundary and entry of the table begins a block, and so
does every instruction of a protected range.
-/

namespace CfgLib.Builder

open CfgLib.Lib List

variable {ι A K π : Type} [AddressSpace A] {I : AddressInstruction ι A K} {instructions : List ι}
  {inspected : Inspected A K}

structure Resolves (inspected : Inspected A K) (s : HandlerScan) (i : Nat)
    (handler : AddressHandler A) : Prop where
  range : ∃ first last, s.ranges[i]? = some (first, last) ∧
    rangePositions handler.start handler.stop inspected.codeEnd inspected.addresses =
      .ok (first, last) ∧ IsLeader s.leaders first ∧
      (last < inspected.addresses.length → IsLeader s.leaders last)
  entry : ∃ entry, s.entries[i]? = some entry ∧
    inspected.addresses[entry]? = some handler.entry ∧ IsLeader s.leaders entry

/-- What holds of the entries scanned so far. -/
structure Scans (inspected : Inspected A K) (leaders : List Bool)
    (handlers : List (AddressHandler A)) (s : HandlerScan) : Prop where
  extends_leaders : Extends leaders s.leaders
  length_ranges : s.ranges.length = handlers.length
  length_entries : s.entries.length = handlers.length
  resolves : ∀ (i : Nat) (handler : AddressHandler A), handlers[i]? = some handler →
    Resolves inspected s i handler
  bounds : ∀ range ∈ s.ranges, range.1 < range.2 ∧ range.2 ≤ inspected.addresses.length
  starts : s.rangeStarts.length = inspected.addresses.length + 1 ∧
    ∀ p ≤ inspected.addresses.length,
      s.rangeStarts.getD p 0 = s.ranges.countP fun range => range.1 = p
  ends : s.rangeEnds.length = inspected.addresses.length + 1 ∧
    ∀ p ≤ inspected.addresses.length,
      s.rangeEnds.getD p 0 = s.ranges.countP fun range => range.2 = p

theorem getD_modify_succ (l : List Nat) {i : Nat} (hi : i < l.length) (p : Nat) :
    (l.modify i (· + 1)).getD p 0 = l.getD p 0 + if i = p then 1 else 0 := by
  rw [getD_eq_getElem?_getD, getD_eq_getElem?_getD, getElem?_modify]
  by_cases heq : i = p
  · subst heq
    rw [getElem?_eq_getElem hi]
    simp
  · simp [heq]

variable {handlers : List (AddressHandler A)} {ranges : List (Nat × Nat)} {leaders : List Bool}

theorem Scans.step (h : Inspects I instructions inspected) (hl : leaders.length = inspected.addresses.length)
    {handler : AddressHandler A} {s s' : HandlerScan} (hscan : Scans inspected leaders handlers s)
    (hs : scanHandler inspected.codeEnd inspected.addresses s handler = .ok s') :
    Scans inspected leaders (handlers ++ [handler]) s' := by
  unfold scanHandler at hs
  obtain ⟨⟨first, last⟩, hrange, hs⟩ := bind_eq_ok.mp hs
  simp only at hs
  split at hs
  · cases hs
  next entry hentry =>
  obtain ⟨_, hlt, hle, _⟩ := rangePositions_spec h hrange
  have hbound : inspected.addresses.length = instructions.length := h.length_addresses
  have hentryAt := h.binarySearch_iff.mp hentry
  have hentryLt := (List.getElem?_eq_some_iff.mp hentryAt).1
  -- the three marks of the entry
  have hfirst := extends_set s.leaders first
  have hlength : s.leaders.length = inspected.addresses.length :=
    hscan.extends_leaders.length.trans hl
  have hsecond : Extends (s.leaders.set first true)
      (if last < (s.leaders.set first true).length then
        (s.leaders.set first true).set last true else s.leaders.set first true) := by
    split
    · exact extends_set _ _
    · exact .refl _
  have hlastLead : last < inspected.addresses.length →
      IsLeader (if last < (s.leaders.set first true).length then
        (s.leaders.set first true).set last true else s.leaders.set first true) last := by
    intro hlast
    have hlast' : last < (s.leaders.set first true).length := by
      rw [length_set, hlength]
      exact hlast
    rw [if_pos hlast']
    exact isLeader_set hlast'
  generalize hmarked : (if last < (s.leaders.set first true).length then
    (s.leaders.set first true).set last true else s.leaders.set first true) = marked
    at hs hsecond hlastLead
  have hthird := extends_set marked entry
  have hall : Extends s.leaders (marked.set entry true) := (hfirst.trans hsecond).trans hthird
  cases hs
  refine ⟨hscan.extends_leaders.trans hall, ?_, ?_, ?_, ?_, ?_, ?_⟩
  · simp [hscan.length_ranges]
  · simp [hscan.length_entries]
  · intro i x hx
    rcases getElem?_append_singleton.mp hx with hx | ⟨rfl, rfl⟩
    · obtain ⟨⟨f, l, hget, hpos, hf, hlast⟩, e, hgete, hate, he⟩ := hscan.resolves i x hx
      refine ⟨⟨f, l, ?_, hpos, hall.mono _ hf, fun hll => hall.mono _ (hlast hll)⟩, e, ?_, hate,
        hall.mono _ he⟩
      · exact getElem?_append_singleton.mpr (Or.inl hget)
      · exact getElem?_append_singleton.mpr (Or.inl hgete)
    · refine ⟨⟨first, last, ?_, hrange, ?_, fun hll => hthird.mono _ (hlastLead hll)⟩, entry, ?_,
        hentryAt, ?_⟩
      · exact getElem?_append_singleton.mpr (Or.inr ⟨hscan.length_ranges.symm, rfl⟩)
      · refine (hsecond.trans hthird).mono _ (isLeader_set ?_)
        omega
      · exact getElem?_append_singleton.mpr (Or.inr ⟨hscan.length_entries.symm, rfl⟩)
      · refine isLeader_set ?_
        rw [hsecond.length, length_set, hlength]
        exact hentryLt
  · intro range hmem
    rcases mem_append.mp hmem with hmem | hmem
    · exact hscan.bounds range hmem
    · rw [mem_singleton.mp hmem]
      exact ⟨hlt, by rw [hbound]; exact hle⟩
  · refine ⟨(length_modify ..).trans hscan.starts.1, fun p hp => ?_⟩
    rw [getD_modify_succ _ (by rw [hscan.starts.1]; omega), hscan.starts.2 p hp, countP_append,
      countP_singleton]
    simp
  · refine ⟨(length_modify ..).trans hscan.ends.1, fun p hp => ?_⟩
    rw [getD_modify_succ _ (by rw [hscan.ends.1]; omega), hscan.ends.2 p hp, countP_append,
      countP_singleton]
    simp

/-! ## The sweep -/

/-- Ranges that hold `k`, and those that end there, are those that held the position
before and those that start there. -/
theorem countP_sweep (hbounds : ∀ range ∈ ranges, range.1 < range.2) (k : Nat) :
    (ranges.countP fun range => range.1 < k + 1 ∧ k + 1 ≤ range.2) +
        (ranges.countP fun range => range.2 = k) =
      (ranges.countP fun range => range.1 < k ∧ k ≤ range.2) +
        ranges.countP fun range => range.1 = k := by
  induction ranges with
  | nil => rfl
  | cons range rest ih =>
    have hrest := ih fun r hr => hbounds r (mem_cons_of_mem _ hr)
    have hlt := hbounds range mem_cons_self
    simp only [countP_cons, decide_eq_true_eq]
    split_ifs <;> omega

theorem foldl_sweepActive {n : Nat}
    (hbounds : ∀ range ∈ ranges, range.1 < range.2 ∧ range.2 ≤ n) {rangeStarts rangeEnds : List Nat}
    (hstarts : ∀ p ≤ n, rangeStarts.getD p 0 = ranges.countP fun range => range.1 = p)
    (hends : ∀ p ≤ n, rangeEnds.getD p 0 = ranges.countP fun range => range.2 = p)
    (hl : leaders.length = n) {k : Nat} (hk : k ≤ n) :
    let swept := (List.range k).foldl (sweepActive rangeStarts rangeEnds) (0, leaders)
    (ranges.countP fun range => range.1 < k ∧ k ≤ range.2) ≤ swept.1 ∧
      Extends leaders swept.2 ∧
      ∀ p < k, ∀ range ∈ ranges, range.1 ≤ p → p < range.2 → IsLeader swept.2 p := by
  induction k with
  | zero =>
    refine ⟨?_, .refl _, fun p hp => by omega⟩
    simp
  | succ k ih =>
    obtain ⟨hactive, hext, hmarked⟩ := ih (by omega)
    simp only [range_succ, foldl_append, foldl_cons, foldl_nil]
    generalize (List.range k).foldl (sweepActive rangeStarts rangeEnds) (0, leaders) = swept
      at hactive hext hmarked ⊢
    have hsweep := countP_sweep (fun range hr => (hbounds range hr).1) k
    have hle : (ranges.countP fun range => range.2 = k) ≤
        ranges.countP fun range => range.1 < k ∧ k ≤ range.2 := by
      refine countP_mono_left fun range hr hend => ?_
      have hlt := (hbounds range hr).1
      simp only [decide_eq_true_eq] at hend ⊢
      omega
    have hnow : (ranges.countP fun range => range.1 < k + 1 ∧ k + 1 ≤ range.2) ≤
        swept.1 - rangeEnds.getD k 0 + rangeStarts.getD k 0 := by
      rw [hstarts k (by omega), hends k (by omega)]
      omega
    unfold sweepActive
    simp only
    refine ⟨hnow, ?_, ?_⟩
    · split
      · exact hext.trans (extends_set _ _)
      · exact hext
    · intro p hp range hr hfirst hlast
      by_cases hpk : p = k
      · subst hpk
        have hpos : 0 < ranges.countP fun range => range.1 < p + 1 ∧ p + 1 ≤ range.2 := by
          refine countP_pos_iff.mpr ⟨range, hr, ?_⟩
          simp only [decide_eq_true_eq]
          omega
        rw [if_pos (by omega)]
        exact isLeader_set (by rw [hext.length]; omega)
      · have hold := hmarked p (by omega) range hr hfirst hlast
        split
        · exact (extends_set _ _).mono _ hold
        · exact hold

/-- The table after validation: every entry is resolved, and every position of every
range begins a block. -/
structure Validated (inspected : Inspected A K) (leaders : List Bool)
    (handlers : List (AddressHandler A)) (index : HandlerIndex) (leaders' : List Bool) : Prop where
  extends_leaders : Extends leaders leaders'
  length_ranges : index.ranges.length = handlers.length
  length_entries : index.entries.length = handlers.length
  range : ∀ (i : Nat) (handler : AddressHandler A), handlers[i]? = some handler → ∃ first last,
    index.ranges[i]? = some (first, last) ∧
      rangePositions handler.start handler.stop inspected.codeEnd inspected.addresses =
        .ok (first, last) ∧
      (last < inspected.addresses.length → IsLeader leaders' last) ∧
      ∀ p, first ≤ p → p < last → IsLeader leaders' p
  entry : ∀ (i : Nat) (handler : AddressHandler A), handlers[i]? = some handler →
    ∃ entry, index.entries[i]? = some entry ∧
    inspected.addresses[entry]? = some handler.entry ∧ IsLeader leaders' entry

theorem validateHandlers_spec (h : Inspects I instructions inspected) {leaders' : List Bool}
    (hl : leaders.length = inspected.addresses.length) {index : HandlerIndex}
    (hs : validateHandlers handlers inspected.codeEnd inspected.addresses leaders =
      .ok (index, leaders')) : Validated inspected leaders handlers index leaders' := by
  unfold validateHandlers at hs
  obtain ⟨s, hscan, hs⟩ := bind_eq_ok.mp hs
  cases hs
  have hcount : ∀ p ≤ inspected.addresses.length,
      (List.replicate (inspected.addresses.length + 1) 0).getD p 0 = 0 := by
    intro p hp
    rw [getD_eq_getElem?_getD, getElem?_replicate, if_pos (by omega)]
    rfl
  have hscans : Scans inspected leaders handlers s := by
    refine foldlM_except (fun _ _ _ _ hdone hstep => hdone.step h hl hstep) ?_ hscan
    refine ⟨.refl _, rfl, rfl, fun i x hx => (by cases hx), fun r hr => (by cases hr),
      ⟨length_replicate, hcount⟩, ⟨length_replicate, hcount⟩⟩
  obtain ⟨_, hext, hmarked⟩ := foldl_sweepActive hscans.bounds hscans.starts.2 hscans.ends.2
    (hscans.extends_leaders.length.trans hl) (le_refl _)
  refine ⟨hscans.extends_leaders.trans hext, hscans.length_ranges, hscans.length_entries, ?_, ?_⟩
  · intro i handler hi
    obtain ⟨first, last, hget, hpos, _, hlast⟩ := (hscans.resolves i handler hi).range
    refine ⟨first, last, hget, hpos, fun hlt => hext.mono _ (hlast hlt), fun p hfirst hp => ?_⟩
    have hmem := mem_of_getElem? hget
    have hbound := (hscans.bounds _ hmem).2
    exact hmarked p (by omega) _ hmem hfirst hp
  · intro i handler hi
    obtain ⟨entry, hget, hat, hlead⟩ := (hscans.resolves i handler hi).entry
    exact ⟨entry, hget, hat, hext.mono _ hlead⟩

end CfgLib.Builder
