import CfgLib.Builder.Ranges
import CfgLib.Cfg.Mutation

/-!
# The layout of blocks

`builder/address.rs`: a block is a stretch of positions that begins at a leader.
-/

namespace CfgLib.Builder

open CfgLib.Lib List

/-! ## Stretches of positions -/

/-- The block of a position: each leader behind the start begins one. -/
def blockOf (leaders : List Bool) : Nat → Nat
  | 0 => 0
  | p + 1 => blockOf leaders p + if leaders.getD (p + 1) false then 1 else 0

variable {leaders : List Bool} {p : Nat}

theorem blockOf_le (leaders : List Bool) {q : Nat} (h : p ≤ q) :
    blockOf leaders p ≤ blockOf leaders q := by
  induction h with
  | refl => exact le_refl _
  | step _ ih => exact ih.trans (Nat.le_add_right _ _)

theorem getD_eq_true : leaders.getD p false = true ↔ IsLeader leaders p := by
  unfold IsLeader
  rw [getD_eq_getElem?_getD]
  cases leaders[p]? <;> simp

theorem blockOf_succ_eq (h : ¬ IsLeader leaders (p + 1)) :
    blockOf leaders (p + 1) = blockOf leaders p := by
  conv_lhs => unfold blockOf
  rw [if_neg (mt getD_eq_true.mp h), Nat.add_zero]

theorem blockOf_succ_ne (h : IsLeader leaders (p + 1)) :
    blockOf leaders (p + 1) = blockOf leaders p + 1 := by
  conv_lhs => unfold blockOf
  rw [if_pos (getD_eq_true.mpr h)]

def positionsIn (leaders : List Bool) (n b : Nat) : List Nat :=
  (List.range n).filter fun p => blockOf leaders p = b

theorem mem_positionsIn {n b : Nat} :
    p ∈ positionsIn leaders n b ↔ p < n ∧ blockOf leaders p = b := by
  unfold positionsIn
  rw [mem_filter, mem_range, decide_eq_true_eq]

theorem positionsIn_succ (leaders : List Bool) (n b : Nat) : positionsIn leaders (n + 1) b =
      positionsIn leaders n b ++ if blockOf leaders n = b then [n] else [] := by
  unfold positionsIn
  rw [range_succ, filter_append]
  congr 1
  by_cases h : blockOf leaders n = b
  · simp [h]
  · simp [h]

theorem positionsIn_eq (leaders : List Bool) (n b : Nat) :
    ∃ first len, positionsIn leaders n b = List.range' first len := by
  induction n with
  | zero => exact ⟨0, 0, rfl⟩
  | succ n ih =>
    obtain ⟨first, len, heq⟩ := ih
    rw [positionsIn_succ]
    split
    · next hb =>
      cases len with
      | zero =>
        refine ⟨n, 1, ?_⟩
        rw [heq]
        rfl
      | succ len =>
        refine ⟨first, len + 2, ?_⟩
        have hlast : first + len ∈ positionsIn leaders n b := by
          rw [heq, mem_range'_1]
          omega
        obtain ⟨hlt, hblock⟩ := mem_positionsIn.mp hlast
        -- the position before `n` lies between the last one and `n`
        have hmem : n - 1 ∈ positionsIn leaders n b := by
          refine mem_positionsIn.mpr ⟨by omega, le_antisymm ?_ ?_⟩
          · rw [← hb]
            exact blockOf_le leaders (by omega)
          · rw [← hblock]
            exact blockOf_le leaders (by omega)
        rw [heq, mem_range'_1] at hmem
        have hn : n = first + (len + 1) := by omega
        rw [heq, hn, range'_concat (n := len + 1), Nat.one_mul]
    · exact ⟨first, len, by rw [heq, append_nil]⟩

section Stretch

variable {leaders : List Bool} {n b i p q : Nat}

theorem getElem?_range' {first len : Nat} :
    (List.range' first len)[i]? = some p ↔ i < len ∧ p = first + i := by
  rw [List.getElem?_eq_some_iff]
  constructor
  · intro ⟨hi, hp⟩
    rw [length_range'] at hi
    rw [getElem_range', Nat.one_mul] at hp
    exact ⟨hi, hp.symm⟩
  · intro ⟨hi, hp⟩
    refine ⟨by rwa [length_range'], ?_⟩
    rw [getElem_range', Nat.one_mul, hp]

theorem next_positionsIn (h : (positionsIn leaders n b)[i]? = some p)
    (hnext : p + 1 ∈ positionsIn leaders n b) :
    (positionsIn leaders n b)[i + 1]? = some (p + 1) := by
  obtain ⟨first, len, heq⟩ := positionsIn_eq leaders n b
  rw [heq, getElem?_range'] at h
  rw [heq, mem_range'_1] at hnext
  rw [heq, getElem?_range']
  exact ⟨by omega, by omega⟩

theorem eq_succ_of_positionsIn (h : (positionsIn leaders n b)[i]? = some p)
    (hnext : (positionsIn leaders n b)[i + 1]? = some q) : q = p + 1 := by
  obtain ⟨first, len, heq⟩ := positionsIn_eq leaders n b
  rw [heq, getElem?_range'] at h hnext
  omega

theorem last_positionsIn (h : (positionsIn leaders n b)[i]? = some p)
    (hnext : p + 1 ∉ positionsIn leaders n b) : i + 1 = (positionsIn leaders n b).length := by
  obtain ⟨first, len, heq⟩ := positionsIn_eq leaders n b
  rw [heq, getElem?_range'] at h
  rw [heq, mem_range'_1] at hnext
  rw [heq, length_range']
  omega

theorem head_positionsIn (hp : p < n) (hlead : p = 0 ∨ IsLeader leaders p) :
    (positionsIn leaders n (blockOf leaders p)).head? = some p := by
  obtain ⟨first, len, heq⟩ := positionsIn_eq leaders n (blockOf leaders p)
  have hmem : p ∈ positionsIn leaders n (blockOf leaders p) := mem_positionsIn.mpr ⟨hp, rfl⟩
  rw [heq, mem_range'_1] at hmem
  have hfirst : first = p := by
    by_contra hne
    have hbefore : p - 1 ∈ positionsIn leaders n (blockOf leaders p) := by
      rw [heq, mem_range'_1]
      omega
    obtain ⟨k, rfl⟩ : ∃ k, p = k + 1 := ⟨p - 1, by omega⟩
    have hsame := (mem_positionsIn.mp hbefore).2
    have hleader : IsLeader leaders (k + 1) := hlead.resolve_left (by omega)
    rw [blockOf_succ_ne hleader, Nat.add_sub_cancel] at hsame
    omega
  rw [heq, hfirst, head?_eq_getElem?, getElem?_range']
  exact ⟨by omega, rfl⟩

end Stretch

/-! ## Populating -/

variable {ι A K π : Type}

theorem wf_new : (Cfg.new : Cfg ι π).WF := by
  have hadd : Store.Naive.empty.addNode (⟨[], none⟩ : BasicBlock ι) =
      some (Cfg.new : Cfg ι π).graph := by
    rfl
  exact ⟨Store.Naive.wf_empty.addNode hadd, rfl⟩

structure Populated (leaders : List Bool) (done : List ι) (s : Populating ι π) : Prop where
  wf : s.cfg.WF
  entry : s.cfg.entry = 0
  regions : s.cfg.regions = []
  edges : ∀ e, s.cfg.edge e = none
  current : s.current = blockOf leaders (done.length - 1)
  bound : s.cfg.blockBound = s.current + 1
  blocks : s.blocksByInstruction = (List.range done.length).map (blockOf leaders)
  code : ∀ b ≤ s.current, s.cfg.block b =
    some ⟨(positionsIn leaders done.length b).filterMap fun p => done[p]?, none⟩
  terminators : ∀ b p, (b, p) ∈ s.terminators ↔
    p + 1 < done.length ∧ IsLeader leaders (p + 1) ∧ b = blockOf leaders p

theorem positionsIn_eq_nil {n b : Nat} (h : ∀ p < n, blockOf leaders p < b) : positionsIn leaders n b = [] := by
  refine filter_eq_nil_iff.mpr fun p hp => ?_
  have := h p (mem_range.mp hp)
  simp only [decide_eq_true_eq]
  omega

theorem filterMap_positionsIn (leaders : List Bool) (done : List ι) (x : ι) (b : Nat) :
    (positionsIn leaders (done ++ [x]).length b).filterMap (fun p => (done ++ [x])[p]?) =
      (positionsIn leaders done.length b).filterMap (fun p => done[p]?) ++
        if blockOf leaders done.length = b then [x] else [] := by
  rw [length_append, length_singleton, positionsIn_succ, filterMap_append]
  congr 1
  · refine filterMap_congr fun p hp => ?_
    rw [getElem?_append_left (mem_positionsIn.mp hp).1]
  · split
    · simp
    · rfl

structure Opened (leaders : List Bool) (done : List ι) (s : Populating ι π) : Prop where
  wf : s.cfg.WF
  entry : s.cfg.entry = 0
  regions : s.cfg.regions = []
  edges : ∀ e, s.cfg.edge e = none
  current : s.current = blockOf leaders done.length
  bound : s.cfg.blockBound = s.current + 1
  blocks : s.blocksByInstruction = (List.range done.length).map (blockOf leaders)
  code : ∀ b ≤ s.current, s.cfg.block b =
    some ⟨(positionsIn leaders done.length b).filterMap fun p => done[p]?, none⟩
  terminators : ∀ b p, (b, p) ∈ s.terminators ↔
    p < done.length ∧ IsLeader leaders (p + 1) ∧ b = blockOf leaders p

theorem edges_none {c c' : Cfg ι π} (h : ∀ e, c.edge e = none) (heq : ∀ e, c'.edge e = c.edge e) :
    ∀ e, c'.edge e = none := fun e => (heq e).trans (h e)

theorem Populated.opens {leaders : List Bool} {done : List ι} {s : Populating ι π}
    (h : Populated leaders done s) (hne : done ≠ []) (hlead : IsLeader leaders done.length)
    {b : Nat} {c : Cfg ι π} (hs : s.cfg.newBlock = some (b, c)) :
    Opened leaders done { s with
      cfg := c
      current := b
      terminators := s.terminators ++ [(s.current, done.length - 1)] } := by
  obtain ⟨rfl, hwf, hframe, hblock, hedge, hbound, _⟩ := Cfg.newBlock_spec h.wf hs
  obtain ⟨k, hk⟩ : ∃ k, done.length = k + 1 :=
    ⟨done.length - 1, by have := length_pos_iff.mpr hne; omega⟩
  have hcurrent : s.current = blockOf leaders k := by rw [h.current, hk, Nat.add_sub_cancel]
  have hnext : blockOf leaders (k + 1) = s.current + 1 := by
    rw [hcurrent]
    exact blockOf_succ_ne (hk ▸ hlead)
  refine ⟨hwf, hframe.entry.trans h.entry, hframe.regions.trans h.regions,
    edges_none h.edges hedge, ?_, ?_, h.blocks, ?_, ?_⟩
  · change s.cfg.blockBound = _
    rw [hk, hnext, h.bound]
  · exact hbound
  · intro b hb
    rw [hblock]
    split
    · next heq =>
      have hempty : positionsIn leaders done.length b = [] := by
        refine positionsIn_eq_nil fun p hp => ?_
        have := blockOf_le leaders (show p ≤ k by omega)
        rw [heq, h.bound]
        omega
      rw [hempty]
      rfl
    · next hne' =>
      have hle : b ≤ s.cfg.blockBound := hb
      exact h.code b (by rw [h.bound] at hle hne'; omega)
  · intro b p
    rw [mem_append, h.terminators, mem_singleton, Prod.mk.injEq]
    constructor
    · intro hmem
      rcases hmem with ⟨hlt, hp, hb⟩ | ⟨rfl, rfl⟩
      · exact ⟨by omega, hp, hb⟩
      · rw [hk, Nat.add_sub_cancel]
        exact ⟨by omega, hk ▸ hlead, hcurrent⟩
    · intro ⟨hlt, hp, hb⟩
      by_cases hlast : p + 1 < done.length
      · exact Or.inl ⟨hlast, hp, hb⟩
      · have hpk : p = k := by omega
        refine Or.inr ⟨?_, by omega⟩
        rw [hb, hpk, hcurrent]

theorem Populated.stays {done : List ι} {s : Populating ι π}
    (h : Populated leaders done s) (hlead : done = [] ∨ ¬ IsLeader leaders done.length) :
    Opened leaders done s := by
  have hcurrent : s.current = blockOf leaders done.length := by
    rw [h.current]
    rcases hlead with rfl | hlead
    · rfl
    · cases hk : done.length with
      | zero => rfl
      | succ k =>
        rw [hk] at hlead
        rw [Nat.add_sub_cancel, blockOf_succ_eq hlead]
  refine ⟨h.wf, h.entry, h.regions, h.edges, hcurrent, h.bound, h.blocks, h.code, fun b p => ?_⟩
  rw [h.terminators]
  constructor
  · intro ⟨hlt, hrest⟩
    exact ⟨by omega, hrest⟩
  · intro ⟨hlt, hp, hb⟩
    refine ⟨?_, hp, hb⟩
    by_contra hnot
    have hlast : p + 1 = done.length := by omega
    rcases hlead with rfl | hlead
    · cases hlt
    · exact hlead (hlast ▸ hp)

theorem Opened.push {leaders : List Bool} {done : List ι} {s : Populating ι π}
    (h : Opened leaders done s) (x : ι) : Populated leaders (done ++ [x]) { s with
      cfg := s.cfg.modifyBlock s.current fun b => { b with instructions := b.instructions ++ [x] }
      blocksByInstruction := s.blocksByInstruction ++ [s.current] } := by
  have hlength : (done ++ [x]).length = done.length + 1 := by
    rw [length_append, length_singleton]
  refine ⟨h.wf.modifyBlock _ _, h.entry, h.regions, h.edges, ?_, ?_, ?_, ?_, ?_⟩
  · rw [hlength, Nat.add_sub_cancel]
    exact h.current
  · exact (Cfg.blockBound_modifyBlock ..).trans h.bound
  · change s.blocksByInstruction ++ [s.current] = _
    rw [hlength, range_succ, map_append, h.blocks, h.current]
    rfl
  · intro b hb
    rw [Cfg.block_modifyBlock, filterMap_positionsIn, h.code b hb, ← h.current]
    by_cases heq : b = s.current
    · rw [if_pos heq, if_pos heq.symm]
      rfl
    · rw [if_neg heq, if_neg (Ne.symm heq), append_nil]
  · intro b p
    rw [h.terminators, hlength, Nat.add_lt_add_iff_right]

theorem Populated.step {done : List ι} {x : ι} {s s' : Populating ι π}
    (h : Populated leaders done s) (hs : populate leaders s (x, done.length) = some s') :
    Populated leaders (done ++ [x]) s' := by
  obtain ⟨opened, hopened, hs⟩ := Option.bind_eq_some_iff.mp hs
  cases hs
  refine Opened.push ?_ x
  unfold openBlock at hopened
  split at hopened
  · next hlead =>
    obtain ⟨⟨b, c⟩, hnew, hopened⟩ := Option.bind_eq_some_iff.mp hopened
    cases hopened
    exact h.opens (mt length_eq_zero_iff.mpr hlead.1) (getD_eq_true.mp hlead.2) hnew
  · next hlead =>
    cases hopened
    refine h.stays ?_
    by_cases hdone : done = []
    · exact Or.inl hdone
    · refine Or.inr fun hl => hlead ⟨mt length_eq_zero_iff.mp hdone, getD_eq_true.mpr hl⟩

/-- The graph before any edge: one block for each stretch, and its last positions. -/
structure Layout (leaders : List Bool) (instructions : List ι) (s : Populating ι π) : Prop where
  wf : s.cfg.WF
  entry : s.cfg.entry = 0
  regions : s.cfg.regions = []
  edges : ∀ e, s.cfg.edge e = none
  bound : s.cfg.blockBound = blockOf leaders (instructions.length - 1) + 1
  blocks : s.blocksByInstruction = (List.range instructions.length).map (blockOf leaders)
  code : ∀ b < s.cfg.blockBound, s.cfg.block b =
    some ⟨(positionsIn leaders instructions.length b).filterMap fun p => instructions[p]?, none⟩
  terminators : ∀ b p, (b, p) ∈ s.terminators ↔ p < instructions.length ∧
    (p + 1 = instructions.length ∨ IsLeader leaders (p + 1)) ∧ b = blockOf leaders p

theorem populateBlocks_spec {leaders : List Bool} {instructions : List ι} {s : Populating ι π}
    (hl : leaders.length = instructions.length)
    (hs : populateBlocks instructions leaders = some s) : Layout leaders instructions s := by
  obtain ⟨mid, hmid, hs⟩ := Option.bind_eq_some_iff.mp hs
  have hinitial : Populated leaders [] (⟨.new, 0, [], []⟩ : Populating ι π) := by
    refine ⟨wf_new, rfl, rfl, fun e => rfl, rfl, rfl, rfl, ?_, ?_⟩
    · intro b hb
      cases Nat.le_zero.mp hb
      rfl
    · intro b p
      simp
  have h : Populated leaders instructions mid := foldlM_zipIdx
    (I := fun done s => Populated leaders done s) (fun _ _ _ _ h hstep => h.step hstep) hinitial hmid
  cases hs
  refine ⟨h.wf, h.entry, h.regions, h.edges, h.bound.trans (by rw [h.current]), h.blocks, ?_, ?_⟩
  · intro b hb
    have hlt : b < mid.cfg.blockBound := hb
    exact h.code b (by rw [h.bound] at hlt; omega)
  · intro b p
    have hpast : ¬ IsLeader leaders instructions.length := by
      unfold IsLeader
      rw [getElem?_eq_none (by omega)]
      exact fun h => by cases h
    cases instructions with
    | nil =>
      change (b, p) ∈ mid.terminators ↔ _
      rw [h.terminators]
      simp
    | cons first rest =>
      change (b, p) ∈ mid.terminators ++ [(mid.current, rest.length)] ↔ _
      rw [mem_append, h.terminators, mem_singleton, Prod.mk.injEq, h.current]
      simp only [length_cons, Nat.add_sub_cancel]
      constructor
      · intro hmem
        rcases hmem with ⟨hlt, hp, hb⟩ | ⟨rfl, rfl⟩
        · exact ⟨by omega, Or.inr hp, hb⟩
        · exact ⟨by omega, Or.inl rfl, rfl⟩
      · intro ⟨hlt, hp, hb⟩
        by_cases hlast : p = rest.length
        · subst hlast
          exact Or.inr ⟨hb, rfl⟩
        · exact Or.inl ⟨by omega, hp.resolve_left (by omega), hb⟩

end CfgLib.Builder
