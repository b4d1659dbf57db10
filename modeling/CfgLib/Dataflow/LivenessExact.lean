import CfgLib.Analysis.ControlTree
import CfgLib.Dataflow.Liveness

/-!
# Liveness is exact

The rows summarize each block: the equations that the solver iterates on bits are those
of the backward replay on sets, and what solves them least is what the paths read.
-/

namespace CfgLib

namespace Dataflow

open CfgLib.Lib Relation List

variable {ι ν π : Type}

/-! ## Rows as sets -/

namespace Universe

variable [DecidableEq ν] {u : Universe ν} {row row' : u.Row} {v w : ν}

theorem mem_set : v ∈ u.set row ↔ ∃ i, u.vars[i]? = some v ∧ row.getLsbD i = true := by
  simp only [set, mem_toFinset, mem_filterMap, mem_filter, mem_range]
  constructor
  · rintro ⟨i, ⟨_, hbit⟩, hi⟩
    exact ⟨i, hi, hbit⟩
  · rintro ⟨i, hi, hbit⟩
    exact ⟨i, ⟨(List.getElem?_eq_some_iff.mp hi).1, hbit⟩, hi⟩

omit [DecidableEq ν] in
theorem index_unique {i j : Nat} (hi : u.vars[i]? = some v) (hj : u.vars[j]? = some v) : i = j := by
  obtain ⟨hi, hiv⟩ := List.getElem?_eq_some_iff.mp hi
  obtain ⟨hj, hjv⟩ := List.getElem?_eq_some_iff.mp hj
  exact (u.nodup.getElem_inj_iff).mp (hiv.trans hjv.symm)

theorem mem_set_iff {k : Nat} (hk : u.vars[k]? = some v) : v ∈ u.set row ↔ row.getLsbD k = true := by
  rw [mem_set]
  constructor
  · rintro ⟨i, hi, hbit⟩
    rwa [index_unique hk hi]
  · exact fun hbit => ⟨k, hk, hbit⟩

theorem mem_vars_of_mem_set (h : v ∈ u.set row) : v ∈ u.vars := by
  obtain ⟨i, hi, _⟩ := mem_set.mp h
  exact mem_of_getElem? hi

theorem idxOf?_unique {i k : Nat} (hidx : u.vars.idxOf? v = some i) (hk : u.vars[k]? = some w) :
    i < u.vars.length ∧ (i = k ↔ w = v) := by
  obtain ⟨hlt, hi, _⟩ := idxOf?_eq_some_iff.mp hidx
  refine ⟨hlt, ?_, ?_⟩
  · rintro rfl
    rw [getElem?_eq_getElem hlt] at hk
    exact (Option.some.inj hk).symm.trans hi
  · rintro rfl
    exact index_unique (List.getElem?_eq_some_iff.mpr ⟨hlt, hi⟩) hk

theorem mem_insert (hw : w ∈ u.vars) : w ∈ u.set (u.insert row v) ↔ w ∈ u.set row ∨ w = v := by
  obtain ⟨k, hk⟩ := getElem?_of_mem hw
  unfold insert
  cases hidx : u.vars.idxOf? v with
  | none =>
    have hne : w ≠ v := fun he => idxOf?_eq_none_iff.mp hidx (he ▸ hw)
    simp [hne]
  | some i =>
    obtain ⟨hlt, hik⟩ := idxOf?_unique hidx hk
    rw [mem_set_iff hk, mem_set_iff hk, BitVec.getLsbD_or, BitVec.getLsbD_twoPow]
    simp [hlt, hik]

theorem mem_remove (hw : w ∈ u.vars) : w ∈ u.set (u.remove row v) ↔ w ∈ u.set row ∧ w ≠ v := by
  obtain ⟨k, hk⟩ := getElem?_of_mem hw
  unfold remove
  cases hidx : u.vars.idxOf? v with
  | none =>
    have hne : w ≠ v := fun he => idxOf?_eq_none_iff.mp hidx (he ▸ hw)
    simp [hne]
  | some i =>
    obtain ⟨hlt, hik⟩ := idxOf?_unique hidx hk
    have hk' := (List.getElem?_eq_some_iff.mp hk).1
    rw [mem_set_iff hk, mem_set_iff hk, BitVec.getLsbD_and, BitVec.getLsbD_not, BitVec.getLsbD_twoPow]
    simp [hlt, hk', hik]

theorem mem_or : v ∈ u.set (row ||| row') ↔ v ∈ u.set row ∨ v ∈ u.set row' := by
  simp only [mem_set, BitVec.getLsbD_or, Bool.or_eq_true, and_or_left, exists_or]

theorem mem_andNot : v ∈ u.set (row &&& ~~~row') ↔ v ∈ u.set row ∧ v ∉ u.set row' := by
  constructor
  · intro h
    obtain ⟨k, hk, hbit⟩ := mem_set.mp h
    rw [mem_set_iff hk, mem_set_iff hk]
    rw [BitVec.getLsbD_and, BitVec.getLsbD_not, Bool.and_eq_true, Bool.and_eq_true, Bool.not_eq_true'] at hbit
    refine ⟨hbit.1, ?_⟩
    rw [hbit.2.2]
    exact Bool.false_ne_true
  · rintro ⟨h, hnot⟩
    obtain ⟨k, hk, hbit⟩ := mem_set.mp h
    rw [mem_set_iff hk] at hnot ⊢
    have hlt := (List.getElem?_eq_some_iff.mp hk).1
    rw [BitVec.getLsbD_and, BitVec.getLsbD_not, hbit, Bool.eq_false_of_not_eq_true hnot, decide_eq_true hlt]
    rfl

theorem not_mem_zero : v ∉ u.set 0#u.vars.length := by
  rw [mem_set]
  simp

theorem set_injective : Function.Injective u.set := by
  intro row row' h
  refine BitVec.eq_of_getLsbD_eq fun i hi => ?_
  have hk : u.vars[i]? = some u.vars[i] := getElem?_eq_getElem hi
  have hiff : u.vars[i] ∈ u.set row ↔ u.vars[i] ∈ u.set row' := by rw [h]
  rw [mem_set_iff hk, mem_set_iff hk] at hiff
  exact Bool.eq_iff_iff.mpr hiff

theorem mem_inserts (hw : w ∈ u.vars) (vs : List ν) : ∀ {row : u.Row},
    w ∈ u.set (vs.foldl u.insert row) ↔ w ∈ u.set row ∨ w ∈ vs := by
  induction vs with
  | nil => simp
  | cons v vs ih =>
    intro row
    rw [foldl_cons, ih, mem_insert hw, mem_cons, or_assoc]

end Universe

/-! ## A block is what its rows say -/

section Summary

variable [DecidableEq ν] {I : InstrInfo ι ν} {u : Universe ν} {w : ν}

/-- Some instruction may unwind before the variable is written. -/
def ExposesUnwind (I : InstrInfo ι ν) (w : ν) : List ι → Prop
  | [] => False
  | a :: rest => I.mayUnwind a = true ∨ (w ∉ I.defs a ∧ ExposesUnwind I w rest)

theorem unwindRows_spec (hw : w ∈ u.vars) (code : List ι) : ∀ row : u.Row,
    ((unwindRows I u code row).1 = true ∧ w ∉ u.set (unwindRows I u code row).2) ↔
      w ∉ u.set row ∧ ExposesUnwind I w code := by
  induction code with
  | nil => simp [unwindRows, ExposesUnwind]
  | cons a code ih =>
    intro row
    unfold unwindRows ExposesUnwind
    by_cases ha : I.mayUnwind a = true
    · simp [ha]
    · rw [if_neg ha, ih, Universe.mem_inserts hw, not_or, and_assoc]
      simp [ha]

def readsWrites (I : InstrInfo ι ν) (u : Universe ν) (code : List ι) : u.Row × u.Row :=
  code.foldr (fun instruction rows => readWriteStep I u rows instruction) (0, 0)

theorem mem_readWriteStep (hw : w ∈ u.vars) (rows : u.Row × u.Row) (a : ι) :
    (w ∈ u.set (readWriteStep I u rows a).1 ↔ (w ∈ u.set rows.1 ∧ w ∉ I.defs a) ∨ w ∈ I.uses a) ∧
      (w ∈ u.set (readWriteStep I u rows a).2 ↔ w ∈ u.set rows.2 ∨ w ∈ I.defs a) := by
  have hdefs : ∀ (vs : List ν) (rows : u.Row × u.Row),
      (w ∈ u.set (vs.foldl (fun rows var => (u.remove rows.1 var, u.insert rows.2 var)) rows).1 ↔
        w ∈ u.set rows.1 ∧ w ∉ vs) ∧
      (w ∈ u.set (vs.foldl (fun rows var => (u.remove rows.1 var, u.insert rows.2 var)) rows).2 ↔
        w ∈ u.set rows.2 ∨ w ∈ vs) := by
    intro vs
    induction vs with
    | nil => simp
    | cons v vs ih =>
      intro rows
      obtain ⟨h₁, h₂⟩ := ih (u.remove rows.1 v, u.insert rows.2 v)
      rw [foldl_cons, h₁, h₂, Universe.mem_remove hw, Universe.mem_insert hw, mem_cons, not_or]
      exact ⟨and_assoc, or_assoc⟩
  obtain ⟨h₁, h₂⟩ := hdefs (I.defs a) rows
  refine ⟨?_, h₂⟩
  change w ∈ u.set ((I.uses a).foldl u.insert _) ↔ _
  rw [Universe.mem_inserts hw, h₁]

/-- The backward replay of code keeps what the code reads first, what it leaves alone, and
what an unwind reads before it is written. -/
theorem mem_backwardCode (hw : w ∈ u.vars) {live onUnwind : Finset ν} (code : List ι) :
    w ∈ backwardCode I onUnwind code live ↔ w ∈ u.set (readsWrites I u code).1 ∨
      (w ∈ live ∧ w ∉ u.set (readsWrites I u code).2) ∨ (w ∈ onUnwind ∧ ExposesUnwind I w code) := by
  induction code with
  | nil => simp [backwardCode, readsWrites, ExposesUnwind, Universe.not_mem_zero]
  | cons a code ih =>
    obtain ⟨h₁, h₂⟩ := mem_readWriteStep (I := I) hw (readsWrites I u code) a
    have hstep : w ∈ backwardCode I onUnwind (a :: code) live ↔
        (w ∈ backwardCode I onUnwind code live ∧ w ∉ I.defs a) ∨ w ∈ I.uses a ∨
          (I.mayUnwind a = true ∧ w ∈ onUnwind) := mem_stepBackward I
    rw [hstep, ih]
    change _ ↔ w ∈ u.set (readWriteStep I u (readsWrites I u code) a).1 ∨
      (w ∈ live ∧ w ∉ u.set (readWriteStep I u (readsWrites I u code) a).2) ∨
      (w ∈ onUnwind ∧ (I.mayUnwind a = true ∨ (w ∉ I.defs a ∧ ExposesUnwind I w code)))
    rw [h₁, h₂]
    by_cases hd : w ∈ I.defs a
    · simp only [hd, not_true_eq_false, and_false, false_and, false_or, or_true, or_false]
      rw [and_comm]
    · simp only [hd, not_false_eq_true, and_true, true_and, or_false, and_or_left]
      rw [and_comm (a := I.mayUnwind a = true)]
      simp only [or_assoc, or_left_comm, or_comm]

end Summary

/-! ## What liveness means -/

section Paths

variable {I : InstrInfo ι ν} {c : Cfg ι π} {seeds : Nat → List ν} {v : ν}

/-- The variable is read at the place, or handed on there at the end of its block. -/
def ReadAt (I : InstrInfo ι ν) (c : Cfg ι π) (seeds : Nat → List ν) (v : ν) (p : Nat × Nat) : Prop :=
  (∃ a, (c.instructions p.1)[p.2]? = some a ∧ v ∈ I.uses a) ∨
    (c.containsBlock p.1 ∧ p.2 = (c.instructions p.1).length ∧ v ∈ seeds p.1)

/-- Some path from the place reads the variable before any instruction on it defines it. -/
def LiveFrom (I : InstrInfo ι ν) (c : Cfg ι π) (seeds : Nat → List ν) (p : Nat × Nat) (v : ν) : Prop :=
  (c.dataFlow I).LeadsPast I.mayUnwind (fun _ a => v ∈ I.defs a) (ReadAt I c seeds v) p

variable {n : Nat}

theorem liveFrom_at_iff (hc : c.WF) {i : Nat} {a : ι} (hn : c.containsBlock n)
    (ha : (c.instructions n)[i]? = some a) : LiveFrom I c seeds (n, i) v ↔ v ∈ I.uses a ∨
      (v ∉ I.defs a ∧ LiveFrom I c seeds (n, i + 1) v) ∨ (I.mayUnwind a = true ∧ ∃ e ∈ c.outgoing n,
        departsBeforeThrows I c (c.edgeView.edge e) = true ∧
          LiveFrom I c seeds ((c.edgeView.edge e).target, 0) v) := by
  have hread : ReadAt I c seeds v (n, i) ↔ v ∈ I.uses a := by
    constructor
    · rintro (⟨a', ha', hv⟩ | ⟨_, hi, _⟩)
      · cases ha.symm.trans ha'
        exact hv
      · exact absurd (List.getElem?_eq_some_iff.mp ha).1 (Nat.not_lt.mpr (Nat.le_of_eq (Eq.symm hi)))
    · exact fun hv => Or.inl ⟨a, ha, hv⟩
  unfold LiveFrom
  rw [Flow.leadsPast_at_iff (Cfg.exists_code hn) ha, hread, exists_unwind_iff hc]

theorem liveFrom_end_iff (hc : c.WF) (hn : c.containsBlock n) :
    LiveFrom I c seeds (n, (c.instructions n).length) v ↔ v ∈ seeds n ∨ ∃ e ∈ c.outgoing n,
      departsBeforeThrows I c (c.edgeView.edge e) = false ∧
        LiveFrom I c seeds ((c.edgeView.edge e).target, 0) v := by
  have hread : ReadAt I c seeds v (n, (c.instructions n).length) ↔ v ∈ seeds n := by
    constructor
    · rintro (⟨a, ha, _⟩ | ⟨_, _, hv⟩)
      · exact absurd (List.getElem?_eq_some_iff.mp ha).1 (Nat.lt_irrefl _)
      · exact hv
    · exact fun hv => Or.inr ⟨hn, rfl, hv⟩
  unfold LiveFrom
  rw [Flow.leadsPast_end_iff (Cfg.exists_code hn), hread, exists_normal_iff hc]

theorem containsBlock_of_liveFrom {i : Nat} (h : LiveFrom I c seeds (n, i) v) : c.containsBlock n := by
  by_contra hn
  have hnone : (c.dataFlow I).code n = none := by
    cases hb : c.block n with
    | none => simp [Cfg.dataFlow, hb]
    | some block => exact absurd (by simp [Cfg.containsBlock, hb]) hn
  rcases (Flow.leadsPast_none hnone).mp h with ⟨a, ha, _⟩ | ⟨hlive, _⟩
  · exact hn (Cfg.containsBlock_of_getElem? ha)
  · exact hn hlive

end Paths

/-! ## Sets that follow the paths -/

section Replay

variable [DecidableEq ν] {I : InstrInfo ι ν} {c : Cfg ι π} {seeds : Nat → List ν} {v : ν}

theorem mem_unionAlong {edges : List Nat} {sets : Nat → Finset ν} :
    v ∈ unionAlong c edges sets ↔ ∃ e ∈ edges, v ∈ sets (c.edgeView.edge e).target := by
  have hfold : ∀ (edges : List Nat) (live : Finset ν),
      v ∈ edges.foldl (fun live e => live ∪ sets (c.edgeView.edge e).target) live ↔
        v ∈ live ∨ ∃ e ∈ edges, v ∈ sets (c.edgeView.edge e).target := by
    intro edges
    induction edges with
    | nil => simp
    | cons e edges ih =>
      intro live
      rw [foldl_cons, ih, Finset.mem_union, exists_mem_cons_iff, or_assoc]
  rw [unionAlong, hfold]
  simp

theorem backwardCode_drop {onUnwind live : Finset ν} {code : List ι} {i : Nat} {a : ι} (ha : code[i]? = some a) :
    backwardCode I onUnwind (code.drop i) live =
      stepBackward I (backwardCode I onUnwind (code.drop (i + 1)) live) a onUnwind := by
  obtain ⟨hlt, rfl⟩ := List.getElem?_eq_some_iff.mp ha
  rw [drop_eq_getElem_cons hlt]
  rfl

/-- Inside a block the backward replay follows the paths, from sets that do so at its end
and on an unwind. -/
theorem mem_backwardCode_liveFrom (hc : c.WF) {n : Nat} (hn : c.containsBlock n) {live onUnwind : Finset ν}
    (hlive : v ∈ live ↔ LiveFrom I c seeds (n, (c.instructions n).length) v)
    (hunwind : v ∈ onUnwind ↔ ∃ e ∈ c.outgoing n, departsBeforeThrows I c (c.edgeView.edge e) = true ∧
      LiveFrom I c seeds ((c.edgeView.edge e).target, 0) v) {i : Nat} (hi : i ≤ (c.instructions n).length) :
    v ∈ backwardCode I onUnwind ((c.instructions n).drop i) live ↔ LiveFrom I c seeds (n, i) v := by
  induction hi using Nat.decreasingInduction with
  | self =>
    rw [drop_length]
    exact hlive
  | of_succ i hlt ih =>
    have ha : (c.instructions n)[i]? = some (c.instructions n)[i] := getElem?_eq_getElem hlt
    rw [backwardCode_drop ha, mem_stepBackward, ih, hunwind, liveFrom_at_iff hc hn ha, and_comm, or_left_comm]

/-- What a path reads is in every family of sets that the transfers keep. -/
theorem mem_of_liveFrom (hc : c.WF) (x out onUnwind : Nat → Finset ν)
    (hx : ∀ n, c.containsBlock n → backwardCode I (onUnwind n) (c.instructions n) (out n) ⊆ x n)
    (hseed : ∀ n, c.containsBlock n → ∀ w ∈ seeds n, w ∈ out n)
    (hnormal : ∀ n, ∀ e ∈ c.outgoing n, departsBeforeThrows I c (c.edgeView.edge e) = false →
      x (c.edgeView.edge e).target ⊆ out n)
    (hunwind : ∀ n, ∀ e ∈ c.outgoing n, departsBeforeThrows I c (c.edgeView.edge e) = true →
      x (c.edgeView.edge e).target ⊆ onUnwind n) {p : Nat × Nat} (h : LiveFrom I c seeds p v) :
    v ∈ backwardCode I (onUnwind p.1) ((c.instructions p.1).drop p.2) (out p.1) := by
  obtain ⟨q, hpath, hread⟩ := h
  have hstart : ∀ n, c.containsBlock n →
      v ∈ backwardCode I (onUnwind n) ((c.instructions n).drop 0) (out n) → v ∈ x n := by
    intro n hn hv
    rw [drop_zero] at hv
    exact hx n hn hv
  induction hpath using ReflTransGen.head_induction_on with
  | refl =>
    rcases hread with ⟨a, ha, hv⟩ | ⟨hn, hi, hv⟩
    · rw [backwardCode_drop ha, mem_stepBackward]
      exact Or.inr (Or.inl hv)
    · rw [hi, drop_length]
      exact hseed _ hn v hv
  | @head p r hs hpath ih =>
    have hr : c.containsBlock r.1 := containsBlock_of_liveFrom (⟨q, hpath, hread⟩ : LiveFrom I c seeds r v)
    obtain ⟨n, i⟩ := p
    obtain ⟨o, hs, hbar⟩ := hs
    cases hs with
    | exec hcode ha =>
      obtain ⟨_, rfl⟩ := Cfg.instructions_of_code hcode
      rw [backwardCode_drop ha, mem_stepBackward]
      exact Or.inl ⟨ih, hbar _ rfl⟩
    | leave hcode hn =>
      obtain ⟨_, rfl⟩ := Cfg.instructions_of_code hcode
      obtain ⟨e, he, hdeparts, hv⟩ := (exists_normal_iff (P := fun t => v ∈ x t) hc).mp ⟨_, hn, hstart _ hr ih⟩
      rw [drop_length]
      exact hnormal n e he hdeparts hv
    | raise hcode ha hthrow hu =>
      obtain ⟨_, rfl⟩ := Cfg.instructions_of_code hcode
      obtain ⟨e, he, hdeparts, hv⟩ := (exists_unwind_iff (P := fun t => v ∈ x t) hc).mp ⟨_, hu, hstart _ hr ih⟩
      rw [backwardCode_drop ha, mem_stepBackward]
      exact Or.inr (Or.inr ⟨hthrow, hunwind n e he hdeparts hv⟩)

end Replay

/-! ## The equations -/

section Equations

variable [DecidableEq ν] {I : InstrInfo ι ν} {c : Cfg ι π} {seeds : Nat → List ν} {w : ν}

def normalOut (I : InstrInfo ι ν) (c : Cfg ι π) (x : Nat → Finset ν) (block : Nat) : Finset ν :=
  unionAlong c ((c.outgoing block).filter fun e => !departsBeforeThrows I c (c.edgeView.edge e)) x

def unwindOut (I : InstrInfo ι ν) (c : Cfg ι π) (x : Nat → Finset ν) (block : Nat) : Finset ν :=
  unionAlong c ((c.outgoing block).filter fun e => departsBeforeThrows I c (c.edgeView.edge e)) x

def livenessSystem (I : InstrInfo ι ν) (c : Cfg ι π) (seeds : Nat → List ν) : System Nat (Finset ν) (Finset ν) where
  slots n := [n]
  readers n := c.predecessors n
  record n x := normalOut I c x n
  value n x _ := backwardCode I (unwindOut I c x n) (c.instructions n) (normalOut I c x n ∪ (seeds n).toFinset)

variable {n : Nat} {x : Nat → Finset ν}

theorem mem_normalOut : w ∈ normalOut I c x n ↔ ∃ e ∈ c.outgoing n,
    departsBeforeThrows I c (c.edgeView.edge e) = false ∧ w ∈ x (c.edgeView.edge e).target := by
  simp only [normalOut, mem_unionAlong, mem_filter, Bool.not_eq_true', and_assoc]

theorem mem_unwindOut : w ∈ unwindOut I c x n ↔ ∃ e ∈ c.outgoing n,
    departsBeforeThrows I c (c.edgeView.edge e) = true ∧ w ∈ x (c.edgeView.edge e).target := by
  simp only [unwindOut, mem_unionAlong, mem_filter, and_assoc]

theorem backwardCode_mono {onUnwind onUnwind' live live' : Finset ν} (hu : onUnwind ⊆ onUnwind')
    (hl : live ⊆ live') (code : List ι) : backwardCode I onUnwind code live ⊆ backwardCode I onUnwind' code live' := by
  induction code with
  | nil => exact hl
  | cons a code ih =>
    intro v hv
    refine (mem_stepBackward I).mpr (((mem_stepBackward I).mp hv).imp (fun h => ⟨ih h.1, h.2⟩) ?_)
    exact Or.imp_right fun h => ⟨h.1, hu h.2⟩

theorem mem_of_mem_backwardCode {onUnwind live : Finset ν} {code : List ι}
    (h : w ∈ backwardCode I onUnwind code live) : w ∈ live ∨ w ∈ onUnwind ∨ ∃ a ∈ code, w ∈ I.uses a := by
  induction code with
  | nil => exact Or.inl h
  | cons a code ih =>
    rcases (mem_stepBackward I).mp h with ⟨h, _⟩ | h | ⟨_, h⟩
    · refine (ih h).imp_right (Or.imp_right ?_)
      rintro ⟨b, hb, hw⟩
      exact ⟨b, mem_cons_of_mem a hb, hw⟩
    · exact Or.inr (Or.inr ⟨a, mem_cons_self, h⟩)
    · exact Or.inr (Or.inl h)

theorem edge_source_target (hc : c.WF) {e : Nat} (he : e ∈ c.outgoing n) :
    (c.edgeView.edge e).source = n ∧ n ∈ c.predecessors (c.edgeView.edge e).target ∧
      e ∈ c.edgeView.edgeIds ∧ c.containsBlock n ∧ c.containsBlock (c.edgeView.edge e).target := by
  obtain ⟨r, hr, hs⟩ := hc.mem_outgoing.mp he
  rw [Cfg.edge_edgeView hr]
  exact ⟨hs, hc.mem_predecessors.mpr ⟨e, r, hr, rfl, hs⟩, Cfg.mem_edgeIds.mpr (by rw [hr]; rfl),
    hs ▸ hc.source_live hr, hc.target_live hr⟩

theorem normalOut_congr (hc : c.WF) {y : Nat → Finset ν} (h : ∀ k, n ∈ c.predecessors k → x k = y k) :
    normalOut I c x n = normalOut I c y n ∧ unwindOut I c x n = unwindOut I c y n := by
  have hedge : ∀ e ∈ c.outgoing n, x (c.edgeView.edge e).target = y (c.edgeView.edge e).target :=
    fun e he => h _ (edge_source_target hc he).2.1
  constructor
  · ext v
    rw [mem_normalOut, mem_normalOut]
    exact exists_congr fun e => and_congr_right fun he => by rw [hedge e he]
  · ext v
    rw [mem_unwindOut, mem_unwindOut]
    exact exists_congr fun e => and_congr_right fun he => by rw [hedge e he]

theorem lawful_livenessSystem (hc : c.WF) : (livenessSystem I c seeds).Lawful (· ∈ c.blockIds) where
  owner n m k _ _ hn hm := (mem_singleton.mp hn).symm.trans (mem_singleton.mp hm)
  readers_dom n k m _ hk hm := by
    rw [mem_singleton.mp hk] at hm
    obtain ⟨e, r, hr, _, rfl⟩ := hc.mem_predecessors.mp hm
    exact Cfg.mem_blockIds.mpr (hc.source_live hr)
  record_local n x y _ h := (normalOut_congr hc h).1
  value_local n x y _ h := by
    funext k
    change backwardCode I (unwindOut I c x n) _ (normalOut I c x n ∪ _) =
      backwardCode I (unwindOut I c y n) _ (normalOut I c y n ∪ _)
    rw [(normalOut_congr hc h).1, (normalOut_congr hc h).2]
  value_mono n x y k _ _ h := by
    refine backwardCode_mono (fun v hv => ?_) (Finset.union_subset_union_left fun v hv => ?_) _
    · obtain ⟨e, he, hdeparts, hv⟩ := mem_unwindOut.mp hv
      exact mem_unwindOut.mpr ⟨e, he, hdeparts, h _ hv⟩
    · obtain ⟨e, he, hdeparts, hv⟩ := mem_normalOut.mp hv
      exact mem_normalOut.mpr ⟨e, he, hdeparts, h _ hv⟩

/-! ### What is live solves them -/

def readVariables (I : InstrInfo ι ν) (c : Cfg ι π) (seeds : Nat → List ν) : Finset ν :=
  (c.blockIds.flatMap fun block => seeds block ++ (c.instructions block).flatMap I.uses).toFinset

theorem mem_readVariables {p : Nat × Nat} (h : LiveFrom I c seeds p w) : w ∈ readVariables I c seeds := by
  obtain ⟨q, _, hread⟩ := h
  simp only [readVariables, mem_toFinset, mem_flatMap, mem_append]
  rcases hread with ⟨a, ha, hw⟩ | ⟨hn, _, hw⟩
  · exact ⟨q.1, Cfg.mem_blockIds.mpr (Cfg.containsBlock_of_getElem? ha), Or.inr ⟨a, mem_of_getElem? ha, hw⟩⟩
  · exact ⟨q.1, Cfg.mem_blockIds.mpr hn, Or.inl hw⟩

noncomputable def liveSet (I : InstrInfo ι ν) (c : Cfg ι π) (seeds : Nat → List ν) (n : Nat) : Finset ν :=
  @Finset.filter _ (LiveFrom I c seeds (n, 0)) (Classical.decPred _) (readVariables I c seeds)

theorem mem_liveSet : w ∈ liveSet I c seeds n ↔ LiveFrom I c seeds (n, 0) w := by
  refine (@Finset.mem_filter _ _ (Classical.decPred _) _ _).trans ?_
  rw [and_iff_right_iff_imp]
  exact mem_readVariables

theorem isSolution_liveSet (hc : c.WF) :
    (livenessSystem I c seeds).IsSolution (· ∈ c.blockIds) (liveSet I c seeds) where
  equation n hn k hk := by
    rw [mem_singleton.mp hk]
    have hlive : c.containsBlock n := by
      rcases hn with hn | ⟨k, _, hn⟩
      · exact Cfg.mem_blockIds.mp hn
      · obtain ⟨e, r, hr, _, rfl⟩ := hc.mem_predecessors.mp hn
        exact hc.source_live hr
    ext v
    rw [mem_liveSet]
    refine (mem_backwardCode_liveFrom hc hlive (i := 0) ?_ ?_ (Nat.zero_le _)).symm
    · rw [Finset.mem_union, mem_normalOut, mem_toFinset, liveFrom_end_iff hc hlive, or_comm]
      simp only [mem_liveSet]
    · rw [mem_unwindOut]
      simp only [mem_liveSet]
  rest k hk := by
    refine Finset.eq_empty_of_forall_notMem fun v hv => ?_
    have hlive := containsBlock_of_liveFrom (mem_liveSet.mp hv)
    exact hk k (Or.inl (Cfg.mem_blockIds.mpr hlive)) (mem_singleton.mpr rfl)

end Equations

/-! ## The solver runs the equations -/

section Run

variable [DecidableEq ν] {I : InstrInfo ι ν} {c : Cfg ι π} {u : Universe ν} {seeds : Nat → List ν} {w : ν}

theorem unwindRows_fst (code : List ι) : ∀ row : u.Row, (unwindRows I u code row).1 = code.any I.mayUnwind := by
  induction code with
  | nil => exact fun _ => rfl
  | cons a code ih =>
    intro row
    unfold unwindRows
    by_cases ha : I.mayUnwind a = true
    · simp [ha]
    · rw [if_neg ha, ih]
      simp [ha]

variable {n : Nat}

theorem unwinding_iff (hc : c.WF) {e : Nat} (he : e ∈ c.outgoing n) :
    (hasUnwindEdge c && (BlockRows.of I c u seeds (hasUnwindEdge c) n).unwinding &&
      (c.edgeView.edge e).data == .exceptionUnwind) = departsBeforeThrows I c (c.edgeView.edge e) := by
  obtain ⟨hsource, _, hedge, _, _⟩ := edge_source_target hc he
  unfold departsBeforeThrows
  cases hkind : (c.edgeView.edge e).data == EdgeKind.exceptionUnwind with
  | false => simp
  | true =>
    have hhas : hasUnwindEdge c = true := any_eq_true.mpr ⟨e, hedge, hkind⟩
    have hrows : (BlockRows.of I c u seeds true n).unwinding = (unwindRows I u (c.instructions n) 0).1 := rfl
    rw [hhas, hrows, unwindRows_fst, hsource]
    simp

theorem mem_splitFold (taken : Nat → Bool) (sets : Nat → u.Row) (es : List Nat) : ∀ rows : u.Row × u.Row,
    (w ∈ u.set (es.foldl (fun (out, unwindOut) e => if taken e then (out, unwindOut ||| sets e)
        else (out ||| sets e, unwindOut)) rows).1 ↔
      w ∈ u.set rows.1 ∨ ∃ e ∈ es, taken e = false ∧ w ∈ u.set (sets e)) ∧
    (w ∈ u.set (es.foldl (fun (out, unwindOut) e => if taken e then (out, unwindOut ||| sets e)
        else (out ||| sets e, unwindOut)) rows).2 ↔
      w ∈ u.set rows.2 ∨ ∃ e ∈ es, taken e = true ∧ w ∈ u.set (sets e)) := by
  induction es with
  | nil => simp
  | cons e es ih =>
    rintro ⟨out, unwindOut⟩
    rw [foldl_cons]
    by_cases he : taken e = true
    · obtain ⟨h₁, h₂⟩ := ih (out, unwindOut ||| sets e)
      simp only [he, if_true]
      rw [h₁, h₂, Universe.mem_or, exists_mem_cons_iff, exists_mem_cons_iff, or_assoc]
      simp [he]
    · obtain ⟨h₁, h₂⟩ := ih (out ||| sets e, unwindOut)
      simp only [he, Bool.false_eq_true, if_false]
      rw [h₁, h₂, Universe.mem_or, exists_mem_cons_iff, exists_mem_cons_iff, or_assoc]
      simp [he]

theorem mem_flowingFrom (hc : c.WF) (seeds : Nat → List ν) (liveIn : Nat → u.Row) :
    (w ∈ u.set (flowingFrom c u (hasUnwindEdge c) (BlockRows.of I c u seeds (hasUnwindEdge c) n) liveIn n).1 ↔
      w ∈ normalOut I c (fun b => u.set (liveIn b)) n) ∧
    (w ∈ u.set (flowingFrom c u (hasUnwindEdge c) (BlockRows.of I c u seeds (hasUnwindEdge c) n) liveIn n).2 ↔
      w ∈ unwindOut I c (fun b => u.set (liveIn b)) n) := by
  obtain ⟨h₁, h₂⟩ := mem_splitFold (w := w) (fun e => hasUnwindEdge c &&
    (BlockRows.of I c u seeds (hasUnwindEdge c) n).unwinding && (c.edgeView.edge e).data == .exceptionUnwind)
    (fun e => liveIn (c.edgeView.edge e).target) (c.outgoing n) (0, 0)
  constructor
  · refine (h₁.trans (or_iff_right Universe.not_mem_zero)).trans ?_
    rw [mem_normalOut]
    exact exists_congr fun e => and_congr_right fun he => by rw [unwinding_iff hc he]
  · refine (h₂.trans (or_iff_right Universe.not_mem_zero)).trans ?_
    rw [mem_unwindOut]
    exact exists_congr fun e => and_congr_right fun he => by rw [unwinding_iff hc he]

theorem mem_seeded (hw : w ∈ u.vars) (n : Nat) :
    w ∈ u.set (BlockRows.of I c u seeds (hasUnwindEdge c) n).seeded ↔ w ∈ seeds n := by
  exact (Universe.mem_inserts hw _).trans (or_iff_right Universe.not_mem_zero)

theorem mem_nextRow (hw : w ∈ u.vars) {out unwindOut : u.Row}
    (hunwind : w ∈ u.set unwindOut → hasUnwindEdge c = true ∧ (c.instructions n).any I.mayUnwind = true) :
    w ∈ u.set (nextRow (hasUnwindEdge c) (BlockRows.of I c u seeds (hasUnwindEdge c) n) out unwindOut) ↔
      w ∈ backwardCode I (u.set unwindOut) (c.instructions n) (u.set out ∪ (seeds n).toFinset) := by
  have hreads : (BlockRows.of I c u seeds (hasUnwindEdge c) n).reads = (readsWrites I u (c.instructions n)).1 ∧
      (BlockRows.of I c u seeds (hasUnwindEdge c) n).writes = (readsWrites I u (c.instructions n)).2 := by
    constructor
    · exact congrArg Prod.fst foldl_reverse
    · exact congrArg Prod.snd foldl_reverse
  have hnormal : w ∈ u.set (((out ||| (BlockRows.of I c u seeds (hasUnwindEdge c) n).seeded) &&&
      ~~~(BlockRows.of I c u seeds (hasUnwindEdge c) n).writes) |||
        (BlockRows.of I c u seeds (hasUnwindEdge c) n).reads) ↔
      w ∈ u.set (readsWrites I u (c.instructions n)).1 ∨ (w ∈ u.set out ∪ (seeds n).toFinset ∧
        w ∉ u.set (readsWrites I u (c.instructions n)).2) := by
    rw [Universe.mem_or, Universe.mem_andNot, Universe.mem_or, mem_seeded hw, hreads.1, hreads.2, Finset.mem_union,
      mem_toFinset, or_comm]
  rw [mem_backwardCode hw]
  unfold nextRow
  cases hhas : hasUnwindEdge c with
  | false =>
    have hno : w ∉ u.set unwindOut := fun h => by
      rw [(hunwind h).1] at hhas
      cases hhas
    rw [hhas] at hnormal
    simp only [Bool.false_eq_true, if_false]
    rw [hnormal]
    simp [hno]
  | true =>
    rw [hhas] at hnormal
    have hbefore : (BlockRows.of I c u seeds true n).beforeUnwind = (unwindRows I u (c.instructions n) 0).2 := rfl
    have hspec := (unwindRows_spec (I := I) hw (c.instructions n) 0).trans (and_iff_right Universe.not_mem_zero)
    rw [unwindRows_fst] at hspec
    simp only [if_true]
    rw [Universe.mem_or, Universe.mem_andNot, hnormal, hbefore, or_assoc, ← hspec]
    refine or_congr_right (or_congr_right (and_congr_right fun h => ?_))
    exact (and_iff_right (hunwind h).2).symm

/-- The universe holds what the graph reads and what the seeds name. -/
def Universe.Covers (u : Universe ν) (I : InstrInfo ι ν) (c : Cfg ι π) (seeds : Nat → List ν) : Prop :=
  ∀ n, c.containsBlock n → (∀ v ∈ seeds n, v ∈ u.vars) ∧ ∀ a ∈ c.instructions n, ∀ v ∈ I.uses a, v ∈ u.vars

theorem set_nextRow (hc : c.WF) (hu : u.Covers I c seeds) (hn : c.containsBlock n) (liveIn : Nat → u.Row)
    {out unwindOut : u.Row} (hflow : flowingFrom c u (hasUnwindEdge c)
      (BlockRows.of I c u seeds (hasUnwindEdge c) n) liveIn n = (out, unwindOut)) :
    u.set out = (livenessSystem I c seeds).record n (fun b => u.set (liveIn b)) ∧
      u.set (nextRow (hasUnwindEdge c) (BlockRows.of I c u seeds (hasUnwindEdge c) n) out unwindOut) =
        (livenessSystem I c seeds).value n (fun b => u.set (liveIn b)) n := by
  have hout : u.set out = normalOut I c (fun b => u.set (liveIn b)) n := by
    ext v
    have := (mem_flowingFrom (I := I) (w := v) hc seeds (n := n) liveIn).1
    rwa [hflow] at this
  have hunwindOut : u.set unwindOut = CfgLib.Dataflow.unwindOut I c (fun b => u.set (liveIn b)) n := by
    ext v
    have := (mem_flowingFrom (I := I) (w := v) hc seeds (n := n) liveIn).2
    rwa [hflow] at this
  refine ⟨hout, ?_⟩
  change _ = backwardCode I (CfgLib.Dataflow.unwindOut I c (fun b => u.set (liveIn b)) n) (c.instructions n)
    (normalOut I c (fun b => u.set (liveIn b)) n ∪ (seeds n).toFinset)
  rw [← hout, ← hunwindOut]
  ext v
  by_cases hv : v ∈ u.vars
  · refine mem_nextRow hv fun h => ?_
    rw [hunwindOut] at h
    obtain ⟨e, he, hdeparts, _⟩ := mem_unwindOut.mp h
    obtain ⟨hsource, _, hedge, _, _⟩ := edge_source_target hc he
    rw [departsBeforeThrows, Bool.and_eq_true, hsource] at hdeparts
    exact ⟨any_eq_true.mpr ⟨e, hedge, hdeparts.1⟩, hdeparts.2⟩
  · constructor
    · intro h
      exact absurd (Universe.mem_vars_of_mem_set h) hv
    · intro h
      rcases mem_of_mem_backwardCode h with h | h | ⟨a, ha, h⟩
      · rcases Finset.mem_union.mp h with h | h
        · exact absurd (Universe.mem_vars_of_mem_set h) hv
        · exact absurd ((hu n hn).1 v (mem_toFinset.mp h)) hv
      · exact absurd (Universe.mem_vars_of_mem_set h) hv
      · exact absurd ((hu n hn).2 a ha v h) hv

def LivenessState.abstract (s : LivenessState u) : SystemState Nat (Finset ν) (Finset ν) :=
  ⟨fun n => u.set (s.liveIn n), fun n => u.set (s.flowingOut n), fun n => n ∈ s.worklist.items⟩

theorem visit_of_livenessStep (hc : c.WF) (hu : u.Covers I c seeds) {s s' : LivenessState u} (hw : s.worklist.WF)
    (hlive : ∀ n ∈ s.worklist.items, c.containsBlock n)
    (hstep : livenessStep c u (hasUnwindEdge c) (BlockRows.of I c u seeds (hasUnwindEdge c)) s = some s') :
    ∃ n, c.containsBlock n ∧ s'.worklist.WF ∧ (livenessSystem I c seeds).Visit n s.abstract s'.abstract ∧
      ((∀ k, s'.abstract.values k = s.abstract.values k) → s'.worklist.items.length < s.worklist.items.length) := by
  obtain ⟨⟨n, rest⟩, hpop, hs'⟩ := Option.map_eq_some_iff.mp hstep
  obtain ⟨hwf, hmem, hlength, hiff⟩ := hw.pop hpop
  have hn := hlive n hmem
  dsimp only at hs'
  generalize hflow : flowingFrom c u (hasUnwindEdge c) (BlockRows.of I c u seeds (hasUnwindEdge c) n) s.liveIn n =
    flow at hs'
  obtain ⟨out, unwindOut⟩ := flow
  obtain ⟨hrecord, hvalue⟩ := set_nextRow hc hu hn s.liveIn hflow
  dsimp only at hs'
  generalize hnext : nextRow (hasUnwindEdge c) (BlockRows.of I c u seeds (hasUnwindEdge c) n) out unwindOut = next at hs' hvalue
  have hrecords : ∀ m, u.set (Function.update s.flowingOut n out m) =
      if m = n then (livenessSystem I c seeds).record n (fun b => u.set (s.liveIn b)) else u.set (s.flowingOut m) := by
    intro m
    by_cases hm : m = n
    · subst hm
      simp [hrecord]
    · simp [hm]
  by_cases hchange : next ≠ s.liveIn n
  · rw [if_pos hchange] at hs'
    subst hs'
    obtain ⟨hwf', hiff'⟩ := Stack.WF.pushAll (c.predecessors n) hwf
    have hvalues : ∀ m, u.set (Function.update s.liveIn n next m) =
        if m = n then (livenessSystem I c seeds).value n (fun b => u.set (s.liveIn b)) n else u.set (s.liveIn m) := by
      intro m
      by_cases hm : m = n
      · subst hm
        simp [hvalue]
      · simp [hm]
    have hne : u.set (Function.update s.liveIn n next n) ≠ u.set (s.liveIn n) := by
      rw [Function.update_self]
      exact fun he => hchange (Universe.set_injective he)
    refine ⟨n, hn, hwf', ⟨hmem, ?_, ?_, ?_, ?_, ?_⟩, fun hsame => absurd (hsame n) hne⟩
    · intro k hk
      rw [mem_singleton.mp hk]
      exact (hvalues n).trans (if_pos rfl)
    · intro k hk
      exact (hvalues k).trans (if_neg fun he => hk (mem_singleton.mpr he))
    · exact (hrecords n).trans (if_pos rfl)
    · intro m hm
      exact (hrecords m).trans (if_neg hm)
    · intro m
      refine (hiff' m).trans (or_congr (hiff m) ⟨fun hm => ?_, ?_⟩)
      · exact ⟨n, mem_singleton.mpr rfl, hne, hm⟩
      · rintro ⟨k, hk, _, hm⟩
        rw [mem_singleton.mp hk] at hm
        exact hm
  · rw [if_neg hchange] at hs'
    subst hs'
    have hsame : u.set (s.liveIn n) = (livenessSystem I c seeds).value n (fun b => u.set (s.liveIn b)) n := by
      rw [← hvalue, not_not.mp hchange]
    refine ⟨n, hn, hwf, ⟨hmem, ?_, fun _ _ => rfl, ?_, ?_, ?_⟩, fun _ => hlength⟩
    · intro k hk
      rw [mem_singleton.mp hk]
      exact hsame
    · exact (hrecords n).trans (if_pos rfl)
    · intro m hm
      exact (hrecords m).trans (if_neg hm)
    · intro m
      refine (hiff m).trans ⟨Or.inl, ?_⟩
      rintro (hm | ⟨k, _, hne, _⟩)
      · exact hm
      · exact absurd rfl hne

theorem iterate_livenessStep (hc : c.WF) (hu : u.Covers I c seeds) : ∃ N, ∃ s : LivenessState u,
    (∀ fuel, N ≤ fuel → iterate (livenessStep c u (hasUnwindEdge c) (BlockRows.of I c u seeds (hasUnwindEdge c))) fuel
      ⟨fun _ => 0, fun _ => 0, .ofList c.blockIds, 0⟩ = s) ∧ s.worklist.items = [] ∧
      (∀ n, u.set (s.liveIn n) = liveSet I c seeds n) ∧
      ∀ n, c.containsBlock n → u.set (s.flowingOut n) = normalOut I c (liveSet I c seeds) n := by
  have hS : (livenessSystem I c seeds).Lawful _ := lawful_livenessSystem hc
  have hsolution : (livenessSystem I c seeds).IsSolution _ _ := isSolution_liveSet hc
  obtain ⟨τ, rel, μ, hwf, hrise⟩ := System.ascending_of_bound (List.range c.blockBound) hsolution.isBound fun n =>
    ((liveSet I c seeds n).powerset.finite_toSet).subset fun t ht => Finset.mem_coe.mpr (Finset.mem_powerset.mpr ht)
  have hzero : u.set (0 : u.Row) = ∅ := Finset.eq_empty_of_forall_notMem fun _ => Universe.not_mem_zero
  obtain ⟨N, s, hrun, ⟨_, visited, hprogress⟩, hdone⟩ := iterate_terminates
    (I := fun s : LivenessState u => s.worklist.WF ∧ ∃ visited,
      (livenessSystem I c seeds).Progress (· ∈ c.blockIds) (· ∈ c.blockIds) ∅ visited s.abstract)
    (WellFounded.prod_lex hwf Nat.lt_wfRel.wf)
    (μ := fun s => (μ s.abstract.values, s.worklist.items.length))
    (by
      intro s s' ⟨hw, visited, hprogress⟩
        (hstep : livenessStep c u (hasUnwindEdge c) (BlockRows.of I c u seeds (hasUnwindEdge c)) s = some s')
      have hlive : ∀ n ∈ s.worklist.items, c.containsBlock n := fun n hn =>
        Cfg.mem_blockIds.mp (hprogress.dom_of_started n (Or.inr hn))
      obtain ⟨n, hn, hw', hvisit, hsize⟩ := visit_of_livenessStep hc hu hw hlive hstep
      refine ⟨⟨hw', _, hprogress.visit hS hvisit⟩, hprogress.descends hS hvisit (fun k hk => ?_) hrise hsize⟩
      rw [mem_singleton.mp hk]
      exact mem_range.mpr (Cfg.block_lt hn))
    (s := ⟨fun _ => 0, fun _ => 0, .ofList c.blockIds, 0⟩)
    ⟨Stack.wf_ofList hc.lawful_view.nodeIds_nodup, _, System.progress_init (fun _ h => h) (fun _ => hzero) (fun _ => hzero)
      fun n => mem_reverse⟩
  have hitems : s.worklist.items = [] := Stack.pop_eq_none.mp (Option.map_eq_none_iff.mp hdone)
  have hleast := hprogress.isLeastSolution fun n hn => by
    have hn : n ∈ s.worklist.items := hn
    rw [hitems] at hn
    cases hn
  have heq : ∀ n, u.set (s.liveIn n) = liveSet I c seeds n := by
    intro n
    refine le_antisymm (hleast.least _ hsolution n) fun v hv => ?_
    have hn := containsBlock_of_liveFrom (mem_liveSet.mp hv)
    have hequation : ∀ m, c.containsBlock m → u.set (s.liveIn m) = (livenessSystem I c seeds).value m
        (fun b => u.set (s.liveIn b)) m := fun m hm =>
      hleast.solution.equation m (Or.inl (Cfg.mem_blockIds.mpr hm)) m (mem_singleton.mpr rfl)
    rw [hequation n hn]
    refine mem_of_liveFrom hc (fun m => u.set (s.liveIn m)) _ _ (fun m hm => (hequation m hm).symm.subset)
      (fun m _ w hw => Finset.mem_union_right _ (mem_toFinset.mpr hw))
      (fun m e he hdeparts w hw => Finset.mem_union_left _ (mem_normalOut.mpr ⟨e, he, hdeparts, hw⟩))
      (fun m e he hdeparts w hw => mem_unwindOut.mpr ⟨e, he, hdeparts, hw⟩) (mem_liveSet.mp hv)
  refine ⟨N, s, hrun, hitems, heq, fun n hn => ?_⟩
  have hrecord := hleast.record n (Or.inl (Cfg.mem_blockIds.mpr hn))
  change u.set (s.flowingOut n) = normalOut I c (fun b => u.set (s.liveIn b)) n at hrecord
  rw [hrecord, funext heq]

end Run

/-! ## What the queries say -/

section Queries

variable [LinearOrder ν] {I : InstrInfo ι ν} {c : Cfg ι π} {seeds : Nat → List ν} {facts : Facts (Finset ν)}

theorem covers_of (I : InstrInfo ι ν) (c : Cfg ι π) (seeds : Nat → List ν) : (Universe.of I c seeds).Covers I c seeds := by
  intro n hn
  have hn := Cfg.mem_blockIds.mpr hn
  simp only [Universe.of, mem_dedup, mem_insertionSort, mem_append, mem_flatMap]
  exact ⟨fun v hv => Or.inl ⟨n, hn, hv⟩, fun a ha v hv => Or.inr ⟨n, hn, a, ha, Or.inl hv⟩⟩

structure FollowsPaths (I : InstrInfo ι ν) (c : Cfg ι π) (seeds : Nat → List ν) (facts : Facts (Finset ν)) : Prop where
  mem_input : ∀ n v, v ∈ facts.input n ↔ LiveFrom I c seeds (n, 0) v
  mem_output : ∀ n, c.containsBlock n → ∀ v,
    v ∈ facts.output n ↔ LiveFrom I c seeds (n, (c.instructions n).length) v

theorem Liveness.computeWithExits_spec (hc : c.WF) (seeds : Nat → List ν) : ∃ facts : Facts (Finset ν),
    (∃ N, ∀ fuel, N ≤ fuel → Liveness.computeWithExits I c seeds fuel = some facts) ∧
      FollowsPaths I c seeds facts := by
  obtain ⟨N, s, hrun, hitems, hin, hout⟩ := iterate_livenessStep hc (covers_of I c seeds)
  let facts : Facts (Finset ν) := ⟨fun n => (Universe.of I c seeds).set (s.liveIn n),
    fun n => (Universe.of I c seeds).set (s.flowingOut n |||
      (BlockRows.of I c (Universe.of I c seeds) seeds (hasUnwindEdge c) n).seeded), s.steps⟩
  refine ⟨facts, ⟨N, fun fuel hfuel => ?_⟩, ⟨fun n v => ?_, fun n hn v => ?_⟩⟩
  · unfold Liveness.computeWithExits
    simp only [hrun fuel hfuel, hitems, isEmpty_nil, if_true]
    rfl
  · change v ∈ (Universe.of I c seeds).set (s.liveIn n) ↔ _
    rw [hin, mem_liveSet]
  · change v ∈ (Universe.of I c seeds).set (s.flowingOut n ||| _) ↔ _
    rw [Universe.mem_or, hout n hn, liveFrom_end_iff hc hn, mem_normalOut, or_comm]
    simp only [mem_liveSet]
    refine or_congr_left ?_
    by_cases hv : v ∈ (Universe.of I c seeds).vars
    · exact mem_seeded hv n
    · refine ⟨fun h => absurd (Universe.mem_vars_of_mem_set h) hv, fun h => absurd ((covers_of I c seeds n hn).1 v h) hv⟩

theorem FollowsPaths.mem_liveOnUnwind (h : FollowsPaths I c seeds facts) {n : Nat} {v : ν} :
    v ∈ liveOnUnwind I c facts n ↔ ∃ e ∈ c.outgoing n, departsBeforeThrows I c (c.edgeView.edge e) = true ∧
      LiveFrom I c seeds ((c.edgeView.edge e).target, 0) v := by
  refine mem_unwindOut.trans ?_
  simp only [h.mem_input]

theorem FollowsPaths.mem_livePoint (hc : c.WF) (h : FollowsPaths I c seeds facts) {n i : Nat} (hn : c.containsBlock n)
    (hi : i ≤ (c.instructions n).length) (v : ν) : v ∈ livePoint I c facts n i ↔ LiveFrom I c seeds (n, i) v :=
  mem_backwardCode_liveFrom hc hn (h.mem_output n hn v) h.mem_liveOnUnwind hi

end Queries

/-! ## The block-level problem -/

section Problem

variable [DecidableEq ν] {I : InstrInfo ι ν} {c : Cfg ι π} {v : ν}

theorem monotone_livenessProblem : (livenessProblem I c).node.Monotone where
  bottom_eq := rfl
  meet_mono _ _ _ _ h h' := Finset.union_subset_union h h'
  transfer_mono n a b h := by
    change backwardCode I _ _ a ⊆ backwardCode I _ _ b
    refine backwardCode_mono ?_ h _
    split
    · exact h
    · exact subset_rfl

variable {n : Nat}

theorem mem_met {x : Nat → Finset ν} :
    v ∈ (livenessProblem I c).node.met c.view.toGraphView none n x ↔ ∃ t ∈ c.successors n, v ∈ x t := by
  change v ∈ (joinAll (· ∪ ·) none ((c.successors n).map x)).getD ∅ ↔ _
  rw [mem_joinAll_union]
  simp

omit [DecidableEq ν] in
theorem firstUnwindPoint_isSome (hc : c.WF) {n e : Nat} (he : e ∈ c.outgoing n)
    (h : departsBeforeThrows I c (c.edgeView.edge e) = true) : (firstUnwindPoint I c n).isSome = true := by
  obtain ⟨hsource, _⟩ := edge_source_target hc he
  rw [departsBeforeThrows, Bool.and_eq_true, hsource] at h
  unfold firstUnwindPoint
  rw [if_pos (any_eq_true.mpr ⟨e, he, h.1⟩), findIdx?_isSome]
  exact h.2

theorem isBound_readVariables (hc : c.WF) : ((livenessProblem I c).node.system c.view.toGraphView none).IsBound
    (· ∈ c.blockIds) fun _ => readVariables I c fun _ => [] := by
  intro n hn k hk v hv
  have hlive : n ∈ c.blockIds := by
    rcases hn with hn | ⟨k, _, hn⟩
    · exact hn
    · obtain ⟨e, r, hr, _, rfl⟩ := hc.mem_predecessors.mp hn
      exact Cfg.mem_blockIds.mpr (hc.source_live hr)
  have hout : v ∈ (livenessProblem I c).node.met c.view.toGraphView none n (fun _ => readVariables I c fun _ => []) →
      v ∈ readVariables I c fun _ => [] := fun h => (mem_met.mp h).choose_spec.2
  rcases mem_of_mem_backwardCode hv with h | h | ⟨a, ha, h⟩
  · exact hout h
  · split at h
    · exact hout h
    · exact absurd h (Finset.notMem_empty v)
  · simp only [readVariables, mem_toFinset, mem_flatMap, mem_append]
    exact ⟨n, hlive, Or.inr ⟨a, ha, h⟩⟩

def IsLeastLiveness (I : InstrInfo ι ν) (c : Cfg ι π) (block : Facts (Finset ν)) : Prop :=
  ((livenessProblem I c).node.system c.view.toGraphView none).IsLeastSolution (· ∈ c.blockIds) (· ∈ c.blockIds) ∅
    block.input block.output

theorem settles_livenessProblem (hc : c.WF) : ∃ block : Facts (Finset ν),
    (∃ N, ∀ fuel, N ≤ fuel → solveProblemWithConfig c.view (livenessProblem I c) .new fuel = some (.ok block)) ∧
      IsLeastLiveness I c block := by
  obtain ⟨hw, hqueued⟩ := Worklist.wf_live hc.lawful_view
  have hstart : (fun n => (Worklist.live c.view.toGraphView).queued n = true) = (· ∈ c.blockIds) :=
    funext fun n => propext (hqueued n)
  have hasc : ((livenessProblem I c).node.system c.view.toGraphView none).Ascending
      (fun n => (Worklist.live c.view.toGraphView).queued n = true) (List.range c.view.nodeBound) := by
    rw [hstart]
    refine System.ascending_of_bound _ (isBound_readVariables hc) fun n => ?_
    exact ((readVariables I c fun _ => []).powerset.finite_toSet).subset fun t ht =>
      Finset.mem_coe.mpr (Finset.mem_powerset.mpr ht)
  obtain ⟨block, ⟨N, hN⟩, entering, leaving, horder, hleast⟩ := settles_trySolveWithWorklist none hc.lawful_view
    (monotone_livenessProblem (I := I)) hw (fun n hn => (hqueued n).mp hn) hasc
  obtain ⟨hin, hout⟩ := Prod.mk.inj horder
  rw [hstart] at hleast
  refine ⟨block, ⟨N, fun fuel hfuel => (hN fuel hfuel).1⟩, ?_⟩
  rw [IsLeastLiveness, ← hin, ← hout]
  exact hleast

theorem IsLeastLiveness.superset (hc : c.WF) {block : Facts (Finset ν)} (h : IsLeastLiveness I c block)
    (hn : c.containsBlock n) : (LiveFrom I c (fun _ => []) (n, 0) v → v ∈ block.input n) ∧
      (LiveFrom I c (fun _ => []) (n, (c.instructions n).length) v → v ∈ block.output n) := by
  have hequation : ∀ m, c.containsBlock m → block.input m =
        backwardBlock I c m (block.output m) (block.output m) ∧
      block.output m = (livenessProblem I c).node.met c.view.toGraphView none m block.input := by
    intro m hm
    have hstarted : ((livenessProblem I c).node.system c.view.toGraphView none).Started (· ∈ c.blockIds) block.input m :=
      Or.inl (Cfg.mem_blockIds.mpr hm)
    have hrecord := h.record m hstarted
    refine ⟨(h.solution.equation m hstarted m (mem_singleton.mpr rfl)).trans ?_, hrecord⟩
    rw [hrecord]
    rfl
  have hflows : ∀ m, ∀ e ∈ c.outgoing m, block.input (c.edgeView.edge e).target ⊆ block.output m := by
    intro m e he w hw
    rw [(hequation m (edge_source_target hc he).2.2.2.1).2, mem_met,
      Cfg.exists_successor_iff (P := fun t => w ∈ block.input t) hc]
    exact ⟨e, he, hw⟩
  have hmem : ∀ {p : Nat × Nat}, LiveFrom I c (fun _ => []) p v → v ∈ backwardCode I
      (if (firstUnwindPoint I c p.1).isSome then block.output p.1 else ∅)
      ((c.instructions p.1).drop p.2) (block.output p.1) := by
    intro p hp
    refine mem_of_liveFrom hc block.input block.output (fun m =>
      if (firstUnwindPoint I c m).isSome then block.output m else ∅) (fun m hm => (hequation m hm).1.symm.subset)
      (fun _ _ w hw => absurd hw not_mem_nil) (fun m e he _ => hflows m e he) (fun m e he hdeparts => ?_) hp
    rw [if_pos (firstUnwindPoint_isSome hc he hdeparts)]
    exact hflows m e he
  constructor
  · intro hlive
    have hv := hmem hlive
    dsimp only at hv
    rw [drop_zero] at hv
    rw [(hequation n hn).1, backwardBlock]
    exact hv
  · intro hlive
    have hv := hmem hlive
    dsimp only at hv
    rw [drop_length] at hv
    exact hv

theorem IsLeastLiveness.subset (hc : c.WF) {block : Facts (Finset ν)} (h : IsLeastLiveness I c block)
    (hkinds : ∀ e r, c.edge e = some r → r.payload.kind ≠ .exceptionUnwind) (hn : c.containsBlock n) :
    (v ∈ block.input n → LiveFrom I c (fun _ => []) (n, 0) v) ∧
      (v ∈ block.output n → LiveFrom I c (fun _ => []) (n, (c.instructions n).length) v) := by
  have hdata : ∀ m, ∀ e ∈ c.outgoing m, ((c.edgeView.edge e).data == EdgeKind.exceptionUnwind) = false := by
    intro m e he
    obtain ⟨r, hr, _⟩ := hc.mem_outgoing.mp he
    rw [Cfg.edge_edgeView hr]
    exact beq_false_of_ne (hkinds e r hr)
  have hdeparts : ∀ m, ∀ e ∈ c.outgoing m, departsBeforeThrows I c (c.edgeView.edge e) = false := by
    intro m e he
    rw [departsBeforeThrows, hdata m e he, Bool.false_and]
  have hpoint : ∀ m, firstUnwindPoint I c m = none := by
    intro m
    unfold firstUnwindPoint
    refine if_neg fun hany => ?_
    obtain ⟨e, he, hkind⟩ := any_eq_true.mp hany
    rw [hdata m e he] at hkind
    cases hkind
  -- what is live at the end of a block is what is live in its successors
  have hend : ∀ m, c.containsBlock m → ∀ w,
      w ∈ (livenessProblem I c).node.met c.view.toGraphView none m (liveSet I c fun _ => []) ↔
        LiveFrom I c (fun _ => []) (m, (c.instructions m).length) w := by
    intro m hm w
    rw [mem_met, Cfg.exists_successor_iff (P := fun t => w ∈ liveSet I c (fun _ => []) t) hc, liveFrom_end_iff hc hm,
      or_iff_right not_mem_nil]
    refine exists_congr fun e => and_congr_right fun he => ?_
    rw [hdeparts m e he, mem_liveSet, and_iff_right rfl]
  have hsolution : ((livenessProblem I c).node.system c.view.toGraphView none).IsSolution (· ∈ c.blockIds)
      (liveSet I c fun _ => []) := by
    refine ⟨fun m hm k hk => ?_, fun k hk => ?_⟩
    · have hlive : c.containsBlock m := by
        rcases hm with hm | ⟨k, _, hm⟩
        · exact Cfg.mem_blockIds.mp hm
        · obtain ⟨e, r, hr, _, rfl⟩ := hc.mem_predecessors.mp hm
          exact hc.source_live hr
      rw [mem_singleton.mp hk]
      ext w
      rw [mem_liveSet]
      refine (mem_backwardCode_liveFrom hc hlive (hend m hlive w) ?_ (Nat.zero_le _)).symm
      rw [hpoint m]
      constructor
      · intro hw
        exact absurd hw (Finset.notMem_empty w)
      · rintro ⟨e, he, hdeparts', _⟩
        rw [hdeparts m e he] at hdeparts'
        cases hdeparts'
    · refine Finset.eq_empty_of_forall_notMem fun w hw => ?_
      have hlive := containsBlock_of_liveFrom (mem_liveSet.mp hw)
      exact hk k (Or.inl (Cfg.mem_blockIds.mpr hlive)) (mem_singleton.mpr rfl)
  have hbelow := h.least _ hsolution
  constructor
  · intro hv
    exact mem_liveSet.mp (hbelow n hv)
  · intro hv
    rw [h.record n (Or.inl (Cfg.mem_blockIds.mpr hn))] at hv
    obtain ⟨t, ht, hv⟩ := mem_met.mp hv
    exact (hend n hn v).mp (mem_met.mpr ⟨t, ht, hbelow t hv⟩)

end Problem

/-! ## The main result -/

section Exact

variable [LinearOrder ν] {I : InstrInfo ι ν} {c : Cfg ι π}

/-- Some path from the place reads the variable before an instruction on it defines it. -/
def ReadOnPath (I : InstrInfo ι ν) (c : Cfg ι π) (p : Nat × Nat) (v : ν) : Prop :=
  ∃ q, (c.dataFlow I).PathPast I.mayUnwind (fun _ a => v ∈ I.defs a) p q ∧
    ∃ a, (c.instructions q.1)[q.2]? = some a ∧ v ∈ I.uses a

omit [LinearOrder ν] in
theorem liveFrom_nil_iff {p : Nat × Nat} {v : ν} : LiveFrom I c (fun _ => []) p v ↔ ReadOnPath I c p v :=
  exists_congr fun _ => and_congr_right fun _ => or_iff_left fun h => not_mem_nil h.2.2

/-- Liveness is exact at both ends of every block and before each instruction, and the
block-level problem holds what it reports, no more when no edge unwinds. -/
theorem liveness_exact (hc : c.WF) : ∃ facts block : Facts (Finset ν),
    (∃ N, ∀ fuel, N ≤ fuel → Liveness.compute I c fuel = some facts ∧
      solveProblemWithConfig c.view (livenessProblem I c) .new fuel = some (.ok block)) ∧
    ∀ n, c.containsBlock n → (∀ v, v ∈ facts.input n ↔ ReadOnPath I c (n, 0) v) ∧
      (∀ v, v ∈ facts.output n ↔ ReadOnPath I c (n, (c.instructions n).length) v) ∧
      (∀ i v, i ≤ (c.instructions n).length → (v ∈ livePoint I c facts n i ↔ ReadOnPath I c (n, i) v)) ∧
      (facts.input n ⊆ block.input n ∧ facts.output n ⊆ block.output n) ∧
      ((∀ e r, c.edge e = some r → r.payload.kind ≠ .exceptionUnwind) →
        block.input n = facts.input n ∧ block.output n = facts.output n) := by
  obtain ⟨facts, ⟨N, hN⟩, hfacts⟩ := Liveness.computeWithExits_spec (I := I) hc fun _ => []
  obtain ⟨block, ⟨M, hM⟩, hleast⟩ := settles_livenessProblem (I := I) hc
  have hsuper : ∀ n, c.containsBlock n → facts.input n ⊆ block.input n ∧ facts.output n ⊆ block.output n := by
    intro n hn
    refine ⟨fun v hv => ?_, fun v hv => ?_⟩
    · exact (hleast.superset hc hn).1 ((hfacts.mem_input n v).mp hv)
    · exact (hleast.superset hc hn).2 ((hfacts.mem_output n hn v).mp hv)
  refine ⟨facts, block, ⟨max N M, fun fuel hfuel => ⟨hN fuel (by omega), hM fuel (by omega)⟩⟩, fun n hn => ⟨?_, ?_, ?_,
    hsuper n hn, fun hkinds => ⟨?_, ?_⟩⟩⟩
  · intro v
    exact (hfacts.mem_input n v).trans liveFrom_nil_iff
  · intro v
    exact (hfacts.mem_output n hn v).trans liveFrom_nil_iff
  · intro i v hi
    exact (hfacts.mem_livePoint hc hn hi v).trans liveFrom_nil_iff
  · refine Finset.Subset.antisymm (fun v hv => ?_) (hsuper n hn).1
    exact (hfacts.mem_input n v).mpr ((hleast.subset hc hkinds hn).1 hv)
  · refine Finset.Subset.antisymm (fun v hv => ?_) (hsuper n hn).2
    exact (hfacts.mem_output n hn v).mpr ((hleast.subset hc hkinds hn).2 hv)

end Exact

/-- A block that writes a variable after an instruction that may unwind to a handler that
reads it. -/
def handledWrite : Cfg (List Nat × List Nat × Bool) Unit :=
  Cfg.ofParts [[([], [], true), ([], [0], false)], [([0], [], false)]] [(0, 1, .exceptionUnwind, ())]

theorem liveness_exact_handledWrite : ∃ facts : Facts (Finset Nat),
    (∃ N, ∀ fuel, N ≤ fuel → Liveness.compute plainInfo handledWrite fuel = some facts) ∧
      ∀ v, v ∈ facts.input 0 ↔ ReadOnPath plainInfo handledWrite (0, 0) v := by
  obtain ⟨facts, _, ⟨N, hN⟩, hfacts⟩ := liveness_exact (I := plainInfo) (c := handledWrite) (Cfg.wf_ofParts rfl)
  exact ⟨facts, ⟨N, fun fuel hfuel => (hN fuel hfuel).1⟩, (hfacts 0 rfl).1⟩

end Dataflow

end CfgLib
