import CfgLib.Dataflow.Instruction
import CfgLib.Graph.Traverse
import Mathlib.Data.Finset.Card
import Mathlib.Data.Finset.Lattice.Fold

/-!
# Dead-code analysis

`analysis/dead_code.rs`: the instructions whose definitions no needed
instruction reads, found by a backward solve in which only needed instructions
read.  The solve computes exactly what is needed along the paths of the graph.
-/

namespace CfgLib.Analysis

open CfgLib.Lib List Function

variable {ι ν ε π : Type} [DecidableEq ν]

/-! ## The analysis -/

/-- What is live at the end of a block: the seed joined with the live-in sets of
the normal successors, and apart from it what an unwind out of the block reads. -/
def exitsOf (I : InstrInfo ι ν) (c : Cfg ι π) (block : Nat) (liveIn : Nat → Finset ν)
    (seed : List ν) : Finset ν × Finset ν :=
  (c.outgoing block).foldl (fun (out, unwind) e =>
    match c.edge e with
    | none => (out, unwind)
    | some edge =>
      if c.departsBeforeThrows I edge then (out, unwind ∪ liveIn edge.target)
      else (out ∪ liveIn edge.target, unwind)) (seed.toFinset, ∅)

def isNeeded (I : InstrInfo ι ν) (forced : Bool) (instruction : ι) (live : Finset ν) : Bool :=
  forced || (I.defs instruction).isEmpty || (I.defs instruction).any fun v => decide (v ∈ live)

/-- Replay instructions backward from `live`, the first at index `index`: what is
live before them, and the dead among them. -/
def replay (I : InstrInfo ι ν) (forced : Nat → ι → Bool) (unwind : Finset ν) :
    Nat → List ι → Finset ν → Finset ν × List Nat
  | _, [], live => (live, [])
  | index, instruction :: rest, live =>
    let (live, dead) := replay I forced unwind (index + 1) rest live
    if isNeeded I (forced index instruction) instruction live then
      (stepBackward I live instruction unwind, dead)
    else (live, index :: dead)

structure NeededState (ν : Type) where
  liveIn : Nat → Finset ν
  queued : Nat → Bool
  /-- The stack of queued blocks, its top first. -/
  worklist : List Nat

/-- Queue a block that is not queued yet. -/
def NeededState.push (s : NeededState ν) (block : Nat) : NeededState ν :=
  if s.queued block then s
  else { s with queued := update s.queued block true, worklist := block :: s.worklist }

/-- What a block's entry needs when its successors need `liveIn`. -/
def entryOf (I : InstrInfo ι ν) (c : Cfg ι π) (seeds : Nat → List ν)
    (forced : Nat → Nat → ι → Bool) (liveIn : Nat → Finset ν) (block : Nat) : Finset ν :=
  let (live, unwind) := exitsOf I c block liveIn (seeds block)
  (replay I (forced block) unwind 0 (c.instructions block) live).1

/-- One round of the solve, `none` when nothing is queued. -/
def neededStep (I : InstrInfo ι ν) (c : Cfg ι π) (seeds : Nat → List ν)
    (forced : Nat → Nat → ι → Bool) (s : NeededState ν) : Option (NeededState ν) :=
  match s.worklist with
  | [] => none
  | block :: rest =>
    let s := { s with queued := update s.queued block false, worklist := rest }
    let grown := s.liveIn block ∪ entryOf I c seeds forced s.liveIn block
    if grown.card ≠ (s.liveIn block).card then
      some ((c.predecessors block).foldl NeededState.push
        { s with liveIn := update s.liveIn block grown })
    else some s

/-- Every variable that the graph reads or the seeds name. -/
def variablesOf (I : InstrInfo ι ν) (c : Cfg ι π) (seeds : Nat → List ν) : Finset ν :=
  (c.blockIds.flatMap fun b => seeds b ++ (c.instructions b).flatMap I.uses).toFinset

/-- The live-in sets, grown from empty until nothing is queued.  Each growing round
adds a variable to a block and queues at most every block. -/
def neededLiveIn (I : InstrInfo ι ν) (c : Cfg ι π) (seeds : Nat → List ν)
    (forced : Nat → Nat → ι → Bool) : Nat → Finset ν :=
  (iterate (neededStep I c seeds forced)
    ((variablesOf I c seeds).card * c.blockBound * (c.blockBound + 1) + c.blockBound)
    ⟨fun _ => ∅, c.containsBlock, c.blockIds.reverse⟩).liveIn

structure DeadCode where
  /-- Block and index of each dead instruction. -/
  instructions : List (Nat × Nat)
  unreachableBlocks : List Nat

/-- Whether an instruction is needed whatever is live. -/
def isForced (I : EffectInfo ι ν ε) (observed : Nat → Nat → ι → Bool) (block index : Nat)
    (instruction : ι) : Bool :=
  !(I.effects instruction).isEmpty || I.mayUnwind instruction || observed block index instruction

def deadIn (I : InstrInfo ι ν) (c : Cfg ι π) (seeds : Nat → List ν)
    (forced : Nat → Nat → ι → Bool) (liveIn : Nat → Finset ν) (block : Nat) : List Nat :=
  let (live, unwind) := exitsOf I c block liveIn (seeds block)
  (replay I (forced block) unwind 0 (c.instructions block) live).2

/-- Analyze a graph with exit values and observed instructions. -/
def computeWithRoots (I : EffectInfo ι ν ε) (c : Cfg ι π) (liveOut : Nat → List ν)
    (observed : Nat → Nat → ι → Bool) : Option DeadCode := do
  let forced := isForced I observed
  let liveIn := neededLiveIn I.toInstrInfo c liveOut forced
  let instructions := c.blockIds.flatMap fun block =>
    (deadIn I.toInstrInfo c liveOut forced liveIn block).map fun index => (block, index)
  let reached ← reachable c.view.toGraphView [c.entry] .outgoing
  pure ⟨instructions, c.blockIds.filter fun block => !reached block⟩

/-- Analyze a graph with `liveOut` stating what leaves each block. -/
def computeWithExits (I : EffectInfo ι ν ε) (c : Cfg ι π) (liveOut : Nat → List ν) :
    Option DeadCode :=
  computeWithRoots I c liveOut fun _ _ _ => false

/-- Analyze a graph that nothing leaves. -/
def compute (I : EffectInfo ι ν ε) (c : Cfg ι π) : Option DeadCode :=
  computeWithExits I c fun _ => []

/-! ## One block -/

variable {I : InstrInfo ι ν} {c : Cfg ι π} {seeds : Nat → List ν} {forced : Nat → Nat → ι → Bool}
  {liveIn : Nat → Finset ν} {b i : Nat} {l : List ι} {a : ι} {v : ν}

variable {live unwind : Finset ν}

theorem isNeeded_iff {flag : Bool} :
    isNeeded I flag a live = true ↔ flag = true ∨ I.defs a = [] ∨ ∃ w ∈ I.defs a, w ∈ live := by
  simp [isNeeded, or_assoc]

theorem mem_exitsOf (hc : c.WF) : (v ∈ (exitsOf I c b liveIn (seeds b)).1 ↔
      v ∈ seeds b ∨ ∃ t, (c.dataFlow I).normal b t ∧ v ∈ liveIn t) ∧
    (v ∈ (exitsOf I c b liveIn (seeds b)).2 ↔ ∃ t, (c.dataFlow I).unwind b t ∧ v ∈ liveIn t) := by
  have hfold : ∀ (es : List Nat) (acc : Finset ν × Finset ν),
      let exits := es.foldl (fun (out, unwind) e =>
        match c.edge e with
        | none => (out, unwind)
        | some edge =>
          if c.departsBeforeThrows I edge then (out, unwind ∪ liveIn edge.target)
          else (out ∪ liveIn edge.target, unwind)) acc
      (v ∈ exits.1 ↔ v ∈ acc.1 ∨ ∃ e ∈ es, ∃ r, c.edge e = some r ∧
        c.departsBeforeThrows I r = false ∧ v ∈ liveIn r.target) ∧
      (v ∈ exits.2 ↔ v ∈ acc.2 ∨ ∃ e ∈ es, ∃ r, c.edge e = some r ∧
        c.departsBeforeThrows I r = true ∧ v ∈ liveIn r.target) := by
    intro es
    induction es with
    | nil => simp
    | cons e es ih =>
      intro acc
      simp only [foldl_cons]
      cases he : c.edge e with
      | none => simpa [he] using ih acc
      | some r =>
        by_cases hd : c.departsBeforeThrows I r
        · have := ih (acc.1, acc.2 ∪ liveIn r.target)
          simp only [hd, if_true]
          simpa [he, hd, or_assoc] using this
        · have := ih (acc.1 ∪ liveIn r.target, acc.2)
          simp only [hd]
          simpa [he, hd, or_assoc] using this
  obtain ⟨hout, hunwind⟩ := hfold (c.outgoing b) ((seeds b).toFinset, ∅)
  constructor
  · refine hout.trans (or_congr mem_toFinset ?_)
    constructor
    · rintro ⟨e, he, r, hr, hd, hv⟩
      obtain ⟨r', hr', hs⟩ := hc.mem_outgoing.mp he
      rw [hr] at hr'
      cases hr'
      exact ⟨r.target, ⟨e, r, hr, hs, rfl, hd⟩, hv⟩
    · rintro ⟨t, ⟨e, r, hr, hs, rfl, hd⟩, hv⟩
      exact ⟨e, hc.mem_outgoing.mpr ⟨r, hr, hs⟩, r, hr, hd, hv⟩
  · refine hunwind.trans ?_
    simp only [Finset.notMem_empty, false_or]
    constructor
    · rintro ⟨e, he, r, hr, hd, hv⟩
      obtain ⟨r', hr', hs⟩ := hc.mem_outgoing.mp he
      rw [hr] at hr'
      cases hr'
      exact ⟨r.target, ⟨e, r, hr, hs, rfl, hd⟩, hv⟩
    · rintro ⟨t, ⟨e, r, hr, hs, rfl, hd⟩, hv⟩
      exact ⟨e, hc.mem_outgoing.mpr ⟨r, hr, hs⟩, r, hr, hd, hv⟩

theorem replay_cons (flags : Nat → ι → Bool) (unwind live : Finset ν) (i : Nat) (a : ι)
    (rest : List ι) : replay I flags unwind i (a :: rest) live =
      if isNeeded I (flags i a) a (replay I flags unwind (i + 1) rest live).1 then
        (stepBackward I (replay I flags unwind (i + 1) rest live).1 a unwind,
          (replay I flags unwind (i + 1) rest live).2)
      else ((replay I flags unwind (i + 1) rest live).1,
        i :: (replay I flags unwind (i + 1) rest live).2) := rfl

/-- What a replay of a whole block finds live before its instruction `i`. -/
def liveBefore (I : InstrInfo ι ν) (forced : Nat → ι → Bool) (unwind live : Finset ν) (l : List ι)
    (i : Nat) : Finset ν :=
  (replay I forced unwind i (l.drop i) live).1

theorem liveBefore_length (flags : Nat → ι → Bool) (unwind live : Finset ν) :
    liveBefore I flags unwind live l l.length = live := by
  rw [liveBefore, drop_length]
  rfl

theorem liveBefore_step {flags : Nat → ι → Bool} (ha : l[i]? = some a) :
    liveBefore I flags unwind live l i =
      if isNeeded I (flags i a) a (liveBefore I flags unwind live l (i + 1)) then
        stepBackward I (liveBefore I flags unwind live l (i + 1)) a unwind
      else liveBefore I flags unwind live l (i + 1) := by
  obtain ⟨hlt, rfl⟩ := List.getElem?_eq_some_iff.mp ha
  unfold liveBefore
  rw [drop_eq_getElem_cons hlt, replay_cons]
  split
  · rfl
  · rfl

theorem mem_replay {flags : Nat → ι → Bool} {j : Nat} :
    j ∈ (replay I flags unwind i (l.drop i) live).2 ↔ i ≤ j ∧ ∃ a, l[j]? = some a ∧
      isNeeded I (flags j a) a (liveBefore I flags unwind live l (j + 1)) = false := by
  generalize hn : l.length - i = n
  induction n generalizing i with
  | zero =>
    rw [drop_eq_nil_of_le (by omega)]
    constructor
    · intro h
      cases h
    · rintro ⟨hij, a, ha, _⟩
      have := (List.getElem?_eq_some_iff.mp ha).1
      omega
  | succ n ih =>
    have hlt : i < l.length := by omega
    have ha : l[i]? = some l[i] := getElem?_eq_getElem hlt
    rw [drop_eq_getElem_cons hlt, replay_cons]
    have hrest := ih (i := i + 1) (by omega)
    split
    · next hneeded =>
      rw [hrest]
      constructor
      · rintro ⟨hij, h⟩
        exact ⟨by omega, h⟩
      · rintro ⟨hij, a, haj, hno⟩
        refine ⟨?_, a, haj, hno⟩
        by_contra hc
        obtain rfl : j = i := by omega
        obtain rfl := Option.some.inj (ha.symm.trans haj)
        rw [← Bool.not_eq_true] at hno
        exact hno hneeded
    · next hdead =>
      rw [mem_cons, hrest]
      constructor
      · rintro (rfl | ⟨hij, h⟩)
        · exact ⟨Nat.le_refl _, _, ha, Bool.eq_false_iff.mpr hdead⟩
        · exact ⟨by omega, h⟩
      · rintro ⟨hij, h⟩
        by_cases hji : j = i
        · exact Or.inl hji
        · exact Or.inr ⟨by omega, h⟩

/-! ## What the solve computes -/

/-- The instructions that are needed whatever is live. -/
def Essential (I : InstrInfo ι ν) (c : Cfg ι π) (forced : Nat → Nat → ι → Bool) (b i : Nat) : Prop :=
  ∃ a, (c.dataFlow I).At (b, i) a ∧ (forced b i a = true ∨ I.defs a = [])

/-- What is needed along the paths of the graph. -/
abbrev Wanted (I : InstrInfo ι ν) (c : Cfg ι π) (seeds : Nat → List ν)
    (forced : Nat → Nat → ι → Bool) (b i : Nat) (v : ν) : Prop :=
  Flow.Needed (c.dataFlow I) I.access seeds (Essential I c forced) b i v

theorem wanted_of_liveBefore (hcode : (c.dataFlow I).code b = some l)
    (hlive : ∀ v ∈ live, Wanted I c seeds forced b l.length v)
    (hunwind : ∀ v ∈ unwind, ∃ t, (c.dataFlow I).unwind b t ∧ Wanted I c seeds forced t 0 v)
    (hi : i ≤ l.length) (hv : v ∈ liveBefore I (forced b) unwind live l i) :
    Wanted I c seeds forced b i v := by
  generalize hn : l.length - i = n
  induction n generalizing i v with
  | zero =>
    obtain rfl : i = l.length := by omega
    rw [liveBefore_length] at hv
    exact hlive v hv
  | succ n ih =>
    have ha : l[i]? = some l[i] := getElem?_eq_getElem (by omega)
    have hafter : ∀ w ∈ liveBefore I (forced b) unwind live l (i + 1),
        Wanted I c seeds forced b (i + 1) w := fun w hw => ih (by omega) hw (by omega)
    rw [liveBefore_step ha] at hv
    split at hv
    · next hneeded =>
      rcases (mem_stepBackward I).mp hv with ⟨hv, hd⟩ | hu | ⟨ht, hv⟩
      · exact .past hcode ha hd (hafter v hv)
      · rcases isNeeded_iff.mp hneeded with hf | hd | ⟨w, hw, hlw⟩
        · exact .staying hcode ha ⟨_, ⟨l, hcode, ha⟩, Or.inl hf⟩ hu
        · exact .staying hcode ha ⟨_, ⟨l, hcode, ha⟩, Or.inr hd⟩ hu
        · exact .writing hcode ha hw (hafter w hlw) hu
      · obtain ⟨t, hedge, hn⟩ := hunwind v hv
        exact .raise hcode ha ht hedge hn
    · next hdead =>
      refine .past hcode ha (fun hd => hdead ?_) (hafter v hv)
      exact isNeeded_iff.mpr (Or.inr (Or.inr ⟨v, hd, hv⟩))

theorem wanted_of_entryOf (hc : c.WF) (hb : c.containsBlock b)
    (hin : ∀ t v, v ∈ liveIn t → Wanted I c seeds forced t 0 v)
    (hv : v ∈ entryOf I c seeds forced liveIn b) : Wanted I c seeds forced b 0 v := by
  have hcode := Cfg.exists_code (I := I) hb
  refine wanted_of_liveBefore hcode ?_ ?_ (Nat.zero_le _) hv
  · intro w hw
    rcases (mem_exitsOf hc).1.mp hw with hw | ⟨t, ht, hw⟩
    · exact .out hcode hw
    · exact .ended hcode (.leave hcode ht (hin t w hw))
  · intro w hw
    obtain ⟨t, ht, hw⟩ := (mem_exitsOf hc).2.mp hw
    exact ⟨t, ht, hin t w hw⟩

def liveAt (I : InstrInfo ι ν) (c : Cfg ι π) (seeds : Nat → List ν)
    (forced : Nat → Nat → ι → Bool) (liveIn : Nat → Finset ν) (b i : Nat) : Finset ν :=
  let (live, unwind) := exitsOf I c b liveIn (seeds b)
  liveBefore I (forced b) unwind live (c.instructions b) i

theorem liveAt_needed (hc : c.WF) (ha : (c.instructions b)[i]? = some a)
    (hneeded : isNeeded I (forced b i a) a (liveAt I c seeds forced liveIn b (i + 1)) = true) :
    v ∈ liveAt I c seeds forced liveIn b i ↔
      (v ∈ liveAt I c seeds forced liveIn b (i + 1) ∧ v ∉ I.defs a) ∨ v ∈ I.uses a ∨
        (I.mayUnwind a = true ∧ ∃ t, (c.dataFlow I).unwind b t ∧ v ∈ liveIn t) := by
  have hstep : liveAt I c seeds forced liveIn b i =
      stepBackward I (liveAt I c seeds forced liveIn b (i + 1)) a
        (exitsOf I c b liveIn (seeds b)).2 := (liveBefore_step ha).trans (if_pos hneeded)
  rw [hstep, mem_stepBackward, (mem_exitsOf hc).2]

theorem liveAt_dead (ha : (c.instructions b)[i]? = some a)
    (hdead : isNeeded I (forced b i a) a (liveAt I c seeds forced liveIn b (i + 1)) = false) :
    liveAt I c seeds forced liveIn b i = liveAt I c seeds forced liveIn b (i + 1) :=
  (liveBefore_step ha).trans (if_neg (Bool.eq_false_iff.mp hdead))

theorem mem_liveAt_length (hc : c.WF) :
    v ∈ liveAt I c seeds forced liveIn b (c.instructions b).length ↔
      v ∈ seeds b ∨ ∃ t, (c.dataFlow I).normal b t ∧ v ∈ liveIn t := by
  rw [← (mem_exitsOf hc).1]
  exact iff_of_eq (congrArg (v ∈ ·) (liveBefore_length _ _ _))

/-- Live-in sets that hold what every block's entry needs hold all that is wanted. -/
theorem liveAt_of_wanted (hc : c.WF) (hforced : ∀ b i a, I.mayUnwind a = true → forced b i a = true)
    (hclosed : ∀ b, c.containsBlock b → entryOf I c seeds forced liveIn b ⊆ liveIn b)
    (hw : Wanted I c seeds forced b i v) :
    (i ≤ (c.instructions b).length → v ∈ liveAt I c seeds forced liveIn b i) ∧
      (i = (c.instructions b).length + 1 → ∃ t, (c.dataFlow I).normal b t ∧ v ∈ liveIn t) := by
  -- a block's entry is live in its live-in set
  have hentry : ∀ t v, c.containsBlock t → v ∈ liveAt I c seeds forced liveIn t 0 → v ∈ liveIn t :=
    fun t v ht hv => hclosed t ht hv
  induction hw with
  | @out b l v hcode hv =>
    obtain ⟨hb, rfl⟩ := Cfg.instructions_of_code hcode
    exact ⟨fun _ => (mem_liveAt_length hc).mpr (Or.inl hv), fun h => absurd h (by omega)⟩
  | @ended b l v hcode _ ih =>
    obtain ⟨hb, rfl⟩ := Cfg.instructions_of_code hcode
    exact ⟨fun _ => (mem_liveAt_length hc).mpr (Or.inr (ih.2 rfl)), fun h => absurd h (by omega)⟩
  | @leave b t l v hcode hl hn ih =>
    obtain ⟨hb, rfl⟩ := Cfg.instructions_of_code hcode
    obtain ⟨l₁, hl₁⟩ := hn.exists_code
    refine ⟨fun h => absurd h (by omega), fun _ => ⟨t, hl, ?_⟩⟩
    exact hentry t v (Cfg.instructions_of_code hl₁).1 (ih.1 (Nat.zero_le _))
  | @raise b i t l a v hcode ha ht hu hn ih =>
    obtain ⟨hb, rfl⟩ := Cfg.instructions_of_code hcode
    obtain ⟨l₁, hl₁⟩ := hn.exists_code
    have hlt := (List.getElem?_eq_some_iff.mp ha).1
    refine ⟨fun _ => ?_, fun h => absurd h (by omega)⟩
    have hin := hentry t v (Cfg.instructions_of_code hl₁).1 (ih.1 (Nat.zero_le _))
    refine (liveAt_needed hc ha ?_).mpr (Or.inr (Or.inr ⟨ht, t, hu, hin⟩))
    exact isNeeded_iff.mpr (Or.inl (hforced b i a ht))
  | @staying b i l a v hcode ha hs hv =>
    obtain ⟨hb, rfl⟩ := Cfg.instructions_of_code hcode
    have hlt := (List.getElem?_eq_some_iff.mp ha).1
    refine ⟨fun _ => (liveAt_needed hc ha ?_).mpr (Or.inr (Or.inl hv)),
      fun h => absurd h (by omega)⟩
    obtain ⟨a', ⟨l', hl', ha'⟩, hess⟩ := hs
    obtain rfl := Option.some.inj (hcode.symm.trans hl')
    obtain rfl := Option.some.inj (ha.symm.trans ha')
    exact isNeeded_iff.mpr (hess.imp_right Or.inl)
  | @writing b i l a v w hcode ha hw hn hv ih =>
    obtain ⟨hb, rfl⟩ := Cfg.instructions_of_code hcode
    have hlt := (List.getElem?_eq_some_iff.mp ha).1
    refine ⟨fun _ => (liveAt_needed hc ha ?_).mpr (Or.inr (Or.inl hv)),
      fun h => absurd h (by omega)⟩
    exact isNeeded_iff.mpr (Or.inr (Or.inr ⟨w, hw, ih.1 hlt⟩))
  | @past b i l a v hcode ha hd hn ih =>
    obtain ⟨hb, rfl⟩ := Cfg.instructions_of_code hcode
    have hlt := (List.getElem?_eq_some_iff.mp ha).1
    refine ⟨fun _ => ?_, fun h => absurd h (by omega)⟩
    cases hneeded : isNeeded I (forced b i a) a (liveAt I c seeds forced liveIn b (i + 1)) with
    | true => exact (liveAt_needed hc ha hneeded).mpr (Or.inl ⟨ih.1 hlt, hd⟩)
    | false => exact (liveAt_dead ha hneeded).symm ▸ ih.1 hlt

/-! ## The solve -/

/-- The stack and the flags agree and hold live blocks. -/
structure Queueing (c : Cfg ι π) (s : NeededState ν) : Prop where
  nodup : s.worklist.Nodup
  queued_iff : ∀ b, s.queued b = true ↔ b ∈ s.worklist
  live : ∀ b ∈ s.worklist, c.containsBlock b

/-- What holds of a solve between two rounds. -/
structure Solving (I : InstrInfo ι ν) (c : Cfg ι π) (seeds : Nat → List ν)
    (forced : Nat → Nat → ι → Bool) (s : NeededState ν) : Prop extends Queueing c s where
  /-- A block that is not queued holds what its entry needs. -/
  settled : ∀ b, c.containsBlock b → s.queued b = false →
    entryOf I c seeds forced s.liveIn b ⊆ s.liveIn b
  wanted : ∀ b v, v ∈ s.liveIn b → Wanted I c seeds forced b 0 v

variable {s s' : NeededState ν}

omit [DecidableEq ν] in
theorem Queueing.push (h : Queueing c s) (hb : c.containsBlock b) :
    Queueing c (s.push b) ∧ (s.push b).liveIn = s.liveIn ∧
      ∀ x, (s.push b).queued x = true ↔ s.queued x = true ∨ x = b := by
  unfold NeededState.push
  split
  · next hq =>
    refine ⟨h, rfl, fun x => ⟨Or.inl, ?_⟩⟩
    rintro (hx | rfl)
    · exact hx
    · exact hq
  · next hq =>
    have hiff : ∀ x, update s.queued b true x = true ↔ s.queued x = true ∨ x = b := by
      intro x
      by_cases hx : x = b
      · simp [hx]
      · simp [hx]
    refine ⟨⟨?_, ?_, ?_⟩, rfl, hiff⟩
    · exact nodup_cons.mpr ⟨fun hmem => hq ((h.queued_iff b).mpr hmem), h.nodup⟩
    · intro x
      rw [hiff, h.queued_iff, mem_cons, or_comm]
    · intro x hx
      rcases mem_cons.mp hx with rfl | hx
      · exact hb
      · exact h.live x hx

omit [DecidableEq ν] in
theorem Queueing.foldl_push {blocks : List Nat} (h : Queueing c s)
    (hblocks : ∀ b ∈ blocks, c.containsBlock b) : Queueing c (blocks.foldl NeededState.push s) ∧
      (blocks.foldl NeededState.push s).liveIn = s.liveIn ∧
      ∀ x, (blocks.foldl NeededState.push s).queued x = true ↔ s.queued x = true ∨ x ∈ blocks := by
  induction blocks generalizing s with
  | nil => exact ⟨h, rfl, fun x => by simp⟩
  | cons b blocks ih =>
    obtain ⟨h₁, hlive₁, hiff₁⟩ := h.push (hblocks b mem_cons_self)
    obtain ⟨h₂, hlive₂, hiff₂⟩ := ih h₁ fun x hx => hblocks x (mem_cons_of_mem b hx)
    refine ⟨h₂, hlive₂.trans hlive₁, fun x => ?_⟩
    rw [foldl_cons, hiff₂, hiff₁, mem_cons, or_assoc]

omit [DecidableEq ν] in
theorem Queueing.pop {rest : List Nat} (h : Queueing c s) (hw : s.worklist = b :: rest) :
    Queueing c { s with queued := update s.queued b false, worklist := rest } ∧
      ∀ x, update s.queued b false x = true ↔ s.queued x = true ∧ x ≠ b := by
  have hiff : ∀ x, update s.queued b false x = true ↔ s.queued x = true ∧ x ≠ b := by
    intro x
    by_cases hx : x = b
    · simp [hx]
    · simp [hx]
  have hnodup := h.nodup
  rw [hw, nodup_cons] at hnodup
  refine ⟨⟨hnodup.2, ?_, fun x hx => h.live x (hw ▸ mem_cons_of_mem b hx)⟩, hiff⟩
  intro x
  rw [hiff, h.queued_iff, hw, mem_cons]
  constructor
  · rintro ⟨hx | hx, hne⟩
    · exact absurd hx hne
    · exact hx
  · intro hx
    exact ⟨Or.inr hx, fun he => hnodup.1 (he ▸ hx)⟩

theorem entryOf_congr (hc : c.WF) {liveIn' : Nat → Finset ν}
    (h : ∀ t ∈ c.successors b, liveIn' t = liveIn t) :
    entryOf I c seeds forced liveIn' b = entryOf I c seeds forced liveIn b := by
  have hexits : exitsOf I c b liveIn' (seeds b) = exitsOf I c b liveIn (seeds b) := by
    unfold exitsOf
    refine foldl_ext _ _ _ fun acc e he => ?_
    obtain ⟨r, hr, hs⟩ := hc.mem_outgoing.mp he
    have ht := h r.target (hc.mem_successors.mpr ⟨e, r, hr, hs, rfl⟩)
    simp only [hr, ht]
  unfold entryOf
  rw [hexits]

theorem mem_variablesOf (hw : Wanted I c seeds forced b i v) : v ∈ variablesOf I c seeds := by
  have hseed : ∀ b v, c.containsBlock b → v ∈ seeds b → v ∈ variablesOf I c seeds := by
    intro b v hb hv
    exact mem_toFinset.mpr (mem_flatMap.mpr
      ⟨b, Cfg.mem_blockIds.mpr hb, mem_append_left _ hv⟩)
  have huse : ∀ (b i : Nat) (a : ι) (v : ν), c.containsBlock b → (c.instructions b)[i]? = some a →
      v ∈ I.uses a → v ∈ variablesOf I c seeds := by
    intro b i a v hb ha hv
    exact mem_toFinset.mpr (mem_flatMap.mpr ⟨b, Cfg.mem_blockIds.mpr hb,
      mem_append_right _ (mem_flatMap.mpr ⟨a, mem_of_getElem? ha, hv⟩)⟩)
  induction hw with
  | out hcode hv => exact hseed _ _ (Cfg.instructions_of_code hcode).1 hv
  | ended _ _ ih => exact ih
  | leave _ _ _ ih => exact ih
  | raise _ _ _ _ _ ih => exact ih
  | staying hcode ha _ hv =>
    obtain ⟨hb, rfl⟩ := Cfg.instructions_of_code hcode
    exact huse _ _ _ _ hb ha hv
  | writing hcode ha _ _ hv _ =>
    obtain ⟨hb, rfl⟩ := Cfg.instructions_of_code hcode
    exact huse _ _ _ _ hb ha hv
  | past _ _ _ _ ih => exact ih

/-- The rounds that can still grow a block, and the blocks queued. -/
def remaining (I : InstrInfo ι ν) (c : Cfg ι π) (seeds : Nat → List ν) (s : NeededState ν) : Nat :=
  total (fun b => (variablesOf I c seeds).card - (s.liveIn b).card) (List.range c.blockBound) *
    (c.blockBound + 1) + s.worklist.length

omit [DecidableEq ν] in
theorem Queueing.length_le (h : Queueing c s) : s.worklist.length ≤ c.blockBound := by
  have hsub : s.worklist ⊆ List.range c.blockBound := fun b hb =>
    mem_range.mpr (Cfg.block_lt (h.live b hb))
  have := (subperm_of_subset h.nodup hsub).length_le
  rwa [length_range] at this

theorem Solving.step (hc : c.WF) (h : Solving I c seeds forced s)
    (hstep : neededStep I c seeds forced s = some s') :
    Solving I c seeds forced s' ∧ remaining I c seeds s' < remaining I c seeds s := by
  unfold neededStep at hstep
  split at hstep
  · cases hstep
  next block rest hw =>
  obtain ⟨hpop, hpopped⟩ := h.toQueueing.pop hw
  have hblock : c.containsBlock block := h.live block (hw ▸ mem_cons_self)
  have hgrown : ∀ v ∈ s.liveIn block ∪ entryOf I c seeds forced s.liveIn block,
      Wanted I c seeds forced block 0 v := by
    intro v hv
    rcases Finset.mem_union.mp hv with hv | hv
    · exact h.wanted block v hv
    · exact wanted_of_entryOf hc hblock h.wanted hv
  have hsub : s.liveIn block ⊆ s.liveIn block ∪ entryOf I c seeds forced s.liveIn block :=
    Finset.subset_union_left
  simp only at hstep
  split at hstep
  · next hcard =>
    have hpreds : ∀ b ∈ c.predecessors block, c.containsBlock b := by
      intro b hb
      obtain ⟨e, r, hr, _, rfl⟩ := hc.mem_predecessors.mp hb
      exact hc.source_live hr
    set grown := s.liveIn block ∪ entryOf I c seeds forced s.liveIn block with hgrowndef
    have hq : Queueing c { liveIn := update s.liveIn block grown
                           queued := update s.queued block false
                           worklist := rest } := ⟨hpop.nodup, hpop.queued_iff, hpop.live⟩
    obtain ⟨hq', hlive, hqueued'⟩ := hq.foldl_push hpreds
    have hlive' := hlive.trans (show _ = update s.liveIn block grown from rfl)
    obtain rfl := Option.some.inj hstep
    have hlt : (s.liveIn block).card < grown.card :=
      Nat.lt_of_le_of_ne (Finset.card_le_card hsub) (Ne.symm hcard)
    refine ⟨⟨hq', ?_, ?_⟩, ?_⟩
    · intro b hb hnot
      rw [← Bool.not_eq_true, hqueued'] at hnot
      simp only [not_or, hpopped, not_and, not_not] at hnot
      rw [hlive']
      have hsame : entryOf I c seeds forced (update s.liveIn block grown) b =
          entryOf I c seeds forced s.liveIn b := by
        refine entryOf_congr hc fun t ht => ?_
        have hne : t ≠ block := by
          rintro rfl
          obtain ⟨e, r, hr, hs, ht'⟩ := hc.mem_successors.mp ht
          exact hnot.2 (hc.mem_predecessors.mpr ⟨e, r, hr, ht', hs⟩)
        rw [update_of_ne hne]
      rw [hsame]
      by_cases hbb : b = block
      · subst hbb
        rw [update_self]
        exact Finset.subset_union_right
      · rw [update_of_ne hbb]
        refine h.settled b hb ?_
        by_contra hqb
        exact hbb (hnot.1 (by simpa using hqb))
    · intro b v hv
      rw [hlive'] at hv
      by_cases hbb : b = block
      · subst hbb
        rw [update_self] at hv
        exact hgrown v hv
      · rw [update_of_ne hbb] at hv
        exact h.wanted b v hv
    · have hlen := hq'.length_le
      have hbound : grown.card ≤ (variablesOf I c seeds).card :=
        Finset.card_le_card fun v hv => mem_variablesOf (hgrown v hv)
      have hdrop : total (fun b => (variablesOf I c seeds).card -
            ((update s.liveIn block grown) b).card) (List.range c.blockBound) + 1 ≤
          total (fun b => (variablesOf I c seeds).card - (s.liveIn b).card)
            (List.range c.blockBound) := total_drop
        (by
          intro b _
          by_cases hbb : b = block
          · subst hbb
            rw [update_self]
            omega
          · rw [update_of_ne hbb])
        (mem_range.mpr (Cfg.block_lt hblock))
        (by
          rw [update_self]
          omega)
      have hmul := Nat.mul_le_mul_right (c.blockBound + 1) hdrop
      rw [Nat.add_mul, Nat.one_mul] at hmul
      unfold remaining
      rw [hlive']
      omega
  · next hcard =>
    obtain rfl := Option.some.inj hstep
    have heq : s.liveIn block ∪ entryOf I c seeds forced s.liveIn block = s.liveIn block :=
      (Finset.eq_of_subset_of_card_le hsub (Nat.le_of_eq (not_not.mp hcard))).symm
    refine ⟨⟨hpop, ?_, h.wanted⟩, ?_⟩
    · intro b hb hnot
      rw [← Bool.not_eq_true, hpopped] at hnot
      by_cases hbb : b = block
      · subst hbb
        exact Finset.union_eq_left.mp heq
      · refine h.settled b hb ?_
        by_contra hqb
        exact hnot ⟨by simpa using hqb, hbb⟩
    · unfold remaining
      rw [hw, length_cons]
      exact Nat.lt_succ_self _

theorem neededLiveIn_spec (hc : c.WF) : (∀ b, c.containsBlock b →
      entryOf I c seeds forced (neededLiveIn I c seeds forced) b ⊆ neededLiveIn I c seeds forced b) ∧
    ∀ b v, v ∈ neededLiveIn I c seeds forced b → Wanted I c seeds forced b 0 v := by
  have hinit : Solving I c seeds forced ⟨fun _ => ∅, c.containsBlock, c.blockIds.reverse⟩ := by
    refine ⟨⟨?_, ?_, ?_⟩, ?_, ?_⟩
    · exact nodup_reverse.mpr hc.lawful_view.nodeIds_nodup
    · intro b
      rw [mem_reverse, Cfg.mem_blockIds]
    · intro b hb
      exact Cfg.mem_blockIds.mp (mem_reverse.mp hb)
    · intro b hb hnot
      exact absurd hb (Bool.eq_false_iff.mp hnot)
    · intro b v hv
      cases hv
  have hfuel : remaining I c seeds ⟨fun _ => ∅, c.containsBlock, c.blockIds.reverse⟩ ≤
      (variablesOf I c seeds).card * c.blockBound * (c.blockBound + 1) + c.blockBound := by
    have hlen := hinit.toQueueing.length_le
    unfold remaining
    simp only [Finset.card_empty, Nat.sub_zero, total_const, length_range]
    exact Nat.add_le_add_left hlen _
  obtain ⟨hsolved, hdone⟩ := iterate_spec (I := Solving I c seeds forced)
    (μ := remaining I c seeds) (fun s s' h hs => h.step hc hs) hinit hfuel
  refine ⟨fun b hb => hsolved.settled b hb ?_, hsolved.wanted⟩
  -- the loop ends with an empty stack
  have hempty : (iterate (neededStep I c seeds forced)
      ((variablesOf I c seeds).card * c.blockBound * (c.blockBound + 1) + c.blockBound)
      ⟨fun _ => ∅, c.containsBlock, c.blockIds.reverse⟩).worklist = [] := by
    unfold neededStep at hdone
    split at hdone
    · assumption
    · simp only at hdone
      split at hdone <;> cases hdone
  rw [← Bool.not_eq_true, hsolved.queued_iff, hempty]
  exact not_mem_nil

theorem mem_liveAt_iff (hc : c.WF) (hforced : ∀ b i a, I.mayUnwind a = true → forced b i a = true)
    (hb : c.containsBlock b) (hi : i ≤ (c.instructions b).length) :
    v ∈ liveAt I c seeds forced (neededLiveIn I c seeds forced) b i ↔
      Wanted I c seeds forced b i v := by
  obtain ⟨hclosed, hsound⟩ : (∀ b, c.containsBlock b → entryOf I c seeds forced
      (neededLiveIn I c seeds forced) b ⊆ neededLiveIn I c seeds forced b) ∧ _ :=
    neededLiveIn_spec hc
  constructor
  · intro hv
    have hcode := Cfg.exists_code (I := I) hb
    refine wanted_of_liveBefore hcode ?_ ?_ hi hv
    · intro w hw
      rcases (mem_exitsOf hc).1.mp hw with hw | ⟨t, ht, hw⟩
      · exact .out hcode hw
      · exact .ended hcode (.leave hcode ht (hsound t w hw))
    · intro w hw
      obtain ⟨t, ht, hw⟩ := (mem_exitsOf hc).2.mp hw
      exact ⟨t, ht, hsound t w hw⟩
  · exact fun hw => (liveAt_of_wanted hc hforced hclosed hw).1 hi

/-! ## The report -/

omit [DecidableEq ν] in
theorem mayUnwind_isForced (I : EffectInfo ι ν ε) (observed : Nat → Nat → ι → Bool) (b i : Nat)
    (a : ι) (h : I.mayUnwind a = true) : isForced I observed b i a = true := by
  simp [isForced, h]

/-- The analysis returns, and reports the instructions that are not essential and
write nothing that is wanted. -/
theorem computeWithRoots_spec (I : EffectInfo ι ν ε) (hc : c.WF) (liveOut : Nat → List ν)
    (observed : Nat → Nat → ι → Bool) :
    ∃ dead, computeWithRoots I c liveOut observed = some dead ∧ ∀ p, p ∈ dead.instructions ↔
      ∃ a, (c.dataFlow I.toInstrInfo).At p a ∧
        ¬ Essential I.toInstrInfo c (isForced I observed) p.1 p.2 ∧ ∀ w ∈ I.defs a,
          ¬ Wanted I.toInstrInfo c liveOut (isForced I observed) p.1 (p.2 + 1) w := by
  have hentry : ∀ n ∈ [c.entry], n < c.view.nodeBound := by
    intro n hn
    rw [mem_singleton.mp hn]
    exact Cfg.block_lt hc.entry
  obtain ⟨reached, hreached, _⟩ := reachable_spec hc.lawful_view hentry .outgoing
  refine ⟨_, by simp only [computeWithRoots, hreached]; rfl, ?_⟩
  rintro ⟨b, i⟩
  simp only [mem_flatMap, mem_map, Prod.mk.injEq]
  have hdead : ∀ l a, (c.dataFlow I.toInstrInfo).code b = some l → l[i]? = some a →
      (isNeeded I.toInstrInfo (isForced I observed b i a) a (liveAt I.toInstrInfo c liveOut
        (isForced I observed) (neededLiveIn I.toInstrInfo c liveOut (isForced I observed)) b (i + 1))
          = false ↔ ¬ Essential I.toInstrInfo c (isForced I observed) b i ∧ ∀ w ∈ I.defs a,
        ¬ Wanted I.toInstrInfo c liveOut (isForced I observed) b (i + 1) w) := by
    intro l a hcode ha
    obtain ⟨hb, rfl⟩ := Cfg.instructions_of_code hcode
    have hlt := (List.getElem?_eq_some_iff.mp ha).1
    have hess : Essential I.toInstrInfo c (isForced I observed) b i ↔
        isForced I observed b i a = true ∨ I.defs a = [] := by
      constructor
      · rintro ⟨a', ⟨l', hl', ha'⟩, h⟩
        obtain rfl := Option.some.inj (hcode.symm.trans hl')
        obtain rfl := Option.some.inj (ha.symm.trans ha')
        exact h
      · exact fun h => ⟨a, ⟨_, hcode, ha⟩, h⟩
    rw [← Bool.not_eq_true, isNeeded_iff, ← or_assoc, ← hess, not_or]
    refine and_congr_right fun _ => ?_
    simp only [mem_liveAt_iff hc (mayUnwind_isForced I observed) hb hlt, not_exists, not_and]
  constructor
  · rintro ⟨b', hb', i', hi', rfl, rfl⟩
    have hb := Cfg.mem_blockIds.mp hb'
    obtain ⟨_, a, ha, hno⟩ := (mem_replay (i := 0)).mp hi'
    have hcode := Cfg.exists_code (I := I.toInstrInfo) hb
    exact ⟨a, ⟨_, hcode, ha⟩, (hdead _ a hcode ha).mp hno⟩
  · rintro ⟨a, ⟨l, hcode, ha⟩, hno⟩
    have hno' := (hdead l a hcode ha).mpr hno
    obtain ⟨hb, rfl⟩ := Cfg.instructions_of_code hcode
    exact ⟨b, Cfg.mem_blockIds.mpr hb, i,
      (mem_replay (i := 0)).mpr ⟨Nat.zero_le _, a, ha, hno'⟩, rfl, rfl⟩

end CfgLib.Analysis
