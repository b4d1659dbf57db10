import CfgLib.Cfg.Trace
import CfgLib.Lib.Needed

/-!
# What the analyses read off an instruction

`dataflow/instruction.rs`, `dataflow/unwind.rs`: the variables an instruction
reads and writes, its declared effects, and which edges leave a block before a
throwing instruction.
-/

namespace CfgLib

open CfgLib.Lib

/-- What instructions `ι` say about variables `ν`. -/
structure InstrInfo (ι ν : Type) where
  uses : ι → List ν
  defs : ι → List ν
  /-- Execution can unwind before the instruction defines its outputs. -/
  mayUnwind : ι → Bool

/-- Instructions that declare side effects beyond what they read and write. -/
structure EffectInfo (ι ν ε : Type) extends InstrInfo ι ν where
  effects : ι → List ε

/-- Instructions that are given by their reads, their writes and whether they may unwind. -/
def plainInfo : InstrInfo (List Nat × List Nat × Bool) Nat := ⟨(·.1), (·.2.1), (·.2.2)⟩

variable {ι ν π : Type}

def InstrInfo.access (I : InstrInfo ι ν) : Access ι ν := ⟨I.uses, I.defs, I.mayUnwind⟩

namespace Cfg

/-- Whether `edge` leaves its source before a throwing instruction.  Every other
edge, and an unwind out of a block without one, leaves after the last. -/
def departsBeforeThrows (I : InstrInfo ι ν) (c : Cfg ι π) (edge : Store.EdgeRecord (Edge π)) :
    Bool :=
  edge.payload.kind == .exceptionUnwind && (c.instructions edge.source).any I.mayUnwind

def dataFlow (I : InstrInfo ι ν) (c : Cfg ι π) : Flow ι where
  code b := (c.block b).map (·.instructions)
  normal a b := ∃ e r, c.edge e = some r ∧ r.source = a ∧ r.target = b ∧
    c.departsBeforeThrows I r = false
  unwind a b := ∃ e r, c.edge e = some r ∧ r.source = a ∧ r.target = b ∧
    c.departsBeforeThrows I r = true

variable {c : Cfg ι π} {I : InstrInfo ι ν} {b : Nat}

theorem exists_code (hb : c.containsBlock b) : (c.dataFlow I).code b = some (c.instructions b) := by
  obtain ⟨block, hblock⟩ := Option.isSome_iff_exists.mp hb
  rw [instructions_eq hblock]
  simp [dataFlow, hblock]

theorem instructions_of_code {l : List ι} (hcode : (c.dataFlow I).code b = some l) :
    c.containsBlock b ∧ c.instructions b = l := by
  obtain ⟨block, hblock, rfl⟩ := Option.map_eq_some_iff.mp hcode
  exact ⟨by simp [containsBlock, hblock], instructions_eq hblock⟩

theorem containsBlock_of_getElem? {i : Nat} {a : ι} (h : (c.instructions b)[i]? = some a) :
    c.containsBlock b := by
  cases hb : c.block b with
  | none => simp [instructions, flow, hb] at h
  | some block => simp [containsBlock, hb]

end Cfg

/-- The variables live before an instruction, from those live after it. -/
def stepBackward [DecidableEq ν] (I : InstrInfo ι ν) (live : Finset ν) (instruction : ι)
    (onUnwind : Finset ν) : Finset ν :=
  let live := (live \ (I.defs instruction).toFinset) ∪ (I.uses instruction).toFinset
  if I.mayUnwind instruction then live ∪ onUnwind else live

theorem mem_stepBackward [DecidableEq ν] (I : InstrInfo ι ν) {live onUnwind : Finset ν}
    {instruction : ι} {v : ν} : v ∈ stepBackward I live instruction onUnwind ↔
      (v ∈ live ∧ v ∉ I.defs instruction) ∨ v ∈ I.uses instruction ∨
        (I.mayUnwind instruction = true ∧ v ∈ onUnwind) := by
  unfold stepBackward
  by_cases h : I.mayUnwind instruction
  · simp [h]
  · simp [h]

end CfgLib
