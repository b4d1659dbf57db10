import CfgLib.Analysis.Expr
import Mathlib.Data.List.Basic
import Mathlib.Data.List.Perm.Basic
import Mathlib.Data.List.Nodup
import Mathlib.Data.List.Perm.Lattice

/-!
# Where the nodes of a recovered tree come from

A run of the recovery that builds traced trees: every node but a leaf names the
definition it stands for.  Forgetting the names gives the plain trees, and what
one instruction does to a traced run is said once, for every kind of
instruction.
-/

namespace CfgLib

open Lib List

/-- An expression tree whose nodes name the definitions they stand for: the variable, where the
instruction defines one, and the index of the instruction. -/
inductive TracedExpr (ν ω κ : Type)
  | leaf (read : ν)
  | op (made : Option ν) (instIdx : Nat) (operator : ω) (operands : List (TracedExpr ν ω κ))
  | const (made : Option ν) (instIdx : Nat) (value : κ)
  | opaqueInst (made : ν) (instIdx : Nat)

structure Meaning (ω κ υ : Type) where
  apply : ω → List υ → υ
  constant : κ → υ

namespace TracedExpr

variable {ν ω κ : Type}

def builder : TreeBuilder ν ω κ (TracedExpr ν ω κ) := ⟨.leaf, .op, .const, .opaqueInst⟩

def definition : TracedExpr ν ω κ → Option (ν × Nat)
  | .leaf _ => none
  | .op made instIdx _ _ => made.map fun x => (x, instIdx)
  | .const made instIdx _ => made.map fun x => (x, instIdx)
  | .opaqueInst made instIdx => some (made, instIdx)

mutual

def erase (block : Nat) : TracedExpr ν ω κ → ExprNode ν ω κ
  | .leaf read => .leaf read
  | .op _ _ operator operands => .op operator (eraseAll block operands)
  | .const _ _ value => .const value
  | .opaqueInst _ instIdx => .opaqueInst block instIdx

def eraseAll (block : Nat) : List (TracedExpr ν ω κ) → List (ExprNode ν ω κ)
  | [] => []
  | tree :: trees => tree.erase block :: eraseAll block trees

end

mutual

def definitions : TracedExpr ν ω κ → List (ν × Nat)
  | .leaf _ => []
  | .op made instIdx _ operands => (made.toList.map fun x => (x, instIdx)) ++ definitionsAll operands
  | .const made instIdx _ => made.toList.map fun x => (x, instIdx)
  | .opaqueInst made instIdx => [(made, instIdx)]

def definitionsAll : List (TracedExpr ν ω κ) → List (ν × Nat)
  | [] => []
  | tree :: trees => tree.definitions ++ definitionsAll trees

end

mutual

def leaves : TracedExpr ν ω κ → List ν
  | .leaf read => [read]
  | .op _ _ _ operands => leavesAll operands
  | .const _ _ _ => []
  | .opaqueInst _ _ => []

def leavesAll : List (TracedExpr ν ω κ) → List ν
  | [] => []
  | tree :: trees => tree.leaves ++ leavesAll trees

end

mutual

/-- The value of a tree, with its leaves read from a store and each opaque definition as the value
that its instruction gave the variable. -/
def eval {υ : Type} (M : Meaning ω κ υ) (store : ν → υ) (outcome : ν → Nat → υ) : TracedExpr ν ω κ → υ
  | .leaf read => store read
  | .op _ _ operator operands => M.apply operator (evalAll M store outcome operands)
  | .const _ _ value => M.constant value
  | .opaqueInst made instIdx => outcome made instIdx

def evalAll {υ : Type} (M : Meaning ω κ υ) (store : ν → υ) (outcome : ν → Nat → υ) :
    List (TracedExpr ν ω κ) → List υ
  | [] => []
  | tree :: trees => tree.eval M store outcome :: evalAll M store outcome trees

end

theorem eraseAll_eq (block : Nat) (trees : List (TracedExpr ν ω κ)) :
    eraseAll block trees = trees.map (erase block) := by
  induction trees with
  | nil => rfl
  | cons tree trees ih => rw [eraseAll, ih, map_cons]

theorem definitionsAll_eq (trees : List (TracedExpr ν ω κ)) :
    definitionsAll trees = trees.flatMap definitions := by
  induction trees with
  | nil => rfl
  | cons tree trees ih => rw [definitionsAll, ih, flatMap_cons]

theorem leavesAll_eq (trees : List (TracedExpr ν ω κ)) : leavesAll trees = trees.flatMap leaves := by
  induction trees with
  | nil => rfl
  | cons tree trees ih => rw [leavesAll, ih, flatMap_cons]

theorem evalAll_eq {υ : Type} (M : Meaning ω κ υ) (store : ν → υ) (outcome : ν → Nat → υ)
    (trees : List (TracedExpr ν ω κ)) : evalAll M store outcome trees = trees.map (eval M store outcome) := by
  induction trees with
  | nil => rfl
  | cons tree trees ih => rw [evalAll, ih, map_cons]

mutual

theorem eval_congr {υ : Type} (M : Meaning ω κ υ) {store store' : ν → υ} (outcome : ν → Nat → υ) :
    ∀ tree : TracedExpr ν ω κ, (∀ x ∈ tree.leaves, store x = store' x) →
      tree.eval M store outcome = tree.eval M store' outcome
  | .leaf read, h => h read (mem_singleton.mpr rfl)
  | .op _ _ operator operands, h => congrArg (M.apply operator) (evalAll_congr M outcome operands h)
  | .const _ _ _, _ => rfl
  | .opaqueInst _ _, _ => rfl

theorem evalAll_congr {υ : Type} (M : Meaning ω κ υ) {store store' : ν → υ} (outcome : ν → Nat → υ) :
    ∀ trees : List (TracedExpr ν ω κ), (∀ x ∈ leavesAll trees, store x = store' x) →
      evalAll M store outcome trees = evalAll M store' outcome trees
  | [], _ => rfl
  | tree :: trees, h => congrArg₂ List.cons
      (eval_congr M outcome tree fun x hx => h x (mem_append_left _ hx))
      (evalAll_congr M outcome trees fun x hx => h x (mem_append_right _ hx))

end

theorem hom_erase (block : Nat) :
    (builder : TreeBuilder ν ω κ _).Hom (ExprNode.builder block) (erase block) where
  leaf _ := rfl
  op _ _ operator operands := congrArg (ExprNode.op operator) (eraseAll_eq block operands)
  const _ _ _ := rfl
  opaqueInst _ _ := rfl

end TracedExpr

/-! ## One operation -/

namespace Recovery

variable {ι ν ω κ τ : Type} [LinearOrder ν] {s : Recovery ν τ}

/-- A variable has one pending definition at most. -/
def Distinct (s : Recovery ν τ) : Prop := (s.pending.map (·.1)).Nodup

variable {x : ν}

variable {p : Pending ν τ} {useCount : ν → Nat}

theorem get_eq_some (h : s.Distinct) : s.get x = some p ↔ (x, p) ∈ s.pending := by
  unfold get
  rw [Option.map_eq_some_iff]
  constructor
  · rintro ⟨e, he, rfl⟩
    obtain rfl : e.1 = x := by simpa using find?_some he
    exact mem_of_find?_eq_some he
  · intro hmem
    refine ⟨(x, p), ?_, rfl⟩
    cases hfind : s.pending.find? fun e => e.1 = x with
    | none =>
      rw [find?_eq_none] at hfind
      exact absurd (decide_eq_true rfl) (hfind _ hmem)
    | some e =>
      have hkey : e.1 = x := by simpa using find?_some hfind
      rw [inj_on_of_nodup_map h (mem_of_find?_eq_some hfind) hmem hkey]

theorem get_eq_none (h : s.Distinct) : s.get x = none ↔ ∀ p, (x, p) ∉ s.pending := by
  constructor
  · intro hnone p hp
    rw [(get_eq_some h).mpr hp] at hnone
    cases hnone
  · intro hall
    cases hget : s.get x with
    | none => rfl
    | some p => exact absurd ((get_eq_some h).mp hget) (hall p)

theorem mem_remove {e : ν × Pending ν τ} : e ∈ (s.remove x).pending ↔ e ∈ s.pending ∧ e.1 ≠ x := by
  simp [remove]

theorem Distinct.remove (h : s.Distinct) (x : ν) : (s.remove x).Distinct :=
  h.sublist (filter_sublist.map _)

theorem remove_of_get_eq_none (h : s.Distinct) (hx : s.get x = none) : (s.remove x).pending = s.pending := by
  apply filter_eq_self.mpr
  rintro ⟨y, p⟩ he
  rw [get_eq_none h] at hx
  have : y ≠ x := fun hyx => hx p (hyx ▸ he)
  simpa using this

theorem pending_perm (h : s.Distinct) (hx : s.get x = some p) :
    s.pending.Perm ((x, p) :: (s.remove x).pending) := by
  have hnodup : s.pending.Nodup := List.Nodup.of_map _ h
  have hnodup' : ((x, p) :: (s.remove x).pending).Nodup := by
    refine nodup_cons.mpr ⟨?_, hnodup.filter _⟩
    intro hmem
    exact (mem_remove.mp hmem).2 rfl
  rw [perm_ext_iff_of_nodup hnodup hnodup']
  rintro ⟨y, q⟩
  rw [mem_cons, mem_remove]
  constructor
  · intro he
    by_cases hyx : y = x
    · subst hyx
      have := (get_eq_some h).mpr he
      rw [hx, Option.some.injEq] at this
      exact Or.inl (by rw [this])
    · exact Or.inr ⟨he, hyx⟩
  · rintro (he | ⟨he, _⟩)
    · rw [he]
      exact (get_eq_some h).mp hx
    · exact he

theorem absorbable_iff : s.absorbable useCount x ↔
    useCount x = 1 ∧ ∃ p, s.get x = some p ∧ ∀ r ∈ p.reads, s.generation r.1 = r.2 := by
  simp [absorbable, Option.any_eq_true]

theorem absorbable_remove (h : s.Distinct) {y : ν} :
    (s.remove x).absorbable useCount y ↔ s.absorbable useCount y ∧ y ≠ x := by
  simp only [absorbable_iff, get_eq_some h, get_eq_some (h.remove x), mem_remove]
  constructor
  · rintro ⟨hcount, p, ⟨hp, hne⟩, hreads⟩
    exact ⟨⟨hcount, p, hp, hreads⟩, hne⟩
  · rintro ⟨⟨hcount, p, hp, hreads⟩, hne⟩
    exact ⟨hcount, p, ⟨hp, hne⟩, hreads⟩

theorem operand_cases (B : TreeBuilder ν ω κ τ) (useCount : ν → Nat) (reads : List (ν × Nat)) (x : ν) :
    (s.absorbable useCount x ∧ ∃ p, s.get x = some p ∧
        s.operand B useCount reads x = (p.expression, s.remove x, reads ++ p.reads)) ∨
      (¬ s.absorbable useCount x ∧ s.operand B useCount reads x = (B.leaf x, s, reads ++ [(x, s.generation x)])) := by
  by_cases h : s.absorbable useCount x
  · obtain ⟨_, p, hp, _⟩ := absorbable_iff.mp h
    refine Or.inl ⟨h, p, hp, ?_⟩
    rw [operand, if_pos h, hp]
  · refine Or.inr ⟨h, ?_⟩
    rw [operand, if_neg h]

end Recovery

/-! ## The operands of an expression -/

section

variable {ι ν ω κ : Type} [LinearOrder ν]

def Recovery.pendingDefinitions (s : Recovery ν (TracedExpr ν ω κ)) : List (ν × Nat) :=
  s.pending.flatMap fun e => e.2.expression.definitions

/-- What taking operands leaves and yields: each operand that can absorb its variable's pending
definition does so, and else is a leaf. -/
structure Absorbs (useCount : ν → Nat) (s : Recovery ν (TracedExpr ν ω κ)) (xs : List ν)
    (trees : List (TracedExpr ν ω κ)) (s' : Recovery ν (TracedExpr ν ω κ)) : Prop where
  overwritten : s'.overwritten = s.overwritten
  count : s'.definitionCount = s.definitionCount
  sublist : s'.pending.Sublist s.pending
  mem_pending : ∀ e, e ∈ s'.pending ↔ e ∈ s.pending ∧ ¬ (e.1 ∈ xs ∧ s.absorbable useCount e.1)
  definitions : s.pendingDefinitions.Perm (trees.flatMap (·.definitions) ++ s'.pendingDefinitions)
  tree : ∀ t ∈ trees, (∃ x ∈ xs, t = .leaf x ∧ (s.absorbable useCount x → 2 ≤ xs.count x)) ∨
    ∃ x ∈ xs, ∃ p, (x, p) ∈ s.pending ∧ s.absorbable useCount x ∧ t = p.expression
  absorbed : ∀ x ∈ xs, ∀ p, (x, p) ∈ s.pending → s.absorbable useCount x → p.expression ∈ trees
  unabsorbed : ∀ x ∈ xs, ¬ s.absorbable useCount x → .leaf x ∈ trees
  /-- Only the first of several reads absorbs. -/
  repeated : ∀ x, s.absorbable useCount x → 2 ≤ xs.count x → .leaf x ∈ trees
  values : ∀ {υ : Type} (value : TracedExpr ν ω κ → υ) (store : ν → υ), (∀ x, value (.leaf x) = store x) →
    (∀ x p, (x, p) ∈ s.pending → s.absorbable useCount x → value p.expression = store x) →
      trees.map value = xs.map store

theorem Absorbs.nil (useCount : ν → Nat) (s : Recovery ν (TracedExpr ν ω κ)) : Absorbs useCount s [] [] s where
  overwritten := rfl
  count := rfl
  sublist := List.Sublist.refl _
  mem_pending e := by simp
  definitions := List.Perm.refl _
  tree t ht := absurd ht not_mem_nil
  absorbed x hx := absurd hx not_mem_nil
  unabsorbed x hx := absurd hx not_mem_nil
  repeated x _ h := by simp at h
  values _ _ _ _ := rfl

variable {s : Recovery ν (TracedExpr ν ω κ)}

variable {trees : List (TracedExpr ν ω κ)} {xs : List ν} {s' : Recovery ν (TracedExpr ν ω κ)} {x : ν}
   {useCount : ν → Nat}

theorem Absorbs.cons_absorbed (hs : s.Distinct) {p : Pending ν (TracedExpr ν ω κ)}
    (hx : s.absorbable useCount x) (hp : s.get x = some p) (h : Absorbs useCount (s.remove x) xs trees s') :
    Absorbs useCount s (x :: xs) (p.expression :: trees) s' where
  overwritten := h.overwritten
  count := h.count
  sublist := h.sublist.trans filter_sublist
  mem_pending e := by
    rw [h.mem_pending, Recovery.mem_remove, Recovery.absorbable_remove hs, mem_cons]
    by_cases he : e.1 = x
    · rw [he]
      simp [hx]
    · simp [he]
  definitions := by
    have hperm := (Recovery.pending_perm hs hp).flatMap_right fun e => e.2.expression.definitions
    refine hperm.trans ?_
    rw [flatMap_cons, flatMap_cons, append_assoc]
    exact h.definitions.append_left _
  tree t ht := by
    rcases mem_cons.mp ht with rfl | ht
    · exact Or.inr ⟨x, mem_cons_self, p, (Recovery.get_eq_some hs).mp hp, hx, rfl⟩
    · rcases h.tree t ht with ⟨y, hy, rfl, hcount⟩ | ⟨y, hy, q, hq, hab, rfl⟩
      · refine Or.inl ⟨y, mem_cons_of_mem x hy, rfl, fun hab => ?_⟩
        by_cases hyx : y = x
        · subst hyx
          have := count_pos_iff.mpr hy
          rw [count_cons_self]
          omega
        · rw [count_cons_of_ne (Ne.symm hyx)]
          exact hcount ((Recovery.absorbable_remove hs).mpr ⟨hab, hyx⟩)
      · exact Or.inr ⟨y, mem_cons_of_mem x hy, q, (Recovery.mem_remove.mp hq).1,
          ((Recovery.absorbable_remove hs).mp hab).1, rfl⟩
  absorbed y hy q hq hab := by
    by_cases hyx : y = x
    · subst hyx
      have hget := (Recovery.get_eq_some hs).mpr hq
      rw [hp, Option.some.injEq] at hget
      rw [hget]
      exact mem_cons_self
    · have hy' := (mem_cons.mp hy).resolve_left hyx
      exact mem_cons_of_mem _ (h.absorbed y hy' q (Recovery.mem_remove.mpr ⟨hq, hyx⟩)
        ((Recovery.absorbable_remove hs).mpr ⟨hab, hyx⟩))
  unabsorbed y hy hab := by
    have hyx : y ≠ x := fun hyx => hab (hyx ▸ hx)
    have hy' := (mem_cons.mp hy).resolve_left hyx
    exact mem_cons_of_mem _ (h.unabsorbed y hy' fun hab' => hab ((Recovery.absorbable_remove hs).mp hab').1)
  repeated y hab hcount := by
    apply mem_cons_of_mem
    by_cases hyx : y = x
    · subst hyx
      rw [count_cons_self] at hcount
      refine h.unabsorbed y (count_pos_iff.mp (by omega)) ?_
      intro hab'
      exact ((Recovery.absorbable_remove hs).mp hab').2 rfl
    · rw [count_cons_of_ne (Ne.symm hyx)] at hcount
      exact h.repeated y ((Recovery.absorbable_remove hs).mpr ⟨hab, hyx⟩) hcount
  values value store hleaf hvalue := by
    rw [map_cons, map_cons, hvalue x p ((Recovery.get_eq_some hs).mp hp) hx,
      h.values value store hleaf fun y q hq hab =>
        hvalue y q (Recovery.mem_remove.mp hq).1 ((Recovery.absorbable_remove hs).mp hab).1]

theorem Absorbs.cons_leaf (hx : ¬ s.absorbable useCount x) (h : Absorbs useCount s xs trees s') :
    Absorbs useCount s (x :: xs) (.leaf x :: trees) s' where
  overwritten := h.overwritten
  count := h.count
  sublist := h.sublist
  mem_pending e := by
    rw [h.mem_pending, mem_cons]
    by_cases he : e.1 = x
    · rw [he]
      simp [hx]
    · simp [he]
  definitions := h.definitions
  tree t ht := by
    rcases mem_cons.mp ht with rfl | ht
    · exact Or.inl ⟨x, mem_cons_self, rfl, fun hab => absurd hab hx⟩
    · rcases h.tree t ht with ⟨y, hy, rfl, hcount⟩ | ⟨y, hy, q, hq, hab, rfl⟩
      · refine Or.inl ⟨y, mem_cons_of_mem x hy, rfl, fun hab => (hcount hab).trans ?_⟩
        exact count_le_count_cons
      · exact Or.inr ⟨y, mem_cons_of_mem x hy, q, hq, hab, rfl⟩
  absorbed y hy q hq hab := by
    have hyx : y ≠ x := fun hyx => hx (hyx ▸ hab)
    exact mem_cons_of_mem _ (h.absorbed y ((mem_cons.mp hy).resolve_left hyx) q hq hab)
  unabsorbed y hy hab := by
    rcases mem_cons.mp hy with rfl | hy
    · exact mem_cons_self
    · exact mem_cons_of_mem _ (h.unabsorbed y hy hab)
  repeated y hab hcount := by
    have hyx : y ≠ x := fun hyx => hx (hyx ▸ hab)
    rw [count_cons_of_ne (Ne.symm hyx)] at hcount
    exact mem_cons_of_mem _ (h.repeated y hab hcount)
  values value store hleaf hvalue := by
    rw [map_cons, map_cons, hleaf x, h.values value store hleaf hvalue]

theorem operands_absorbs (useCount : ν → Nat) (xs : List ν) (hs : s.Distinct)
    (reads : List (ν × Nat)) : Absorbs useCount s xs (s.operands TracedExpr.builder useCount xs reads).1
      (s.operands TracedExpr.builder useCount xs reads).2.1 := by
  induction xs generalizing s reads with
  | nil => exact .nil useCount s
  | cons x xs ih =>
    rw [Recovery.operands]
    rcases Recovery.operand_cases (s := s) TracedExpr.builder useCount reads x with ⟨hx, p, hp, heq⟩ | ⟨hx, heq⟩
    · rw [heq]
      exact .cons_absorbed hs hx hp (ih (hs.remove x) _)
    · rw [heq]
      exact .cons_leaf hx (ih hs _)

theorem reads_operands (useCount : ν → Nat) (xs : List ν) (hs : s.Distinct) (reads : List (ν × Nat)) :
    ∀ r, r ∈ (s.operands TracedExpr.builder useCount xs reads).2.2 → r ∈ reads ∨ s.generation r.1 = r.2 := by
  induction xs generalizing s reads with
  | nil => exact fun r hr => Or.inl hr
  | cons x xs ih =>
    rw [Recovery.operands]
    rcases Recovery.operand_cases (s := s) TracedExpr.builder useCount reads x with ⟨hx, p, hp, heq⟩ | ⟨hx, heq⟩
    · rw [heq]
      intro r hr
      obtain ⟨_, q, hq, hreads⟩ := Recovery.absorbable_iff.mp hx
      rw [hp, Option.some.injEq] at hq
      subst hq
      rcases ih (hs.remove x) _ r hr with hr | hr
      · exact (mem_append.mp hr).imp_right (hreads r)
      · exact Or.inr hr
    · rw [heq]
      intro r hr
      rcases ih hs _ r hr with hr | hr
      · rcases mem_append.mp hr with hr | hr
        · exact Or.inl hr
        · rw [mem_singleton.mp hr]
          exact Or.inr rfl
      · exact Or.inr hr

theorem leaves_operands (useCount : ν → Nat) (xs : List ν) (hs : s.Distinct)
    (hleaves : ∀ x p, (x, p) ∈ s.pending → ∀ y ∈ p.expression.leaves, ∃ g, (y, g) ∈ p.reads) (reads : List (ν × Nat)) :
    (∀ r ∈ reads, r ∈ (s.operands TracedExpr.builder useCount xs reads).2.2) ∧
      ∀ t ∈ (s.operands TracedExpr.builder useCount xs reads).1, ∀ y ∈ t.leaves,
        ∃ g, (y, g) ∈ (s.operands TracedExpr.builder useCount xs reads).2.2 := by
  induction xs generalizing s reads with
  | nil => exact ⟨fun r hr => hr, fun t ht => absurd ht not_mem_nil⟩
  | cons x xs ih =>
    rw [Recovery.operands]
    rcases Recovery.operand_cases (s := s) TracedExpr.builder useCount reads x with ⟨_, p, hp, heq⟩ | ⟨_, heq⟩
    · rw [heq]
      obtain ⟨hkept, hall⟩ := ih (hs.remove x)
        (fun y q hq => hleaves y q (Recovery.mem_remove.mp hq).1) (reads ++ p.reads)
      refine ⟨fun r hr => hkept r (mem_append_left _ hr), ?_⟩
      intro t ht y hy
      rcases mem_cons.mp ht with rfl | ht
      · obtain ⟨g, hg⟩ := hleaves x p ((Recovery.get_eq_some hs).mp hp) y hy
        exact ⟨g, hkept _ (mem_append_right _ hg)⟩
      · exact hall t ht y hy
    · rw [heq]
      obtain ⟨hkept, hall⟩ := ih hs hleaves (reads ++ [(x, s.generation x)])
      refine ⟨fun r hr => hkept r (mem_append_left _ hr), ?_⟩
      intro t ht y hy
      rcases mem_cons.mp ht with rfl | ht
      · rw [mem_singleton.mp hy]
        exact ⟨_, hkept _ (mem_append_right _ (mem_singleton.mpr rfl))⟩
      · exact hall t ht y hy

end

end CfgLib
