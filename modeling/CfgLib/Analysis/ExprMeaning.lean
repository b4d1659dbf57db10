import CfgLib.Analysis.ExprStep

/-!
# What recovered expressions keep

The value of every root, whatever the block; and where each definition of the
block ends up, which the recovery loses exactly where an expression has a second
output, has no output, or names an operand twice that it absorbs.
-/

namespace CfgLib

open Lib List

variable {ι ν ω κ : Type}

/-! ## Definitions and reads of a block -/

def Defines (I : ExprInstr ι ν ω κ) (insts : List ι) (k : Nat) (x : ν) : Prop :=
  ∃ a, insts[k]? = some a ∧ x ∈ I.defs a

def ReadsAt (I : ExprInstr ι ν ω κ) (insts : List ι) (k : Nat) (x : ν) : Prop :=
  ∃ a, insts[k]? = some a ∧ x ∈ I.uses a

/-- The last instruction before an index that defines a variable. -/
structure LastDefinition (I : ExprInstr ι ν ω κ) (insts : List ι) (x : ν) (n k : Nat) : Prop where
  lt : k < n
  defines : Defines I insts k x
  last : ∀ j, k < j → j < n → ¬ Defines I insts j x

/-- How often the first instructions define a variable. -/
def defCount [DecidableEq ν] (I : ExprInstr ι ν ω κ) (insts : List ι) (n : Nat) (x : ν) : Nat :=
  ((insts.take n).flatMap I.defs).count x

section

variable {I : ExprInstr ι ν ω κ} {insts : List ι} {n : Nat} {a : ι} {x : ν}

theorem defines_iff (ha : insts[n]? = some a) : Defines I insts n x ↔ x ∈ I.defs a := by
  unfold Defines
  rw [ha]
  simp

variable {k m : Nat}

theorem LastDefinition.succ (h : LastDefinition I insts x n k) (hx : ¬ Defines I insts n x) :
    LastDefinition I insts x (n + 1) k := by
  refine ⟨Nat.lt_succ_of_lt h.lt, h.defines, ?_⟩
  intro j hkj hj
  rcases Nat.lt_succ_iff_lt_or_eq.mp hj with hj | rfl
  · exact h.last j hkj hj
  · exact hx

theorem LastDefinition.unique {k' : Nat} (h : LastDefinition I insts x n k) (h' : LastDefinition I insts x n k') :
    k = k' := by
  rcases Nat.lt_trichotomy k k' with hlt | heq | hlt
  · exact absurd h'.defines (h.last k' hlt h'.lt)
  · exact heq
  · exact absurd h.defines (h'.last k hlt h.lt)

theorem LastDefinition.later (h : LastDefinition I insts x m k) (hmn : m ≤ n)
    (hnone : ∀ j, m ≤ j → j < n → ¬ Defines I insts j x) : LastDefinition I insts x n k := by
  refine ⟨Nat.lt_of_lt_of_le h.lt hmn, h.defines, ?_⟩
  intro j hkj hj
  rcases Nat.lt_or_ge j m with hjm | hjm
  · exact h.last j hkj hjm
  · exact hnone j hjm hj

theorem LastDefinition.earlier (h : LastDefinition I insts x n k) (hmn : m ≤ n)
    (hnone : ∀ j, m ≤ j → j < n → ¬ Defines I insts j x) : LastDefinition I insts x m k := by
  refine ⟨?_, h.defines, fun j hkj hj => h.last j hkj (Nat.lt_of_lt_of_le hj hmn)⟩
  by_contra hkm
  exact hnone k (Nat.not_lt.mp hkm) h.lt h.defines

variable [DecidableEq ν]

theorem defCount_succ (ha : insts[n]? = some a) :
    defCount I insts (n + 1) x = defCount I insts n x + (I.defs a).count x := by
  unfold defCount
  rw [take_add_one, ha, flatMap_append, count_append]
  simp

theorem not_defines_of_defCount_eq (hmn : m ≤ n) (hn : n ≤ insts.length)
    (h : defCount I insts m x = defCount I insts n x) : ∀ j, m ≤ j → j < n → ¬ Defines I insts j x := by
  have hmono : ∀ k, m + k ≤ insts.length → defCount I insts m x ≤ defCount I insts (m + k) x ∧
      (defCount I insts m x = defCount I insts (m + k) x → ∀ j, m ≤ j → j < m + k → ¬ Defines I insts j x) := by
    intro k
    induction k with
    | zero => exact fun _ => ⟨Nat.le_refl _, fun _ j hmj hj => absurd hj (by omega)⟩
    | succ k ih =>
      intro hk
      obtain ⟨hle, hnone⟩ := ih (by omega)
      have hlast : insts[m + k]? = some (insts.get ⟨m + k, by omega⟩) := getElem?_eq_getElem (by omega)
      have hsucc := defCount_succ (I := I) (x := x) hlast
      rw [← Nat.add_assoc, hsucc]
      refine ⟨by omega, fun heq j hmj hj => ?_⟩
      rcases Nat.lt_or_ge j (m + k) with hjk | hjk
      · exact hnone (by omega) j hmj hjk
      · obtain rfl : j = m + k := by omega
        rw [defines_iff hlast]
        exact count_eq_zero.mp (by omega)
  obtain ⟨k, rfl⟩ : ∃ k, n = m + k := ⟨n - m, by omega⟩
  exact (hmono k hn).2 h

end

/-! ## Every run -/

def treeDefinitions (entries : List (ν × TracedExpr ν ω κ)) : List (ν × Nat) :=
  entries.flatMap fun e => e.2.definitions

/-- The instruction at an index defines the variable, and if it is an expression the variable is its
first output. -/
def Recorded (I : ExprInstr ι ν ω κ) (insts : List ι) (d : ν × Nat) : Prop :=
  ∃ a, insts[d.2]? = some a ∧ d.1 ∈ I.defs a ∧ (isExpression I a → (I.defs a).head? = some d.1)

theorem mem_definitions_of_definition {t : TracedExpr ν ω κ} {d : ν × Nat} (h : t.definition = some d) :
    d ∈ t.definitions := by
  cases t with
  | leaf read => cases h
  | op made instIdx operator operands =>
    cases made with
    | none => cases h
    | some x =>
      cases h
      exact mem_append_left _ (mem_singleton.mpr rfl)
  | const made instIdx value =>
    cases made with
    | none => cases h
    | some x =>
      cases h
      exact mem_singleton.mpr rfl
  | opaqueInst made instIdx =>
    cases h
    exact mem_singleton.mpr rfl

variable [LinearOrder ν]

/-- What holds of the traced run before every instruction. -/
structure Traced (I : ExprInstr ι ν ω κ) (insts : List ι) (n : Nat) (s : Recovery ν (TracedExpr ν ω κ)) : Prop where
  distinct : s.Distinct
  count : ∀ x, s.definitionCount x = defCount I insts n x
  entry : ∀ e ∈ s.entries, ∃ i, i < n ∧ e.2.definition = some (e.1, i) ∧
    ∀ d ∈ e.2.definitions, d = (e.1, i) ∨ d.2 < i
  pending : ∀ x p, (x, p) ∈ s.pending → ∃ i, p.expression.definition = some (x, i) ∧
    LastDefinition I insts x n i ∧ (∀ r ∈ p.reads, defCount I insts i r.1 = r.2) ∧
      ∀ y ∈ p.expression.leaves, ∃ g, (y, g) ∈ p.reads
  nodup : (treeDefinitions s.entries).Nodup
  recorded : ∀ d ∈ treeDefinitions s.entries, d.2 < n ∧ Recorded I insts d

section

variable {I : ExprInstr ι ν ω κ} {insts : List ι} {n : Nat} {a : ι} {useCount : ν → Nat}
variable {s s₁ s' : Recovery ν (TracedExpr ν ω κ)} {trees : List (TracedExpr ν ω κ)}
variable {news : List (ν × Pending ν (TracedExpr ν ω κ))}

omit [LinearOrder ν] in
theorem mem_entries_of_pending {x : ν} {p : Pending ν (TracedExpr ν ω κ)} (h : (x, p) ∈ s.pending) :
    (x, p.expression) ∈ s.entries :=
  mem_append_right _ (mem_map.mpr ⟨(x, p), h, rfl⟩)

variable {p : Pending ν (TracedExpr ν ω κ)} {t : TracedExpr ν ω κ} {x : ν}

theorem Traced.reads_kept (ht : Traced I insts n s) (hp : (x, p) ∈ s.pending)
    (hx : s.absorbable useCount x) {r : ν × Nat} (hr : r ∈ p.reads) : defCount I insts n r.1 = r.2 := by
  obtain ⟨_, q, hq, hreads⟩ := Recovery.absorbable_iff.mp hx
  rw [(Recovery.get_eq_some ht.distinct).mpr hp, Option.some.injEq] at hq
  subst hq
  rw [← ht.count]
  exact hreads r hr

theorem Traced.leaf_kept (ht : Traced I insts n s) (hn : n ≤ insts.length)
    (hp : (x, p) ∈ s.pending) (hx : s.absorbable useCount x) {i : Nat}
    (hi : p.expression.definition = some (x, i)) {y : ν} (hy : y ∈ p.expression.leaves) :
    i < n ∧ ∀ j, i ≤ j → j < n → ¬ Defines I insts j y := by
  obtain ⟨i', hi', hlast, hreads, hleaves⟩ := ht.pending x p hp
  rw [hi, Option.some.injEq, Prod.mk.injEq] at hi'
  obtain rfl := hi'.2
  obtain ⟨g, hg⟩ := hleaves y hy
  refine ⟨hlast.lt, not_defines_of_defCount_eq hlast.lt.le hn ?_⟩
  rw [hreads _ hg, ht.reads_kept hp hx hg]

theorem Absorbs.mem_entries (h : Absorbs useCount s (operandsOf I a) trees s')
    (hmem : (x, t) ∈ s.entries) (hkeep : ¬ (x ∈ operandsOf I a ∧ s.absorbable useCount x)) : (x, t) ∈ s'.entries := by
  rcases mem_append.mp hmem with hmem | hmem
  · exact mem_append_left _ (h.overwritten ▸ hmem)
  · obtain ⟨e, he, heq⟩ := mem_map.mp hmem
    obtain ⟨rfl, rfl⟩ := Prod.mk.inj heq
    exact mem_append_right _ (mem_map.mpr ⟨e, (h.mem_pending e).mpr ⟨he, hkeep⟩, rfl⟩)

theorem Absorbs.entries_subset (h : Absorbs useCount s (operandsOf I a) trees s') : s'.entries ⊆ s.entries := by
  intro e he
  rcases mem_append.mp he with he | he
  · exact mem_append_left _ (h.overwritten ▸ he)
  · obtain ⟨q, hq, rfl⟩ := mem_map.mp he
    exact mem_append_right _ (mem_map_of_mem (h.sublist.subset hq))

theorem Absorbs.treeDefinitions_perm (h : Absorbs useCount s (operandsOf I a) trees s') :
    (treeDefinitions s.entries).Perm (trees.flatMap (·.definitions) ++ treeDefinitions s'.entries) := by
  have hsplit : ∀ q : Recovery ν (TracedExpr ν ω κ), treeDefinitions q.entries =
      treeDefinitions q.overwritten ++ q.pendingDefinitions := by
    intro q
    unfold treeDefinitions Recovery.entries Recovery.pendingDefinitions
    rw [flatMap_append, flatMap_map]
  rw [hsplit, hsplit, h.overwritten]
  exact (h.definitions.append_left _).trans (perm_append_comm_assoc _ _ _)

theorem Stepped.treeDefinitions_perm (h : Stepped I useCount n a s s₁ trees s' news) :
    (treeDefinitions s₁.entries).Perm
      ((news.flatMap fun e => e.2.expression.definitions) ++ treeDefinitions s'.entries) := by
  refine (h.entries.flatMap_right _).trans ?_
  rw [flatMap_append, flatMap_map]
  exact List.Perm.refl _

theorem Stepped.adds (h : Stepped I useCount n a s s₁ trees s' news) (hdefs : I.defs a ≠ []) :
    (treeDefinitions s₁.entries).Perm ((news.map fun e => (e.1, n)) ++ treeDefinitions s.entries) := by
  refine h.treeDefinitions_perm.trans ?_
  refine ((h.definitions hdefs).append_right _).trans ?_
  rw [append_assoc]
  exact h.absorbs.treeDefinitions_perm.symm.append_left _

theorem Stepped.drops (h : Stepped I useCount n a s s₁ trees s' news) (hdefs : I.defs a = []) :
    (treeDefinitions s.entries).Perm (trees.flatMap (·.definitions) ++ treeDefinitions s₁.entries) := by
  have hnews : news = [] := by
    cases hn : news with
    | nil => rfl
    | cons e rest =>
      have hkey := ((h.keys e.1).mp (by rw [hn]; exact mem_cons_self)).1
      rw [hdefs] at hkey
      exact absurd hkey not_mem_nil
  have hperm := h.treeDefinitions_perm
  rw [hnews] at hperm
  exact h.absorbs.treeDefinitions_perm.trans (hperm.symm.append_left _)

theorem Stepped.mem_entries (h : Stepped I useCount n a s s₁ trees s' news) {e : ν × TracedExpr ν ω κ}
    (he : e ∈ s₁.entries) : (∃ q ∈ news, (q.1, q.2.expression) = e) ∨ e ∈ s'.entries :=
  (mem_append.mp (h.entries.subset he)).imp_left mem_map.mp

theorem Stepped.definition_of_mem (ht : Traced I insts n s) (h : Stepped I useCount n a s s₁ trees s' news)
    (hmem : t ∈ trees) {d : ν × Nat} (hd : d ∈ t.definitions) : d.2 < n := by
  have hall := h.absorbs.treeDefinitions_perm.symm.subset
    (mem_append_left _ (mem_flatMap.mpr ⟨t, hmem, hd⟩))
  exact (ht.recorded d hall).1

theorem Traced.step (ht : Traced I insts n s) (ha : insts[n]? = some a)
    (h : Stepped I useCount n a s s₁ trees s' news) : Traced I insts (n + 1) s₁ := by
  have hkeys : ∀ e ∈ news, e.1 ∈ I.defs a ∧ (isExpression I a → (I.defs a).head? = some e.1) := fun e he =>
    (h.keys e.1).mp (mem_map_of_mem he)
  have hmem : ∀ e, e ∈ s₁.pending → e ∈ news ∨ e ∈ s.pending ∧ e.1 ∉ I.defs a := by
    intro e he
    refine (mem_append.mp (h.pending.subset he)).imp_right fun he => ?_
    obtain ⟨he, hdefs⟩ := mem_filter.mp he
    exact ⟨h.absorbs.sublist.subset he, of_decide_eq_true hdefs⟩
  refine ⟨?_, ?_, ?_, ?_, ?_, ?_⟩
  · refine (h.pending.map _).nodup_iff.mpr ?_
    rw [map_append, nodup_append']
    refine ⟨h.nodup, ?_, ?_⟩
    · exact ht.distinct.sublist ((filter_sublist.trans h.absorbs.sublist).map _)
    · intro x hx hx'
      obtain ⟨e, he, rfl⟩ := mem_map.mp hx'
      exact of_decide_eq_true (mem_filter.mp he).2 ((h.keys e.1).mp hx).1
  · intro x
    rw [h.count, ht.count, defCount_succ ha]
  · intro e he
    rcases h.mem_entries he with ⟨q, hq, rfl⟩ | he
    · refine ⟨n, Nat.lt_succ_self n, h.definition q hq, ?_⟩
      intro d hd
      rcases h.nodes q hq d hd with hd | ⟨t, htree, hd⟩
      · exact Or.inl hd
      · exact Or.inr (h.definition_of_mem ht htree hd)
    · obtain ⟨i, hi, hrest⟩ := ht.entry e (h.absorbs.entries_subset he)
      exact ⟨i, Nat.lt_succ_of_lt hi, hrest⟩
  · intro x p hp
    rcases hmem (x, p) hp with hp | ⟨hp, hx⟩
    · refine ⟨n, h.definition _ hp, ⟨Nat.lt_succ_self n, (defines_iff ha).mpr (hkeys _ hp).1, ?_⟩, ?_, ?_⟩
      · intro j hnj hj
        omega
      · intro r hr
        rw [← ht.count]
        exact (h.reads _ hp).1 r hr
      · exact (h.reads _ hp).2
    · obtain ⟨i, hi, hlast, hrest⟩ := ht.pending x p hp
      exact ⟨i, hi, hlast.succ (by rwa [defines_iff ha]), hrest⟩
  · by_cases hdefs : I.defs a = []
    · exact (nodup_append'.mp ((h.drops hdefs).nodup_iff.mp ht.nodup)).2.1
    · refine (h.adds hdefs).nodup_iff.mpr (nodup_append'.mpr ⟨?_, ht.nodup, ?_⟩)
      · have hnodup := h.nodup.map (f := fun x => (x, n)) fun x y hxy => (Prod.mk.inj hxy).1
        rwa [map_map] at hnodup
      · intro d hd hd'
        obtain ⟨e, _, rfl⟩ := mem_map.mp hd
        exact Nat.lt_irrefl n (ht.recorded _ hd').1
  · intro d hd
    by_cases hdefs : I.defs a = []
    · have hold := (h.drops hdefs).symm.subset (mem_append_right _ hd)
      exact ⟨Nat.lt_succ_of_lt (ht.recorded d hold).1, (ht.recorded d hold).2⟩
    · rcases mem_append.mp ((h.adds hdefs).subset hd) with hd | hd
      · obtain ⟨e, he, rfl⟩ := mem_map.mp hd
        exact ⟨Nat.lt_succ_self n, a, ha, hkeys e he⟩
      · exact ⟨Nat.lt_succ_of_lt (ht.recorded d hd).1, (ht.recorded d hd).2⟩

theorem recoveryAt_succ {τ : Type} (B : TreeBuilder ν ω κ τ) (ha : insts[n]? = some a) :
    recoveryAt I B insts (n + 1) = (recoveryAt I B insts n).take I B (CfgLib.useCount I insts) (a, n) := by
  unfold recoveryAt
  have hentry : insts.zipIdx[n]? = some (a, n) := by
    rw [getElem?_zipIdx, ha, Option.map_some, Nat.zero_add]
  rw [take_add_one, hentry, foldl_append]
  rfl

theorem traced_new : Traced I insts 0 (Recovery.new : Recovery ν (TracedExpr ν ω κ)) := by
  refine ⟨nodup_nil, fun x => ?_, fun e he => absurd he not_mem_nil,
    fun x p hp => absurd hp not_mem_nil, nodup_nil, fun d hd => absurd hd not_mem_nil⟩
  simp [Recovery.new, defCount]

theorem Traced.stepped (ht : Traced I insts n s) (useCount : ν → Nat) (a : ι) : ∃ trees s' news,
    Stepped I useCount n a s (s.take I TracedExpr.builder useCount (a, n)) trees s' news :=
  take_stepped I useCount n a ht.distinct fun x p hp => (ht.pending x p hp).elim fun _ h => h.2.2.2

/-- What holds at the start and is kept by every instruction holds before every instruction. -/
theorem recoveryAt_induct {P : Nat → Recovery ν (TracedExpr ν ω κ) → Prop} {m : Nat}
    (hstart : P m (recoveryAt I TracedExpr.builder insts m))
    (hstep : ∀ n a s s₁ trees s' news, m ≤ n → insts[n]? = some a → s = recoveryAt I TracedExpr.builder insts n →
      Traced I insts n s → Stepped I (CfgLib.useCount I insts) n a s s₁ trees s' news → P n s → P (n + 1) s₁)
    (htraced : Traced I insts m (recoveryAt I TracedExpr.builder insts m)) :
    ∀ n, m ≤ n → n ≤ insts.length → Traced I insts n (recoveryAt I TracedExpr.builder insts n) ∧
      P n (recoveryAt I TracedExpr.builder insts n) := by
  intro n hmn hn
  induction n, hmn using Nat.le_induction with
  | base => exact ⟨htraced, hstart⟩
  | succ n hmn ih =>
    obtain ⟨ht, hP⟩ := ih (by omega)
    obtain ⟨a, ha⟩ : ∃ a, insts[n]? = some a := ⟨_, getElem?_eq_getElem hn⟩
    obtain ⟨trees, s', news, h⟩ := ht.stepped (CfgLib.useCount I insts) a
    rw [recoveryAt_succ _ ha]
    exact ⟨ht.step ha h, hstep n a _ _ trees s' news hmn ha rfl ht h hP⟩

theorem traced_recoveryAt (hn : n ≤ insts.length) :
    Traced I insts n (recoveryAt I TracedExpr.builder insts n) :=
  (recoveryAt_induct (P := fun _ _ => True) trivial (fun _ _ _ _ _ _ _ _ _ _ _ _ _ => trivial) traced_new n
    (Nat.zero_le n) hn).1

end

/-! ## Values -/

/-- An execution of the instructions, as the stores between them: a constant and an expression give
their first output what they mean, and no instruction touches what it does not define. -/
structure Executes {υ : Type} (I : ExprInstr ι ν ω κ) (insts : List ι) (M : Meaning ω κ υ) (σ : Nat → ν → υ) :
    Prop where
  frame : ∀ k a, insts[k]? = some a → ∀ x ∉ I.defs a, σ (k + 1) x = σ k x
  const : ∀ k a c x, insts[k]? = some a → I.asConst a = some c → (I.defs a).head? = some x →
    σ (k + 1) x = M.constant c
  expr : ∀ k a operator operands x, insts[k]? = some a → I.asConst a = none →
    I.asExpr a = some (operator, operands) → (I.defs a).head? = some x →
      σ (k + 1) x = M.apply operator (operands.map (σ k))

/-- The value of a tree just before an instruction; an opaque definition is what its instruction
gave the variable. -/
def TracedExpr.valueAt {υ : Type} (M : Meaning ω κ υ) (σ : Nat → ν → υ) (i : Nat) (t : TracedExpr ν ω κ) : υ :=
  t.eval M (σ i) fun x j => σ (j + 1) x

section

variable {υ : Type} {I : ExprInstr ι ν ω κ} {insts : List ι} {M : Meaning ω κ υ} {σ : Nat → ν → υ}

omit [LinearOrder ν] in
theorem Executes.frame_run (h : Executes I insts M σ) {x : ν} {m n : Nat} (hmn : m ≤ n) (hn : n ≤ insts.length)
    (hnone : ∀ j, m ≤ j → j < n → ¬ Defines I insts j x) : σ n x = σ m x := by
  induction n, hmn using Nat.le_induction with
  | base => rfl
  | succ n hmn ih =>
    obtain ⟨a, ha⟩ : ∃ a, insts[n]? = some a := ⟨_, getElem?_eq_getElem hn⟩
    have hx := hnone n hmn (Nat.lt_succ_self n)
    rw [defines_iff ha] at hx
    rw [h.frame n a ha x hx, ih (by omega) fun j hmj hj => hnone j hmj (by omega)]

/-- Every tree has the value of the definition it stands for. -/
def Valued (M : Meaning ω κ υ) (σ : Nat → ν → υ) (entries : List (ν × TracedExpr ν ω κ)) : Prop :=
  ∀ e ∈ entries, ∀ i, e.2.definition = some (e.1, i) → e.2.valueAt M σ i = σ (i + 1) e.1

variable {n : Nat} {s : Recovery ν (TracedExpr ν ω κ)} {useCount : ν → Nat}

theorem Valued.absorbable
    (hv : Valued M σ s.entries) (hσ : Executes I insts M σ) (ht : Traced I insts n s) (hn : n ≤ insts.length)
    {x : ν} {p : Pending ν (TracedExpr ν ω κ)} (hp : (x, p) ∈ s.pending) (hx : s.absorbable useCount x) :
    p.expression.valueAt M σ n = σ n x := by
  obtain ⟨i, hi, hlast, _, _⟩ := ht.pending x p hp
  have hleaves : p.expression.valueAt M σ n = p.expression.valueAt M σ i := by
    apply TracedExpr.eval_congr
    intro y hy
    obtain ⟨hin, hnone⟩ := ht.leaf_kept hn hp hx hi hy
    exact hσ.frame_run hin.le hn hnone
  rw [hleaves, hv _ (mem_entries_of_pending hp) i hi]
  exact (hσ.frame_run hlast.lt hn fun j hij hj => hlast.last j hij hj).symm

theorem Valued.step {a : ι} {s₁ s' : Recovery ν (TracedExpr ν ω κ)}
    {trees : List (TracedExpr ν ω κ)} {news : List (ν × Pending ν (TracedExpr ν ω κ))}
    (hv : Valued M σ s.entries) (hσ : Executes I insts M σ) (ht : Traced I insts n s) (hn : n ≤ insts.length)
    (ha : insts[n]? = some a) (h : Stepped I useCount n a s s₁ trees s' news) : Valued M σ s₁.entries := by
  intro e he i hi
  rcases h.mem_entries he with ⟨q, hq, rfl⟩ | he
  · have hdefinition := h.definition q hq
    rw [hi, Option.some.injEq, Prod.mk.injEq] at hdefinition
    obtain rfl : i = n := hdefinition.2
    rcases h.value M (σ i) (fun x j => σ (j + 1) x) q hq with ⟨c, hc, hhead, heval⟩ |
      ⟨operator, hc, hop, hhead, heval⟩ | heval
    · exact heval.trans (hσ.const i a c q.1 ha hc hhead).symm
    · have hoperands : trees.map (·.valueAt M σ i) = (operandsOf I a).map (σ i) :=
        h.absorbs.values _ _ (fun _ => rfl) fun x p hp hx => hv.absorbable hσ ht hn hp hx
      refine heval.trans ?_
      rw [hσ.expr i a operator _ q.1 ha hc hop hhead, ← hoperands]
      rfl
    · exact heval
  · exact hv e (h.absorbs.entries_subset he) i hi

theorem valued_recoveryAt (hσ : Executes I insts M σ) :
    Valued M σ (recoveryAt I TracedExpr.builder insts insts.length).entries := by
  refine (recoveryAt_induct (P := fun _ s => Valued M σ s.entries) ?_ ?_ traced_new insts.length
    (Nat.zero_le _) (Nat.le_refl _)).2
  · exact fun e he => absurd he not_mem_nil
  · intro n a s s₁ trees s' news _ ha _ ht h hv
    have hn : n < insts.length := (List.getElem?_eq_some_iff.mp ha).1
    exact hv.step hσ ht hn.le ha h

end

end CfgLib
