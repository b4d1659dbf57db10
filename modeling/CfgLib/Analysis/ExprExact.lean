import CfgLib.Analysis.ExprMeaning

/-!
# Where the definitions of a block end up

Every definition is a root or part of exactly one later tree, and every leaf
still names a root, exactly when no instruction loses a definition: an
expression has one output, and it absorbs each operand only once.
-/

namespace CfgLib

open Lib List

variable {ι ν ω κ : Type} [LinearOrder ν]

/-- Before an instruction: it loses no definition when, as an expression, it defines one variable only,
and it absorbs an operand only where it has an output to put it in and names the operand once. -/
structure LosesNothing {τ : Type} (I : ExprInstr ι ν ω κ) (useCount : ν → Nat) (a : ι) (s : Recovery ν τ) : Prop where
  output : isExpression I a → ∀ x ∈ I.defs a, (I.defs a).head? = some x
  absorbs : ∀ x ∈ operandsOf I a, s.absorbable useCount x → I.defs a ≠ [] ∧ (operandsOf I a).count x ≤ 1

/-- The first occurrence is elsewhere: two instructions that read a variable read it twice. -/
theorem two_le_useCount {I : ExprInstr ι ν ω κ} {insts : List ι} {x : ν} {j n : Nat} (hjn : j < n)
    (hj : ReadsAt I insts j x) (hn : ReadsAt I insts n x) : 2 ≤ useCount I insts x := by
  obtain ⟨a, ha, hxa⟩ := hj
  obtain ⟨b, hb, hxb⟩ := hn
  have hfirst : 0 < ((insts.take n).flatMap I.uses).count x := by
    refine count_pos_iff.mpr (mem_flatMap.mpr ⟨a, ?_, hxa⟩)
    exact mem_of_getElem? (by rw [getElem?_take_of_lt hjn, ha])
  have hlast : 0 < ((insts.drop n).flatMap I.uses).count x := by
    refine count_pos_iff.mpr (mem_flatMap.mpr ⟨b, ?_, hxb⟩)
    exact mem_of_getElem? (i := 0) (by rw [getElem?_drop, Nat.add_zero, hb])
  unfold useCount
  rw [← take_append_drop n insts, flatMap_append, count_append]
  omega

/-- A variable that is read more than once, or has been read, is never absorbed from there on. -/
def ReadSoFar (I : ExprInstr ι ν ω κ) (insts : List ι) (n : Nat) (x : ν) : Prop :=
  useCount I insts x ≠ 1 ∨ ∃ j < n, ReadsAt I insts j x

theorem ReadSoFar.succ {I : ExprInstr ι ν ω κ} {insts : List ι} {n : Nat} {x : ν} (h : ReadSoFar I insts n x) :
    ReadSoFar I insts (n + 1) x :=
  h.imp_right fun hj => hj.imp fun _ hj => ⟨Nat.lt_succ_of_lt hj.1, hj.2⟩

theorem ReadSoFar.not_absorbable {I : ExprInstr ι ν ω κ} {insts : List ι} {n : Nat} {a : ι} {x : ν} {τ : Type}
    {s : Recovery ν τ} (ha : insts[n]? = some a) (h : ReadSoFar I insts n x) :
    ¬ (x ∈ operandsOf I a ∧ s.absorbable (useCount I insts) x) := by
  rintro ⟨hx, hab⟩
  have hone := (Recovery.absorbable_iff.mp hab).1
  rcases h with hne | ⟨j, hj, hread⟩
  · exact hne hone
  · have := two_le_useCount hj hread ⟨a, ha, operandsOf_used hx⟩
    omega

/-- The definition of a variable is a root, and nothing can absorb it any more. -/
def Kept (I : ExprInstr ι ν ω κ) (insts : List ι) (n : Nat) (s : Recovery ν (TracedExpr ν ω κ)) (d : ν × Nat) : Prop :=
  (∃ t, (d.1, t) ∈ s.entries ∧ t.definition = some d) ∧ ReadSoFar I insts n d.1

/-- What holds before every instruction while nothing has been lost. -/
structure Complete (I : ExprInstr ι ν ω κ) (insts : List ι) (n : Nat) (s : Recovery ν (TracedExpr ν ω κ)) : Prop where
  all : ∀ x k, k < n → Defines I insts k x → (x, k) ∈ treeDefinitions s.entries
  current : ∀ x k, LastDefinition I insts x n k →
    (∃ p, (x, p) ∈ s.pending ∧ p.expression.definition = some (x, k)) ∨
      (useCount I insts x = 1 ∧ ∃ j < n, ReadsAt I insts j x)
  leaves : ∀ e ∈ s.entries, ∀ i, e.2.definition = some (e.1, i) → ∀ y ∈ e.2.leaves, ∀ k,
    LastDefinition I insts y i k → Kept I insts n s (y, k)

section

variable {I : ExprInstr ι ν ω κ} {insts : List ι} {n : Nat} {a : ι}
variable {s s₁ s' : Recovery ν (TracedExpr ν ω κ)} {trees : List (TracedExpr ν ω κ)}
variable {news : List (ν × Pending ν (TracedExpr ν ω κ))}

theorem Stepped.mem_entries_of_kept {useCount : ν → Nat} (h : Stepped I useCount n a s s₁ trees s' news) {x : ν}
    {t : TracedExpr ν ω κ} (hmem : (x, t) ∈ s.entries)
    (hkeep : ¬ (x ∈ operandsOf I a ∧ s.absorbable useCount x)) : (x, t) ∈ s₁.entries :=
  h.entries.symm.subset (mem_append_right _ (h.absorbs.mem_entries hmem hkeep))

theorem Kept.step (h : Stepped I (useCount I insts) n a s s₁ trees s' news) (ha : insts[n]? = some a) {d : ν × Nat}
    (hd : Kept I insts n s d) : Kept I insts (n + 1) s₁ d := by
  obtain ⟨⟨t, hmem, ht⟩, hread⟩ := hd
  exact ⟨⟨t, h.mem_entries_of_kept hmem (hread.not_absorbable ha), ht⟩, hread.succ⟩

theorem Stepped.keeps_definitions (h : Stepped I (useCount I insts) n a s s₁ trees s' news)
    (hloses : LosesNothing I (useCount I insts) a s) {d : ν × Nat} (hd : d ∈ treeDefinitions s.entries) :
    d ∈ treeDefinitions s₁.entries := by
  by_cases hdefs : I.defs a = []
  · rcases mem_append.mp ((h.drops hdefs).subset hd) with hd | hd
    · obtain ⟨t, ht, hd⟩ := mem_flatMap.mp hd
      rcases h.absorbs.tree t ht with ⟨x, _, rfl, _⟩ | ⟨x, hx, _, _, hab, _⟩
      · exact absurd hd not_mem_nil
      · exact absurd hdefs (hloses.absorbs x hx hab).1
    · exact hd
  · exact (h.adds hdefs).symm.subset (mem_append_right _ hd)

theorem Complete.step (hc : Complete I insts n s) (ht : Traced I insts n s) (ha : insts[n]? = some a)
    (h : Stepped I (useCount I insts) n a s s₁ trees s' news) (hloses : LosesNothing I (useCount I insts) a s) :
    Complete I insts (n + 1) s₁ := by
  have hn : n < insts.length := (List.getElem?_eq_some_iff.mp ha).1
  have hnew : ∀ x ∈ I.defs a, ∃ p, (x, p) ∈ news := by
    intro x hx
    obtain ⟨e, he, rfl⟩ := mem_map.mp ((h.keys x).mpr ⟨hx, fun hexp => hloses.output hexp x hx⟩)
    exact ⟨e.2, he⟩
  refine ⟨?_, ?_, ?_⟩
  · intro x k hk hdefines
    rcases Nat.lt_succ_iff_lt_or_eq.mp hk with hk | rfl
    · exact h.keeps_definitions hloses (hc.all x k hk hdefines)
    · rw [defines_iff ha] at hdefines
      obtain ⟨p, hp⟩ := hnew x hdefines
      refine (h.adds (ne_nil_of_mem hdefines)).symm.subset (mem_append_left _ ?_)
      exact mem_map.mpr ⟨(x, p), hp, rfl⟩
  · intro x k hlast
    by_cases hx : x ∈ I.defs a
    · obtain rfl : k = n := by
        refine hlast.unique ⟨Nat.lt_succ_self n, (defines_iff ha).mpr hx, ?_⟩
        intro j hnj hj
        omega
      obtain ⟨p, hp⟩ := hnew x hx
      exact Or.inl ⟨p, h.pending.symm.subset (mem_append_left _ hp), h.definition _ hp⟩
    · have hbefore : LastDefinition I insts x n k := by
        refine hlast.earlier (Nat.le_succ n) ?_
        intro j hnj hj
        obtain rfl : j = n := by omega
        rwa [defines_iff ha]
      rcases hc.current x k hbefore with ⟨p, hp, hdef⟩ | ⟨hone, j, hj, hread⟩
      · by_cases hab : x ∈ operandsOf I a ∧ s.absorbable (useCount I insts) x
        · exact Or.inr ⟨(Recovery.absorbable_iff.mp hab.2).1, n, Nat.lt_succ_self n, a, ha, operandsOf_used hab.1⟩
        · refine Or.inl ⟨p, h.pending.symm.subset (mem_append_right _ (mem_filter.mpr ?_)), hdef⟩
          exact ⟨(h.absorbs.mem_pending _).mpr ⟨hp, hab⟩, decide_eq_true hx⟩
      · exact Or.inr ⟨hone, j, Nat.lt_succ_of_lt hj, hread⟩
  · intro e he i hi y hy k hlast
    rcases h.mem_entries he with ⟨q, hq, rfl⟩ | he
    · have hdefinition := h.definition q hq
      rw [hi, Option.some.injEq, Prod.mk.injEq] at hdefinition
      obtain rfl : i = n := hdefinition.2
      obtain ⟨t, htree, hyt⟩ := (h.leaves q hq y).mp hy
      rcases h.absorbs.tree t htree with ⟨x, hx, rfl, hcount⟩ | ⟨x, hx, p, hp, hab, rfl⟩
      · -- A leaf that the instruction itself makes: nothing absorbs its variable here or later.
        obtain rfl : y = x := mem_singleton.mp hyt
        have hab : ¬ s.absorbable (useCount I insts) y := by
          intro hab
          have := hcount hab
          have := (hloses.absorbs y hx hab).2
          omega
        have hread : ReadsAt I insts i y := ⟨a, ha, operandsOf_used hx⟩
        rcases hc.current y k hlast with ⟨p, hp, hdef⟩ | ⟨hone, j, hj, hread'⟩
        · refine ⟨⟨p.expression, ?_, hdef⟩, Or.inr ⟨i, Nat.lt_succ_self i, hread⟩⟩
          exact h.mem_entries_of_kept (mem_entries_of_pending hp) fun hboth => hab hboth.2
        · have := two_le_useCount hj hread' hread
          omega
      · -- A leaf of an absorbed tree: its variable has not been defined since that tree was made.
        obtain ⟨i', hi', _, _, _⟩ := ht.pending x p hp
        obtain ⟨hin, hnone⟩ := ht.leaf_kept hn.le hp hab hi' hyt
        exact (hc.leaves _ (mem_entries_of_pending hp) i' hi' y hyt k (hlast.earlier hin.le hnone)).step h ha
    · exact (hc.leaves e (h.absorbs.entries_subset he) i hi y hy k hlast).step h ha

theorem complete_recoveryAt (hloses : ∀ k a, insts[k]? = some a →
    LosesNothing I (useCount I insts) a (recoveryAt I TracedExpr.builder insts k)) :
    Complete I insts insts.length (recoveryAt I TracedExpr.builder insts insts.length) := by
  refine (recoveryAt_induct (P := Complete I insts) ?_ ?_ traced_new insts.length (Nat.zero_le _) (Nat.le_refl _)).2
  · exact ⟨fun _ _ hk => absurd hk (Nat.not_lt_zero _), fun _ _ hlast => absurd hlast.lt (Nat.not_lt_zero _),
      fun e he => absurd he not_mem_nil⟩
  · intro n a s s₁ trees s' news _ ha hs ht h hc
    exact hc.step ht ha h (hs ▸ hloses n a ha)

/-! ## What is lost -/

omit [LinearOrder ν] in
theorem isExpression_of_operand {x : ν} (hx : x ∈ operandsOf I a) : isExpression I a := by
  unfold operandsOf at hx
  split at hx
  · next h => simp [isExpression, h]
  · cases hx

/-- With an output, an absorbed tree becomes part of the tree of that output. -/
theorem Stepped.buried {useCount : ν → Nat} (h : Stepped I useCount n a s s₁ trees s' news) (hdefs : I.defs a ≠ [])
    (htrees : trees ≠ []) :
    ∃ q ∈ news, ∀ t ∈ trees, (∀ d ∈ t.definitions, d ∈ q.2.expression.definitions) ∧
      ∀ y ∈ t.leaves, y ∈ q.2.expression.leaves := by
  have hexp : isExpression I a := by
    obtain ⟨t, ht⟩ := exists_mem_of_ne_nil trees htrees
    rcases h.absorbs.tree t ht with ⟨x, hx, _⟩ | ⟨x, hx, _⟩
    · exact isExpression_of_operand hx
    · exact isExpression_of_operand hx
  obtain ⟨x, hhead⟩ : ∃ x, (I.defs a).head? = some x := by
    cases hd : I.defs a with
    | nil => exact absurd hd hdefs
    | cons x _ => exact ⟨x, rfl⟩
  obtain ⟨q, hq, hqx⟩ := mem_map.mp ((h.keys x).mpr ⟨mem_of_head? hhead, fun _ => hhead⟩)
  refine ⟨q, hq, fun t ht => ⟨?_, fun y hy => (h.leaves q hq y).mpr ⟨t, ht, hy⟩⟩⟩
  intro d hd
  have hmem := (h.definitions hdefs).symm.subset
    (mem_append_right _ (mem_flatMap.mpr ⟨t, ht, hd⟩))
  obtain ⟨q', hq', hd'⟩ := mem_flatMap.mp hmem
  have hkey : q'.1 = q.1 := by
    have hhead' := ((h.keys q'.1).mp (mem_map_of_mem hq')).2 hexp
    rw [hhead, Option.some.injEq] at hhead'
    rw [hqx, hhead']
  rwa [← inj_on_of_nodup_map h.nodup hq' hq hkey]

/-- A definition inside a tree that also reads its variable, as it was when the definition was the
last one; or a definition that is nowhere. -/
def Buried (I : ExprInstr ι ν ω κ) (insts : List ι) (d : ν × Nat) (s : Recovery ν (TracedExpr ν ω κ)) : Prop :=
  (∃ e ∈ s.entries, ∃ i, e.2.definition = some (e.1, i) ∧ d ∈ e.2.definitions ∧ d.1 ∈ e.2.leaves ∧
    LastDefinition I insts d.1 i d.2) ∨ d ∉ treeDefinitions s.entries

theorem Stepped.not_mem {useCount : ν → Nat} (h : Stepped I useCount n a s s₁ trees s' news) {d : ν × Nat}
    (hlt : d.2 < n) (hd : d ∉ treeDefinitions s.entries) : d ∉ treeDefinitions s₁.entries := by
  intro hmem
  by_cases hdefs : I.defs a = []
  · exact hd ((h.drops hdefs).symm.subset (mem_append_right _ hmem))
  · rcases mem_append.mp ((h.adds hdefs).subset hmem) with hmem | hmem
    · obtain ⟨e, _, rfl⟩ := mem_map.mp hmem
      exact Nat.lt_irrefl _ hlt
    · exact hd hmem

theorem Stepped.lost {useCount : ν → Nat} (h : Stepped I useCount n a s s₁ trees s' news) (ht : Traced I insts n s)
    (hdefs : I.defs a = []) {t : TracedExpr ν ω κ} (htree : t ∈ trees) {d : ν × Nat} (hd : d ∈ t.definitions) :
    d ∉ treeDefinitions s₁.entries := by
  intro hmem
  have hnodup := (h.drops hdefs).nodup_iff.mp ht.nodup
  exact (nodup_append'.mp hnodup).2.2 (mem_flatMap.mpr ⟨t, htree, hd⟩) hmem

theorem Buried.step {d : ν × Nat} (hb : Buried I insts d s) (ht : Traced I insts n s) (hlt : d.2 < n)
    (ha : insts[n]? = some a) (h : Stepped I (useCount I insts) n a s s₁ trees s' news) : Buried I insts d s₁ := by
  rcases hb with ⟨e, he, i, hi, hd, hleaf, hlast⟩ | hb
  · by_cases he' : e ∈ s'.entries
    · exact Or.inl ⟨e, h.entries.symm.subset (mem_append_right _ he'), i, hi, hd, hleaf, hlast⟩
    · -- The tree is absorbed by this instruction.
      obtain ⟨q, hq, rfl⟩ : ∃ q ∈ s.pending, (q.1, q.2.expression) = e := by
        rcases mem_append.mp he with he | he
        · exact absurd (mem_append_left _ (h.absorbs.overwritten ▸ he)) he'
        · exact mem_map.mp he
      obtain ⟨hx, hab⟩ : q.1 ∈ operandsOf I a ∧ s.absorbable (useCount I insts) q.1 := by
        by_contra hkeep
        exact he' (h.absorbs.mem_entries he hkeep)
      have htree := h.absorbs.absorbed q.1 hx q.2 hq hab
      by_cases hdefs : I.defs a = []
      · exact Or.inr (h.lost ht hdefs htree hd)
      · obtain ⟨q', hq', hall⟩ := h.buried hdefs (ne_nil_of_mem htree)
        obtain ⟨hdefinitions, hleaves⟩ := hall _ htree
        obtain ⟨hin, hnone⟩ := ht.leaf_kept (List.getElem?_eq_some_iff.mp ha).1.le hq hab hi hleaf
        exact Or.inl ⟨_, h.entries.symm.subset (mem_append_left _ (mem_map_of_mem hq')), n,
          h.definition q' hq', hdefinitions d hd, hleaves d.1 hleaf, hlast.later hin.le hnone⟩
  · exact Or.inr (h.not_mem hlt hb)

/-- An instruction that absorbs an operand without an output, or names it twice, buries a definition. -/
theorem Stepped.buries {useCount : ν → Nat} (h : Stepped I useCount n a s s₁ trees s' news) (ht : Traced I insts n s)
    {x : ν} (hx : x ∈ operandsOf I a) (hab : s.absorbable useCount x)
    (hbad : I.defs a = [] ∨ 2 ≤ (operandsOf I a).count x) :
    ∃ k, k < n ∧ Defines I insts k x ∧ Buried I insts (x, k) s₁ := by
  obtain ⟨_, p, hget, _⟩ := Recovery.absorbable_iff.mp hab
  have hp := (Recovery.get_eq_some ht.distinct).mp hget
  obtain ⟨k, hk, hlast, _, _⟩ := ht.pending x p hp
  have htree := h.absorbs.absorbed x hx p hp hab
  have hd := mem_definitions_of_definition hk
  refine ⟨k, hlast.lt, hlast.defines, ?_⟩
  by_cases hdefs : I.defs a = []
  · exact Or.inr (h.lost ht hdefs htree hd)
  · obtain ⟨q, hq, hall⟩ := h.buried hdefs (ne_nil_of_mem htree)
    have hleaf := (hall _ (h.absorbs.repeated x hab (hbad.resolve_left hdefs))).2 x (mem_singleton.mpr rfl)
    exact Or.inl ⟨_, h.entries.symm.subset (mem_append_left _ (mem_map_of_mem hq)), n,
      h.definition q hq, (hall _ htree).1 _ hd, hleaf, hlast⟩

end

/-! ## The roots -/

structure EachOnce (I : ExprInstr ι ν ω κ) (insts : List ι) (roots : List (ν × TracedExpr ν ω κ)) : Prop where
  nodup : (treeDefinitions roots).Nodup
  mem_iff : ∀ d, d ∈ treeDefinitions roots ↔ Defines I insts d.2 d.1
  later : ∀ e ∈ roots, ∃ i, e.2.definition = some (e.1, i) ∧ ∀ d ∈ e.2.definitions, d = (e.1, i) ∨ d.2 < i

/-- Recovered trees keep what the block computes: the value of every root, every definition, and the
definitions that leaves name. -/
structure KeepsMeaning (I : ExprInstr ι ν ω κ) (insts : List ι) (roots : List (ν × TracedExpr ν ω κ)) : Prop where
  values : ∀ {υ : Type} (M : Meaning ω κ υ) (σ : Nat → ν → υ), Executes I insts M σ →
    ∀ e ∈ roots, ∀ i, e.2.definition = some (e.1, i) → e.2.valueAt M σ i = σ (i + 1) e.1
  definitions : EachOnce I insts roots
  leaves : ∀ e ∈ roots, ∀ i, e.2.definition = some (e.1, i) → ∀ y ∈ e.2.leaves, ∀ k,
    LastDefinition I insts y i k → ∃ t, (y, t) ∈ roots ∧ t.definition = some (y, k)

section

variable {I : ExprInstr ι ν ω κ} {insts : List ι}

omit [LinearOrder ν] in
theorem keepsMeaning_congr {roots roots' : List (ν × TracedExpr ν ω κ)} (h : roots.Perm roots') :
    KeepsMeaning I insts roots ↔ KeepsMeaning I insts roots' := by
  have himp : ∀ {roots roots' : List (ν × TracedExpr ν ω κ)}, roots.Perm roots' →
      KeepsMeaning I insts roots → KeepsMeaning I insts roots' := by
    intro roots roots' h hk
    have hdefs : (treeDefinitions roots).Perm (treeDefinitions roots') := h.flatMap_right _
    refine ⟨fun M σ hσ e he => hk.values M σ hσ e (h.symm.subset he), ⟨?_, ?_, ?_⟩, ?_⟩
    · exact hdefs.nodup_iff.mp hk.definitions.nodup
    · intro d
      rw [← hdefs.mem_iff]
      exact hk.definitions.mem_iff d
    · exact fun e he => hk.definitions.later e (h.symm.subset he)
    · intro e he i hi y hy k hlast
      obtain ⟨t, ht, hdef⟩ := hk.leaves e (h.symm.subset he) i hi y hy k hlast
      exact ⟨t, h.subset ht, hdef⟩
  exact ⟨himp h, himp h.symm⟩

theorem keepsMeaning_of_losesNothing (hloses : ∀ k a, insts[k]? = some a →
    LosesNothing I (useCount I insts) a (recoveryAt I TracedExpr.builder insts k)) :
    KeepsMeaning I insts (recoveryAt I TracedExpr.builder insts insts.length).entries := by
  have ht := traced_recoveryAt (I := I) (Nat.le_refl insts.length)
  have hc := complete_recoveryAt hloses
  refine ⟨fun M σ hσ => valued_recoveryAt hσ, ⟨ht.nodup, ?_, ?_⟩, ?_⟩
  · intro d
    constructor
    · intro hd
      obtain ⟨a, ha, hx, _⟩ := (ht.recorded d hd).2
      exact ⟨a, ha, hx⟩
    · rintro ⟨a, ha, hx⟩
      exact hc.all d.1 d.2 (List.getElem?_eq_some_iff.mp ha).1 ⟨a, ha, hx⟩
  · intro e he
    obtain ⟨i, _, h⟩ := ht.entry e he
    exact ⟨i, h⟩
  · intro e he i hi y hy k hlast
    exact (hc.leaves e he i hi y hy k hlast).1

omit [LinearOrder ν] in
theorem Buried.not_keepsMeaning {d : ν × Nat} (hd : Defines I insts d.2 d.1)
    {s : Recovery ν (TracedExpr ν ω κ)} (hb : Buried I insts d s) : ¬ KeepsMeaning I insts s.entries := by
  intro hk
  rcases hb with ⟨e, he, i, hi, hmem, hleaf, hlast⟩ | hb
  · obtain ⟨t, ht, hdef⟩ := hk.leaves e he i hi d.1 hleaf d.2 hlast
    have hdisjoint := (nodup_flatMap.mp hk.definitions.nodup).2
    have hsame : (d.1, t) = e := by
      by_contra hne
      have : Std.Symm (Function.onFun List.Disjoint fun e : ν × TracedExpr ν ω κ => e.2.definitions) :=
        ⟨fun a b hab => List.Disjoint.symm hab⟩
      have hpair := hdisjoint.forall ht he hne
      exact hpair (mem_definitions_of_definition hdef) hmem
    subst hsame
    rw [hdef, Option.some.injEq, Prod.mk.injEq] at hi
    have := hlast.lt
    omega
  · exact hb ((hk.definitions.mem_iff d).mpr hd)

theorem losesNothing_of_keepsMeaning
    (hk : KeepsMeaning I insts (recoveryAt I TracedExpr.builder insts insts.length).entries) {k : Nat} {a : ι}
    (ha : insts[k]? = some a) : LosesNothing I (useCount I insts) a (recoveryAt I TracedExpr.builder insts k) := by
  have hkn : k < insts.length := (List.getElem?_eq_some_iff.mp ha).1
  refine ⟨?_, ?_⟩
  · intro hexp x hx
    have hmem := (hk.definitions.mem_iff (x, k)).mpr ⟨a, ha, hx⟩
    obtain ⟨b, hb, _, hhead⟩ := ((traced_recoveryAt (I := I) (Nat.le_refl insts.length)).recorded _ hmem).2
    rw [ha, Option.some.injEq] at hb
    subst hb
    exact hhead hexp
  · intro x hx hab
    by_contra hbad
    have ht := traced_recoveryAt (I := I) hkn.le
    obtain ⟨trees, s', news, h⟩ := ht.stepped (useCount I insts) a
    have hbad' : I.defs a = [] ∨ 2 ≤ (operandsOf I a).count x := by
      by_cases hdefs : I.defs a = []
      · exact Or.inl hdefs
      · refine Or.inr ?_
        by_contra hcount
        exact hbad ⟨hdefs, by omega⟩
    obtain ⟨i, hi, hdefines, hburied⟩ := h.buries ht hx hab hbad'
    rw [← recoveryAt_succ _ ha] at hburied
    have hlast := (recoveryAt_induct (P := fun _ s => Buried I insts (x, i) s) hburied
      (fun n b s s₁ trees s' news hkn hb _ ht h hP => hP.step ht (by omega) hb h)
      (traced_recoveryAt hkn) insts.length hkn (Nat.le_refl _)).2
    exact hlast.not_keepsMeaning hdefines hk

end

/-- The recovered trees of a block, with the definitions their nodes stand for.  They keep its meaning
exactly when no instruction loses a definition. -/
theorem recovered_exact {π : Type} (I : ExprInstr ι ν ω κ) (c : Cfg ι π) (block : Nat) :
    ((recoverBlockExpressions I c block).roots =
      (recoverWith I TracedExpr.builder (c.instructions block)).map fun e => (e.1, e.2.erase block)) ∧
    (KeepsMeaning I (c.instructions block) (recoverWith I TracedExpr.builder (c.instructions block)) ↔
      ∀ k a, (c.instructions block)[k]? = some a →
        LosesNothing I (useCount I (c.instructions block)) a
          (recoveryAt I (ExprNode.builder block) (c.instructions block) k)) := by
  refine ⟨recoverWith_map (TracedExpr.hom_erase block) I _, ?_⟩
  rw [keepsMeaning_congr (recoverWith_perm I _ _)]
  generalize c.instructions block = insts
  have htransfer : ∀ k a, LosesNothing I (useCount I insts) a (recoveryAt I (ExprNode.builder block) insts k) ↔
      LosesNothing I (useCount I insts) a (recoveryAt I TracedExpr.builder insts k) := by
    intro k a
    rw [recoveryAt_map (TracedExpr.hom_erase block)]
    constructor
    · intro h
      exact ⟨h.output, fun x hx hab => h.absorbs x hx (by rwa [Recovery.absorbable_map])⟩
    · intro h
      exact ⟨h.output, fun x hx hab => h.absorbs x hx (by rwa [Recovery.absorbable_map] at hab)⟩
  constructor
  · intro hk k a ha
    exact (htransfer k a).mpr (losesNothing_of_keepsMeaning hk ha)
  · intro h
    exact keepsMeaning_of_losesNothing fun k a ha => (htransfer k a).mp (h k a ha)

/-- Instructions given by their operands and their outputs. -/
def arithmetic : ExprInstr (List Nat × List Nat) Nat Unit Unit where
  uses a := a.1
  defs a := a.2
  mayUnwind _ := false
  asExpr a := some ((), a.1)
  asConst _ := none
  operands_used a operator operands h x hx := by
    cases h
    exact hx

def flaggedSum : Cfg (List Nat × List Nat) Unit := Cfg.ofParts [[([1, 2], [10, 9])]] []

/-- The flags are neither a root nor part of a tree. -/
theorem flaggedSum_loses : ¬ KeepsMeaning arithmetic (flaggedSum.instructions 0)
    (recoverWith arithmetic TracedExpr.builder (flaggedSum.instructions 0)) := by
  intro hk
  have hmem := (hk.definitions.mem_iff (9, 0)).mpr ⟨([1, 2], [10, 9]), rfl, by decide⟩
  have hperm := (recoverWith_perm arithmetic TracedExpr.builder (flaggedSum.instructions 0)).flatMap_right
    fun e => e.2.definitions
  exact absurd (hperm.subset hmem) (by decide)

end CfgLib
