import CfgLib.Analysis.ExprTrace

/-!
# One instruction of a recovery

What an instruction does to a traced run, whichever kind it is: some pending
definitions are absorbed, those it redefines move to the overwritten ones, and
its own definitions become pending.
-/

namespace CfgLib

open Lib List

namespace Recovery

variable {ν ω κ τ : Type} [LinearOrder ν] {s : Recovery ν τ}

/-! ## Redefinitions -/

theorem pending_redefineAll (defs : List ν) (s : Recovery ν τ) :
    (s.redefineAll defs).pending = s.pending.filter fun e => e.1 ∉ defs := by
  unfold redefineAll
  induction defs generalizing s with
  | nil => simp
  | cons x defs ih =>
    rw [foldl_cons, ih]
    change (s.pending.filter _).filter _ = _
    rw [filter_filter]
    apply filter_congr
    intro e _
    simp [mem_cons, Bool.and_comm]

theorem definitionCount_redefineAll (defs : List ν) (s : Recovery ν τ) (x : ν) :
    (s.redefineAll defs).definitionCount x = s.definitionCount x + defs.count x := by
  unfold redefineAll
  induction defs generalizing s with
  | nil => rfl
  | cons y defs ih =>
    rw [foldl_cons, ih, count_cons]
    simp only [redefine, beq_iff_eq]
    by_cases hxy : x = y
    · rw [if_pos hxy, if_pos hxy.symm]
      omega
    · rw [if_neg hxy, if_neg (Ne.symm hxy)]
      rfl

theorem Distinct.redefineAll (h : s.Distinct) (defs : List ν) : (s.redefineAll defs).Distinct := by
  unfold Distinct
  rw [pending_redefineAll]
  exact h.sublist (filter_sublist.map _)

theorem entries_redefine (h : s.Distinct) (x : ν) : (s.redefine x).entries.Perm s.entries := by
  unfold entries redefine
  cases hx : s.get x with
  | none =>
    simp only [Option.toList_none, map_nil, append_nil, remove_of_get_eq_none h hx]
    exact List.Perm.refl _
  | some p =>
    simp only [Option.toList_some, map_cons, map_nil, append_assoc, singleton_append]
    have hperm := (pending_perm h hx).map fun e => (e.1, e.2.expression)
    exact hperm.symm.append_left s.overwritten

theorem entries_redefineAll (defs : List ν) (h : s.Distinct) :
    (s.redefineAll defs).entries.Perm s.entries := by
  unfold redefineAll
  induction defs generalizing s with
  | nil => exact List.Perm.refl _
  | cons x defs ih =>
    rw [foldl_cons]
    exact (ih (h.redefineAll [x])).trans (entries_redefine h x)

/-! ## New definitions -/

variable {x : ν}

theorem pending_insert (h : ∀ e ∈ s.pending, e.1 ≠ x) (definition : Pending ν τ) :
    (s.insert x definition).pending = (x, definition) :: s.pending := by
  unfold insert remove
  rw [filter_eq_self.mpr]
  intro e he
  simpa using h e he

theorem entries_insert (h : ∀ e ∈ s.pending, e.1 ≠ x) (definition : Pending ν τ) :
    (s.insert x definition).entries.Perm ((x, definition.expression) :: s.entries) := by
  unfold entries
  rw [pending_insert h, map_cons]
  exact perm_middle

theorem pending_defineOpaque (B : TreeBuilder ν ω κ τ) (instIdx : Nat) (reads : List (ν × Nat)) (h : s.Distinct)
    (defs : List ν) (hdefs : ∀ e ∈ s.pending, e.1 ∉ defs) :
    (s.defineOpaque B instIdx reads defs).overwritten = s.overwritten ∧
      (s.defineOpaque B instIdx reads defs).definitionCount = s.definitionCount ∧
        ∃ l : List ν, l.Nodup ∧ (∀ x, x ∈ l ↔ x ∈ defs) ∧ (s.defineOpaque B instIdx reads defs).pending.Perm
          ((l.map fun x => (x, ⟨B.opaqueInst x instIdx, reads⟩)) ++ s.pending) := by
  induction defs using List.reverseRecOn with
  | nil => exact ⟨rfl, rfl, [], nodup_nil, fun _ => Iff.rfl, List.Perm.refl _⟩
  | append_singleton defs x ih =>
    obtain ⟨hover, hcount, l, hl, hmem, hperm⟩ := ih fun e he hd => hdefs e he (mem_append_left _ hd)
    have hlast : s.defineOpaque B instIdx reads (defs ++ [x]) =
        (s.defineOpaque B instIdx reads defs).insert x ⟨B.opaqueInst x instIdx, reads⟩ := by
      rw [defineOpaque, foldl_append]
      rfl
    rw [hlast]
    generalize s.defineOpaque B instIdx reads defs = s' at hover hcount hperm
    refine ⟨hover, hcount, ?_⟩
    have hdistinct : s'.Distinct := by
      refine (hperm.map _).nodup_iff.mpr ?_
      rw [map_append, map_map, nodup_append']
      refine ⟨hl.map_on fun a _ b _ hab => hab, h, ?_⟩
      intro y hy hy'
      obtain ⟨z, hz, rfl⟩ := mem_map.mp hy
      obtain ⟨e, he, hez⟩ := mem_map.mp hy'
      exact hdefs e he (mem_append_left _ ((hmem e.1).mp (hez ▸ hz)))
    by_cases hx : x ∈ l
    · have hget : s'.get x = some ⟨B.opaqueInst x instIdx, reads⟩ :=
        (get_eq_some hdistinct).mpr (hperm.symm.subset (mem_append_left _ (mem_map_of_mem hx)))
      refine ⟨l, hl, ?_, (pending_perm hdistinct hget).symm.trans hperm⟩
      intro y
      rw [mem_append, mem_singleton, ← hmem]
      exact ⟨Or.inl, fun hy => hy.elim id fun hyx => hyx ▸ hx⟩
    · have hfree : ∀ e ∈ s'.pending, e.1 ≠ x := by
        intro e he hex
        rcases mem_append.mp (hperm.subset he) with he | he
        · obtain ⟨y, hy, rfl⟩ := mem_map.mp he
          exact hx (hex ▸ hy)
        · exact hdefs e he (hex ▸ mem_append_right _ (mem_singleton.mpr rfl))
      refine ⟨x :: l, nodup_cons.mpr ⟨hx, hl⟩, ?_, ?_⟩
      · intro y
        rw [mem_cons, mem_append, mem_singleton, hmem, or_comm]
      · rw [pending_insert hfree]
        exact hperm.cons _

end Recovery

/-! ## The step -/

section

variable {ι ν ω κ : Type} [LinearOrder ν]

def isExpression (I : ExprInstr ι ν ω κ) (a : ι) : Bool := (I.asConst a).isSome || (I.asExpr a).isSome

def operandsOf (I : ExprInstr ι ν ω κ) (a : ι) : List ν :=
  match I.asConst a, I.asExpr a with
  | none, some (_, xs) => xs
  | _, _ => []

omit [LinearOrder ν] in
theorem operandsOf_used {I : ExprInstr ι ν ω κ} {a : ι} {x : ν} (h : x ∈ operandsOf I a) : x ∈ I.uses a := by
  unfold operandsOf at h
  split at h
  · next h' => exact I.operands_used a _ _ h' x h
  · cases h

/-- What one instruction does to a traced run. -/
structure Stepped (I : ExprInstr ι ν ω κ) (useCount : ν → Nat) (n : Nat) (a : ι)
    (s s₁ : Recovery ν (TracedExpr ν ω κ)) (trees : List (TracedExpr ν ω κ)) (s' : Recovery ν (TracedExpr ν ω κ))
    (news : List (ν × Pending ν (TracedExpr ν ω κ))) : Prop where
  absorbs : Absorbs useCount s (operandsOf I a) trees s'
  pending : s₁.pending.Perm (news ++ s'.pending.filter fun e => e.1 ∉ I.defs a)
  entries : s₁.entries.Perm ((news.map fun e => (e.1, e.2.expression)) ++ s'.entries)
  count : ∀ x, s₁.definitionCount x = s.definitionCount x + (I.defs a).count x
  keys : ∀ x, x ∈ news.map (·.1) ↔ x ∈ I.defs a ∧ (isExpression I a → (I.defs a).head? = some x)
  nodup : (news.map (·.1)).Nodup
  definition : ∀ e ∈ news, e.2.expression.definition = some (e.1, n)
  definitions : I.defs a ≠ [] → (news.flatMap fun e => e.2.expression.definitions).Perm
    ((news.map fun e => (e.1, n)) ++ trees.flatMap (·.definitions))
  nodes : ∀ e ∈ news, ∀ d ∈ e.2.expression.definitions, d = (e.1, n) ∨ ∃ t ∈ trees, d ∈ t.definitions
  leaves : ∀ e ∈ news, ∀ x, x ∈ e.2.expression.leaves ↔ ∃ t ∈ trees, x ∈ t.leaves
  reads : ∀ e ∈ news, (∀ r ∈ e.2.reads, s.generation r.1 = r.2) ∧
    ∀ x ∈ e.2.expression.leaves, ∃ g, (x, g) ∈ e.2.reads
  value : ∀ {υ : Type} (M : Meaning ω κ υ) (store : ν → υ) (outcome : ν → Nat → υ), ∀ e ∈ news,
    (∃ c, I.asConst a = some c ∧ (I.defs a).head? = some e.1 ∧ e.2.expression.eval M store outcome = M.constant c) ∨
      (∃ operator, I.asConst a = none ∧ I.asExpr a = some (operator, operandsOf I a) ∧
        (I.defs a).head? = some e.1 ∧
          e.2.expression.eval M store outcome = M.apply operator (trees.map (·.eval M store outcome))) ∨
      e.2.expression.eval M store outcome = outcome e.1 n

variable {s : Recovery ν (TracedExpr ν ω κ)}

variable {I : ExprInstr ι ν ω κ} {n : Nat} {a : ι} {useCount : ν → Nat}

theorem stepped_expression {s' : Recovery ν (TracedExpr ν ω κ)} {trees : List (TracedExpr ν ω κ)} (hs : s.Distinct)
    (hexp : isExpression I a) (habsorbs : Absorbs useCount s (operandsOf I a) trees s')
    {p : Pending ν (TracedExpr ν ω κ)} (hdefinition : p.expression.definition = (I.defs a).head?.map fun x => (x, n))
    (hdefinitions : p.expression.definitions =
      ((I.defs a).head?.toList.map fun x => (x, n)) ++ trees.flatMap (·.definitions))
    (hleaves : ∀ x, x ∈ p.expression.leaves ↔ ∃ t ∈ trees, x ∈ t.leaves)
    (hreads : (∀ r ∈ p.reads, s.generation r.1 = r.2) ∧ ∀ x ∈ p.expression.leaves, ∃ g, (x, g) ∈ p.reads)
    (hvalue : ∀ {υ : Type} (M : Meaning ω κ υ) (store : ν → υ) (outcome : ν → Nat → υ),
      (∃ c, I.asConst a = some c ∧ p.expression.eval M store outcome = M.constant c) ∨
        ∃ operator, I.asConst a = none ∧ I.asExpr a = some (operator, operandsOf I a) ∧
          p.expression.eval M store outcome = M.apply operator (trees.map (·.eval M store outcome))) :
    Stepped I useCount n a s ((s'.redefineAll (I.defs a)).define (I.defs a).head? p) trees s'
      ((I.defs a).head?.toList.map fun x => (x, p)) := by
  have hs' : s'.Distinct := hs.sublist (habsorbs.sublist.map _)
  have hcount : ∀ x, (s'.redefineAll (I.defs a)).definitionCount x = s.definitionCount x + (I.defs a).count x := by
    intro x
    rw [Recovery.definitionCount_redefineAll, habsorbs.count]
  cases hhead : (I.defs a).head? with
  | none =>
    have hnil : I.defs a = [] := head?_eq_none_iff.mp hhead
    refine ⟨habsorbs, ?_, Recovery.entries_redefineAll _ hs', hcount, ?_, nodup_nil, ?_, ?_, ?_, ?_, ?_, ?_⟩
    · rw [← Recovery.pending_redefineAll]
      exact List.Perm.refl _
    · intro x
      simp [hnil]
    · exact fun e he => absurd he not_mem_nil
    · exact fun hne => absurd hnil hne
    · exact fun e he => absurd he not_mem_nil
    · exact fun e he => absurd he not_mem_nil
    · exact fun e he => absurd he not_mem_nil
    · exact fun _ _ _ e he => absurd he not_mem_nil
  | some x =>
    rw [hhead] at hdefinition hdefinitions
    have hx : x ∈ I.defs a := mem_of_head? hhead
    have hfree : ∀ e ∈ (s'.redefineAll (I.defs a)).pending, e.1 ≠ x := by
      intro e he hex
      rw [Recovery.pending_redefineAll, mem_filter, decide_eq_true_eq] at he
      exact he.2 (hex ▸ hx)
    have honly : ∀ e ∈ (some x).toList.map fun x => (x, p), e = (x, p) := by simp
    refine ⟨habsorbs, ?_, ?_, hcount, ?_, by simp, ?_, ?_, ?_, ?_, ?_, ?_⟩
    · change ((s'.redefineAll (I.defs a)).insert x p).pending.Perm _
      rw [Recovery.pending_insert hfree, Recovery.pending_redefineAll]
      exact List.Perm.refl _
    · exact (Recovery.entries_insert hfree p).trans ((Recovery.entries_redefineAll _ hs').cons _)
    · intro y
      simp only [Option.toList_some, map_cons, map_nil, mem_singleton, hhead, Option.some.injEq]
      constructor
      · rintro rfl
        exact ⟨hx, fun _ => rfl⟩
      · exact fun h => (h.2 hexp).symm
    · intro e he
      rw [honly e he]
      exact hdefinition
    · intro _
      simp only [Option.toList_some, map_cons, map_nil, flatMap_cons, flatMap_nil,
        append_nil]
      rw [hdefinitions]
      exact List.Perm.refl _
    · intro e he d hd
      rw [honly e he, hdefinitions] at hd
      rw [honly e he]
      rcases mem_append.mp hd with hd | hd
      · exact Or.inl (mem_singleton.mp hd)
      · exact Or.inr (mem_flatMap.mp hd)
    · intro e he
      rw [honly e he]
      exact hleaves
    · intro e he
      rw [honly e he]
      exact hreads
    · intro υ M store outcome e he
      rw [honly e he]
      rcases hvalue M store outcome with ⟨c, hc, heval⟩ | ⟨operator, hc, hop, heval⟩
      · exact Or.inl ⟨c, hc, hhead, heval⟩
      · exact Or.inr (Or.inl ⟨operator, hc, hop, hhead, heval⟩)

theorem stepped_opaque (hs : s.Distinct) (hexp : ¬ isExpression I a) (hoperands : operandsOf I a = []) :
    ∃ news, Stepped I useCount n a s
      ((s.redefineAll (I.defs a)).defineOpaque TracedExpr.builder n (s.readsOf (I.uses a)) (I.defs a)) [] s news := by
  have hfree : ∀ e ∈ (s.redefineAll (I.defs a)).pending, e.1 ∉ I.defs a := by
    intro e he
    rw [Recovery.pending_redefineAll, mem_filter, decide_eq_true_eq] at he
    exact he.2
  obtain ⟨hover, hcount, l, hl, hmem, hperm⟩ := Recovery.pending_defineOpaque
    (TracedExpr.builder : TreeBuilder ν ω κ _) n (s.readsOf (I.uses a)) (hs.redefineAll (I.defs a)) (I.defs a) hfree
  have hnews : ∀ e ∈ l.map fun x => (x, (⟨.opaqueInst x n, s.readsOf (I.uses a)⟩ : Pending ν (TracedExpr ν ω κ))),
      ∃ x ∈ l, (x, ⟨.opaqueInst x n, s.readsOf (I.uses a)⟩) = e := fun e he => mem_map.mp he
  refine ⟨l.map fun x => (x, ⟨.opaqueInst x n, s.readsOf (I.uses a)⟩), ?_, ?_, ?_, ?_, ?_, ?_, ?_, ?_, ?_, ?_, ?_, ?_⟩
  · rw [hoperands]
    exact .nil useCount s
  · rw [← Recovery.pending_redefineAll]
    exact hperm
  · unfold Recovery.entries
    rw [hover]
    refine ((hperm.map _).append_left _).trans ?_
    rw [map_append]
    refine (perm_append_comm_assoc _ _ _).trans ?_
    exact (Recovery.entries_redefineAll (I.defs a) hs).append_left _
  · intro x
    rw [hcount]
    exact Recovery.definitionCount_redefineAll _ _ _
  · intro x
    simp [hmem, hexp]
  · rw [map_map]
    exact hl.map_on fun a _ b _ hab => hab
  · intro e he
    obtain ⟨x, _, rfl⟩ := hnews e he
    rfl
  · intro _
    rw [flatMap_map, map_map, flatMap_nil, append_nil, ← flatMap_pure_eq_map]
    exact List.Perm.refl _
  · intro e he d hd
    obtain ⟨y, _, rfl⟩ := hnews e he
    exact Or.inl (mem_singleton.mp hd)
  · intro e he x
    obtain ⟨y, _, rfl⟩ := hnews e he
    simp [TracedExpr.leaves]
  · intro e he
    obtain ⟨y, _, rfl⟩ := hnews e he
    refine ⟨?_, fun x hx => absurd hx not_mem_nil⟩
    intro r hr
    obtain ⟨x, _, rfl⟩ := mem_map.mp hr
    rfl
  · intro υ M store outcome e he
    obtain ⟨y, _, rfl⟩ := hnews e he
    exact Or.inr (Or.inr rfl)

theorem take_stepped (I : ExprInstr ι ν ω κ) (useCount : ν → Nat) (n : Nat) (a : ι) (hs : s.Distinct)
    (hleaves : ∀ x p, (x, p) ∈ s.pending → ∀ y ∈ p.expression.leaves, ∃ g, (y, g) ∈ p.reads) :
    ∃ trees s' news, Stepped I useCount n a s (s.take I TracedExpr.builder useCount (a, n)) trees s' news := by
  cases hconst : I.asConst a with
  | some c =>
    have hoperands : operandsOf I a = [] := by simp [operandsOf, hconst]
    have htake : s.take I TracedExpr.builder useCount (a, n) =
        (s.redefineAll (I.defs a)).define (I.defs a).head? ⟨.const (I.defs a).head? n c, []⟩ := by
      simp only [Recovery.take, hconst]
      rfl
    rw [htake]
    refine ⟨[], s, _, stepped_expression hs (by simp [isExpression, hconst]) ?_ rfl ?_ ?_ ?_ ?_⟩
    · rw [hoperands]
      exact .nil useCount s
    · rw [flatMap_nil, append_nil]
      rfl
    · simp [TracedExpr.leaves]
    · exact ⟨fun r hr => absurd hr not_mem_nil, fun x hx => absurd hx not_mem_nil⟩
    · exact fun M store outcome => Or.inl ⟨c, hconst, rfl⟩
  | none =>
    cases hexpr : I.asExpr a with
    | some e =>
      obtain ⟨operator, xs⟩ := e
      have hoperands : operandsOf I a = xs := by simp [operandsOf, hconst, hexpr]
      have htake : s.take I TracedExpr.builder useCount (a, n) =
          ((s.operands TracedExpr.builder useCount xs []).2.1.redefineAll (I.defs a)).define (I.defs a).head?
            ⟨.op (I.defs a).head? n operator (s.operands TracedExpr.builder useCount xs []).1,
              (s.operands TracedExpr.builder useCount xs []).2.2⟩ := by
        simp only [Recovery.take, hconst, hexpr]
        rfl
      have habsorbs := operands_absorbs useCount xs hs []
      have hreads := reads_operands useCount xs hs []
      have hread := (leaves_operands useCount xs hs hleaves []).2
      rw [htake]
      generalize s.operands TracedExpr.builder useCount xs [] = out at habsorbs hreads hread
      obtain ⟨trees, s', reads⟩ := out
      refine ⟨trees, s', _, stepped_expression hs (by simp [isExpression, hexpr]) ?_ rfl ?_ ?_ ?_ ?_⟩
      · rwa [hoperands]
      · exact congrArg _ (TracedExpr.definitionsAll_eq trees)
      · intro x
        rw [TracedExpr.leaves, TracedExpr.leavesAll_eq, mem_flatMap]
      · refine ⟨fun r hr => (hreads r hr).resolve_left not_mem_nil, ?_⟩
        intro x hx
        rw [TracedExpr.leaves, TracedExpr.leavesAll_eq, mem_flatMap] at hx
        obtain ⟨t, ht, hx⟩ := hx
        exact hread t ht x hx
      · intro υ M store outcome
        refine Or.inr ⟨operator, hconst, ?_, ?_⟩
        · rw [hoperands, hexpr]
        · rw [TracedExpr.eval, TracedExpr.evalAll_eq]
    | none =>
      have htake : s.take I TracedExpr.builder useCount (a, n) =
          (s.redefineAll (I.defs a)).defineOpaque TracedExpr.builder n (s.readsOf (I.uses a)) (I.defs a) := by
        simp only [Recovery.take, hconst, hexpr]
      rw [htake]
      have hexp : ¬ isExpression I a := by simp [isExpression, hconst, hexpr]
      have hoperands : operandsOf I a = [] := by simp [operandsOf, hconst, hexpr]
      obtain ⟨news, h⟩ := stepped_opaque (n := n) hs hexp hoperands
      exact ⟨[], s, news, h⟩

end

end CfgLib
