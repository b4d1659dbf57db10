import CfgLib.Lib.Fold
import CfgLib.Lib.Horn
import Mathlib.Data.Finset.Card
import Mathlib.Data.List.Range

/-!
# Horn-clause derivability

`graph/horn.rs`: clauses over dense facts, a count of undischarged body occurrences for
each, and the saturation that lowers the counts.  What is derived is what follows from
the clauses, and the tables that the reader accepts are those that adding clauses makes.
-/

namespace CfgLib

open CfgLib.Lib List

/-- A set of clauses over the facts below `factCount`. -/
structure HornClauses where
  factCount : Nat
  /-- Per clause, the fact it derives. -/
  heads : List Nat
  /-- Per clause, how many body occurrences it has. -/
  bodyLens : List Nat
  /-- Per fact, the clauses whose body mentions it, one entry for each occurrence. -/
  dependents : List (List Nat)
  deriving DecidableEq

namespace HornClauses

def new (factCount : Nat) : HornClauses := ⟨factCount, [], [], List.replicate factCount []⟩

/-- Add a clause; `none` is the panic on a fact out of range. -/
def addClause (c : HornClauses) (head : Nat) (body : List Nat) : Option HornClauses :=
  if head < c.factCount ∧ ∀ fact ∈ body, fact < c.factCount then
    some
      { c with
        heads := c.heads ++ [head]
        bodyLens := c.bodyLens ++ [body.length]
        dependents := body.foldl (fun rows fact => rows.modify fact (· ++ [c.heads.length])) c.dependents }
  else none

/-- The clause set that a sequence of additions leaves. -/
def build (factCount : Nat) (clauses : List (Nat × List Nat)) : Option HornClauses :=
  clauses.foldlM (fun c clause => c.addClause clause.1 clause.2) (new factCount)

/-! ## Saturation -/

/-- Which facts are derived, the occurrences that each clause still waits for, and the facts
derived but not yet propagated; the head of the worklist is popped next. -/
structure Saturation where
  derived : List Bool
  remaining : List Nat
  worklist : List Nat

namespace Saturation

/-- Mark a fact derived, queueing it the first time; `none` is the panic on a fact out of range. -/
def derive (s : Saturation) (fact : Nat) : Option Saturation :=
  match s.derived[fact]? with
  | none => none
  | some true => some s
  | some false => some { s with derived := s.derived.set fact true, worklist := fact :: s.worklist }

def seed (c : HornClauses) (s : Saturation) (clause : Nat) : Option Saturation :=
  match s.remaining[clause]?, c.heads[clause]? with
  | some count, some head => if count = 0 then s.derive head else some s
  | _, _ => none

/-- Discharge one body occurrence of a clause; `none` is the panic on a counter at zero or on a
clause out of range. -/
def discharge (c : HornClauses) (s : Saturation) (clause : Nat) : Option Saturation :=
  match s.remaining[clause]?, c.heads[clause]? with
  | some (count + 1), some head =>
    let s := { s with remaining := s.remaining.set clause count }
    if count = 0 then s.derive head else some s
  | _, _ => none

end Saturation

/-- Propagate until no fact waits; `none` when the fuel runs out, or on a panic. -/
def saturate (c : HornClauses) : Nat → Saturation → Option Saturation
  | 0, _ => none
  | fuel + 1, s =>
    match s.worklist with
    | [] => some s
    | fact :: rest => do
      let row ← c.dependents[fact]?
      let s ← row.foldlM (Saturation.discharge c) { s with worklist := rest }
      c.saturate fuel s

def derivable (fuel : Nat) (c : HornClauses) : Option (List Bool) := do
  let start : Saturation := ⟨List.replicate c.factCount false, c.bodyLens, []⟩
  let s ← (List.range c.bodyLens.length).foldlM (Saturation.seed c) start
  let s ← c.saturate fuel s
  some s.derived

/-! ## Stored tables -/

/-- How often each clause is mentioned; an error on a clause that does not exist. -/
def countMentions (clauses : Nat) (dependents : List (List Nat)) : Except String (List Nat) :=
  dependents.flatten.foldlM (fun mentions clause =>
    if clause < mentions.length then .ok (mentions.modify clause (· + 1))
    else .error "a dependents row names a clause that does not exist") (List.replicate clauses 0)

def tryFrom (stored : HornClauses) : Except String HornClauses :=
  if stored.heads.length ≠ stored.bodyLens.length then
    .error "the clause tables hold different numbers of clauses"
  else if stored.dependents.length ≠ stored.factCount then
    .error "the dependents table does not have one row per fact"
  else if stored.heads.any fun head => head ≥ stored.factCount then .error "a clause head is not a fact"
  else do
    let mentions ← countMentions stored.heads.length stored.dependents
    if mentions ≠ stored.bodyLens then .error "a clause body disagrees with the facts that list it"
    else .ok stored

/-! ## The tables of a list of clauses -/

/-- Facts below a bound throughout. -/
def InRange (factCount : Nat) (clauses : List (Nat × List Nat)) : Prop :=
  ∀ clause ∈ clauses, clause.1 < factCount ∧ ∀ fact ∈ clause.2, fact < factCount

structure Tables (c : HornClauses) (clauses : List (Nat × List Nat)) : Prop where
  inRange : InRange c.factCount clauses
  heads : c.heads = clauses.map Prod.fst
  bodyLens : c.bodyLens = clauses.map fun clause => clause.2.length
  rows : c.dependents.length = c.factCount
  mentions : ∀ fact (row : List Nat), c.dependents[fact]? = some row →
    ∀ k, row.count k = (clauses[k]?.map fun clause => clause.2.count fact).getD 0

variable {c c' : HornClauses} {clauses : List (Nat × List Nat)}

theorem tables_new (n : Nat) : Tables (new n) [] := by
  refine ⟨fun _ h => absurd h not_mem_nil, rfl, rfl, length_replicate, fun fact row hrow k => ?_⟩
  rw [eq_of_mem_replicate (mem_of_getElem? hrow)]
  rfl

theorem count_modify_rows (body : List Nat) (new : Nat) : ∀ {rows : List (List Nat)} {fact : Nat} {row : List Nat},
    (body.foldl (fun rows fact => rows.modify fact (· ++ [new])) rows)[fact]? = some row →
      ∃ old, rows[fact]? = some old ∧ ∀ k, row.count k = old.count k + if k = new then body.count fact else 0 := by
  induction body with
  | nil => exact fun h => ⟨_, h, fun k => by simp⟩
  | cons f body ih =>
    intro rows fact row h
    obtain ⟨mid, hmid, hcount⟩ := ih h
    rw [getElem?_modify] at hmid
    obtain ⟨old, hold, rfl⟩ := Option.map_eq_some_iff.mp hmid
    refine ⟨old, hold, fun k => ?_⟩
    rw [hcount]
    by_cases hf : f = fact
    · subst hf
      by_cases hk : k = new
      · subst hk
        simp
        omega
      · simp [hk, count_append, Ne.symm hk]
    · simp [hf]

theorem length_modify_rows (body : List Nat) (new : Nat) : ∀ rows : List (List Nat),
    (body.foldl (fun rows fact => rows.modify fact (· ++ [new])) rows).length = rows.length := by
  induction body with
  | nil => exact fun _ => rfl
  | cons f body ih => exact fun rows => (ih _).trans (length_modify ..)

theorem Tables.addClause (h : Tables c clauses) {clause : Nat × List Nat} (hin : InRange c.factCount [clause]) :
    ∃ c', c.addClause clause.1 clause.2 = some c' ∧ Tables c' (clauses ++ [clause]) ∧ c'.factCount = c.factCount := by
  have hclause := hin clause (mem_singleton_self _)
  refine ⟨_, if_pos hclause, ⟨fun other hother => ?_, ?_, ?_, (length_modify_rows _ _ _).trans h.rows, ?_⟩, rfl⟩
  · rcases mem_append.mp hother with hother | hother
    · exact h.inRange other hother
    · exact hin other hother
  · rw [map_append, h.heads]
    rfl
  · rw [map_append, h.bodyLens]
    rfl
  · intro fact row hrow k
    have hnew : c.heads.length = clauses.length := by
      rw [h.heads, length_map]
    obtain ⟨old, hold, hcount⟩ := count_modify_rows clause.2 c.heads.length hrow
    rw [hcount, h.mentions fact old hold, hnew]
    rcases Nat.lt_trichotomy k clauses.length with hlt | rfl | hgt
    · rw [getElem?_append_left hlt, if_neg (Nat.ne_of_lt hlt), Nat.add_zero]
    · simp
    · have hlen : (clauses ++ [clause]).length ≤ k := by
        rw [length_append, length_singleton]
        exact hgt
      rw [getElem?_eq_none (Nat.le_of_lt hgt), getElem?_eq_none hlen, if_neg (Nat.ne_of_gt hgt)]
      rfl

theorem tables_build {n : Nat} (hin : InRange n clauses) :
    ∃ c, build n clauses = some c ∧ Tables c clauses ∧ c.factCount = n := by
  refine foldlM_option_total (I := fun done c => Tables c done ∧ c.factCount = n) ?_ ⟨tables_new n, rfl⟩
  intro done clause rest c hsplit ⟨h, hn⟩
  have hclause : InRange c.factCount [clause] := by
    intro other hother
    obtain rfl := mem_singleton.mp hother
    rw [hn]
    exact hin other (by rw [hsplit]; exact mem_append_right _ mem_cons_self)
  obtain ⟨c', hadd, h', hn'⟩ := h.addClause hclause
  exact ⟨c', hadd, h', hn'.trans hn⟩

/-! ## The saturation -/

/-- What the saturation keeps: `propagated` are the facts popped so far, and `rest` the clauses
still to be told of the last of them. -/
structure Saturating (c : HornClauses) (clauses : List (Nat × List Nat)) (propagated : Finset Nat) (rest : List Nat)
    (s : Saturation) : Prop where
  length : s.derived.length = c.factCount
  derives : ∀ f, s.derived[f]? = some true → Derives clauses f
  derived_iff : ∀ f, s.derived[f]? = some true ↔ f ∈ propagated ∨ f ∈ s.worklist
  nodup : s.worklist.Nodup
  waiting : ∀ f ∈ s.worklist, f ∉ propagated
  remaining : ∀ k clause, clauses[k]? = some clause →
    s.remaining[k]? = some (clause.2.countP (fun f => decide (¬ f ∈ propagated)) + rest.count k)

/-- The head of each clause whose count is down to zero is derived. -/
def Fired (clauses : List (Nat × List Nat)) (s : Saturation) (k : Nat) : Prop :=
  ∀ clause, clauses[k]? = some clause → s.remaining[k]? = some 0 → s.derived[clause.1]? = some true

section Saturate

variable {propagated : Finset Nat} {rest : List Nat} {s : Saturation}

theorem Saturating.derive (h : Saturating c clauses propagated rest s) {fact : Nat} (hfact : fact < c.factCount)
    (hderives : Derives clauses fact) : ∃ s', s.derive fact = some s' ∧ Saturating c clauses propagated rest s' ∧
      s'.remaining = s.remaining ∧ s'.derived[fact]? = some true ∧
      ∀ f : Nat, s.derived[f]? = some true → s'.derived[f]? = some true := by
  unfold Saturation.derive
  obtain ⟨known, hget⟩ : ∃ known, s.derived[fact]? = some known :=
    ⟨_, getElem?_eq_getElem (h.length.symm ▸ hfact : fact < s.derived.length)⟩
  rw [hget]
  cases known with
  | true => exact ⟨s, rfl, h, rfl, hget, fun _ hf => hf⟩
  | false =>
    have hlt : fact < s.derived.length := h.length.symm ▸ hfact
    have hset : ∀ f, (s.derived.set fact true)[f]? = some true ↔ f = fact ∨ s.derived[f]? = some true := by
      intro f
      rw [getElem?_set]
      by_cases hf : fact = f
      · subst hf
        simp [hlt]
      · simp [hf, Ne.symm hf]
    have hnew : fact ∉ propagated ∧ fact ∉ s.worklist := by
      rw [← not_or, ← h.derived_iff, hget]
      simp
    refine ⟨_, rfl, ⟨?_, fun f hf => ?_, fun f => ?_, nodup_cons.mpr ⟨hnew.2, h.nodup⟩, fun f hf => ?_,
      h.remaining⟩, rfl, (hset fact).mpr (Or.inl rfl), fun f hf => (hset f).mpr (Or.inr hf)⟩
    · exact length_set.trans h.length
    · rcases (hset f).mp hf with rfl | hf
      · exact hderives
      · exact h.derives f hf
    · rw [hset, h.derived_iff, mem_cons]
      exact or_left_comm
    · rcases mem_cons.mp hf with rfl | hf
      · exact hnew.1
      · exact h.waiting f hf

theorem Saturating.derives_head (h : Saturating c clauses propagated rest s) {k : Nat} {clause : Nat × List Nat}
    (hk : clauses[k]? = some clause) (hzero : s.remaining[k]? = some 0) : Derives clauses clause.1 := by
  have hcount := h.remaining k clause hk
  rw [hzero, Option.some.injEq, eq_comm, Nat.add_eq_zero_iff, countP_eq_zero] at hcount
  refine .clause (mem_of_getElem? hk) fun f hf => h.derives f ((h.derived_iff f).mpr (Or.inl ?_))
  simpa using hcount.1 f hf

/-- An occurrence to discharge is one that the clause waits for, so no count is lowered past zero. -/
theorem Saturating.discharge (htables : Tables c clauses) {clause : Nat}
    (h : Saturating c clauses propagated (clause :: rest) s) (hfired : ∀ k, Fired clauses s k)
    (hclause : clause < clauses.length) : ∃ s', s.discharge c clause = some s' ∧
      Saturating c clauses propagated rest s' ∧ ∀ k, Fired clauses s' k := by
  have hk := getElem?_eq_getElem hclause
  generalize clauses[clause] = body at hk
  have hhead : c.heads[clause]? = some body.1 := by
    rw [htables.heads, getElem?_map, hk]
    rfl
  have hcount := h.remaining clause body hk
  rw [count_cons_self, ← Nat.add_assoc] at hcount
  generalize hn : body.2.countP (fun f => decide (¬ f ∈ propagated)) + rest.count clause = n at hcount
  let lowered : Saturation := { s with remaining := s.remaining.set clause n }
  have hset : ∀ k, lowered.remaining[k]? = if k = clause then some n else s.remaining[k]? := by
    intro k
    have hlt := (List.getElem?_eq_some_iff.mp hcount).1
    rw [getElem?_set]
    by_cases hk : clause = k
    · subst hk
      simp [hlt]
    · simp [hk, Ne.symm hk]
  have hlowered : Saturating c clauses propagated rest lowered := by
    refine ⟨h.length, h.derives, h.derived_iff, h.nodup, h.waiting, fun k other hother => ?_⟩
    rw [hset]
    by_cases he : k = clause
    · subst he
      rw [hk] at hother
      cases hother
      rw [if_pos rfl, hn]
    · rw [if_neg he, h.remaining k other hother, count_cons_of_ne (Ne.symm he)]
  have hother : ∀ k, k ≠ clause → Fired clauses lowered k := by
    intro k he other hget hzero
    rw [hset, if_neg he] at hzero
    exact hfired k other hget hzero
  unfold Saturation.discharge
  rw [hcount, hhead]
  by_cases hzero : n = 0
  · have hlowest : lowered.remaining[clause]? = some 0 := by rw [hset, if_pos rfl, hzero]
    have hin := (htables.inRange body (mem_of_getElem? hk)).1
    obtain ⟨s', hs', h', hremaining, hderived, hkept⟩ := hlowered.derive hin (hlowered.derives_head hk hlowest)
    refine ⟨s', (if_pos hzero).trans hs', h', fun k other hget hz => ?_⟩
    by_cases he : k = clause
    · subst he
      rw [hk] at hget
      cases hget
      exact hderived
    · exact hkept _ (hother k he other hget (hremaining ▸ hz))
  · refine ⟨lowered, if_neg hzero, hlowered, fun k => ?_⟩
    by_cases he : k = clause
    · subst he
      intro _ _ hz
      rw [hset, if_pos rfl, Option.some.injEq] at hz
      exact absurd hz hzero
    · exact hother k he

theorem Saturating.start (htables : Tables c clauses) :
    Saturating c clauses ∅ [] ⟨List.replicate c.factCount false, c.bodyLens, []⟩ := by
  have hnone : ∀ f : Nat, (List.replicate c.factCount false)[f]? ≠ some true := by
    intro f hf
    exact Bool.false_ne_true (eq_of_mem_replicate (mem_of_getElem? hf)).symm
  refine ⟨length_replicate, fun f hf => absurd hf (hnone f), fun f => ?_, nodup_nil,
    fun _ hf => absurd hf not_mem_nil, fun k clause hk => ?_⟩
  · exact ⟨fun hf => absurd hf (hnone f), fun hf => by simp at hf⟩
  · rw [htables.bodyLens, getElem?_map, hk]
    simp

theorem Saturating.seed (htables : Tables c clauses) : ∃ s,
    (List.range c.bodyLens.length).foldlM (Saturation.seed c) ⟨List.replicate c.factCount false, c.bodyLens, []⟩ =
      some s ∧ Saturating c clauses ∅ [] s ∧ ∀ k, Fired clauses s k := by
  have hfold := foldlM_option_total (l := List.range c.bodyLens.length)
    (I := fun done s => Saturating c clauses ∅ [] s ∧ ∀ k ∈ done, Fired clauses s k) (?_ :
      ∀ done k rest (s : Saturation), _ → _ → ∃ s', s.seed c k = some s' ∧ _)
    ⟨Saturating.start htables, fun _ hk => absurd hk not_mem_nil⟩
  · obtain ⟨s, hs, h, hfired⟩ := hfold
    refine ⟨s, hs, h, fun k clause hk => hfired k (mem_range.mpr ?_) clause hk⟩
    rw [htables.bodyLens, length_map]
    exact (List.getElem?_eq_some_iff.mp hk).1
  · intro done clause rest s hsplit ⟨h, hfired⟩
    have hclause : clause < clauses.length := by
      have hmem : clause ∈ List.range c.bodyLens.length := by
        rw [hsplit]
        exact mem_append_right _ mem_cons_self
      rwa [mem_range, htables.bodyLens, length_map] at hmem
    have hk := getElem?_eq_getElem hclause
    generalize clauses[clause] = body at hk
    have hhead : c.heads[clause]? = some body.1 := by
      rw [htables.heads, getElem?_map, hk]
      rfl
    have hcount := h.remaining clause body hk
    unfold Saturation.seed
    rw [hcount, hhead]
    dsimp only
    split
    · next hzero =>
      rw [hzero] at hcount
      obtain ⟨s', hs', h', hremaining, hderived, hkept⟩ :=
        h.derive (htables.inRange body (mem_of_getElem? hk)).1 (h.derives_head hk hcount)
      refine ⟨s', hs', h', fun k hmem other hget hz => ?_⟩
      rcases mem_append.mp hmem with hmem | hmem
      · exact hkept _ (hfired k hmem other hget (hremaining ▸ hz))
      · obtain rfl := mem_singleton.mp hmem
        rw [hk] at hget
        cases hget
        exact hderived
    · next hpos =>
      refine ⟨s, rfl, h, fun k hmem other hget hz => ?_⟩
      rcases mem_append.mp hmem with hmem | hmem
      · exact hfired k hmem other hget hz
      · obtain rfl := mem_singleton.mp hmem
        rw [hcount, Option.some.injEq] at hz
        exact absurd hz hpos

theorem Saturating.pop (htables : Tables c clauses) (h : Saturating c clauses propagated [] s) {fact : Nat}
    {others row : List Nat} (hw : s.worklist = fact :: others) (hrow : c.dependents[fact]? = some row) :
    Saturating c clauses (insert fact propagated) row { s with worklist := others } := by
  have hnodup := h.nodup
  rw [hw, nodup_cons] at hnodup
  have hfact : fact ∉ propagated := h.waiting fact (by rw [hw]; exact mem_cons_self)
  refine ⟨h.length, h.derives, fun f => ?_, hnodup.2, fun f hf => ?_, fun k clause hk => ?_⟩
  · rw [h.derived_iff, hw, mem_cons, Finset.mem_insert]
    tauto
  · rw [Finset.mem_insert, not_or]
    exact ⟨fun he => hnodup.1 (he ▸ hf), h.waiting f (by rw [hw]; exact mem_cons_of_mem _ hf)⟩
  · rw [h.remaining k clause hk, htables.mentions fact row hrow k, hk, Option.map_some, Option.getD_some,
      countP_insert (P := (· ∈ propagated)) hfact]
    simp only [Finset.mem_insert, count_nil, Nat.add_zero, or_comm (a := _ = fact)]

theorem Tables.mem_row (htables : Tables c clauses) {fact k : Nat} {row : List Nat}
    (hrow : c.dependents[fact]? = some row) (hk : k ∈ row) : k < clauses.length := by
  by_contra hle
  have hcount := htables.mentions fact row hrow k
  rw [getElem?_eq_none (Nat.not_lt.mp hle)] at hcount
  exact absurd hcount (Nat.ne_of_gt (count_pos_iff.mpr hk))

theorem Saturating.saturate (htables : Tables c clauses) : ∀ (fuel : Nat) {propagated : Finset Nat} {s : Saturation},
    Saturating c clauses propagated [] s → (∀ k, Fired clauses s k) → propagated ⊆ Finset.range c.factCount →
      c.factCount < fuel + propagated.card → ∃ s' propagated', c.saturate fuel s = some s' ∧
        Saturating c clauses propagated' [] s' ∧ (∀ k, Fired clauses s' k) ∧ s'.worklist = [] := by
  intro fuel
  induction fuel with
  | zero =>
    intro propagated s _ _ hsub hfuel
    have hcard := Finset.card_le_card hsub
    rw [Finset.card_range] at hcard
    omega
  | succ fuel ih =>
    intro propagated s h hfired hsub hfuel
    unfold HornClauses.saturate
    cases hw : s.worklist with
    | nil => exact ⟨s, propagated, rfl, h, hfired, hw⟩
    | cons fact others =>
      have hlt : fact < c.factCount := by
        have hderived := (h.derived_iff fact).mpr (Or.inr (by rw [hw]; exact mem_cons_self))
        rw [← h.length]
        exact (List.getElem?_eq_some_iff.mp hderived).1
      obtain ⟨row, hrow⟩ : ∃ row, c.dependents[fact]? = some row :=
        ⟨_, getElem?_eq_getElem (htables.rows.symm ▸ hlt)⟩
      have hfact : fact ∉ propagated := h.waiting fact (by rw [hw]; exact mem_cons_self)
      obtain ⟨s', hs', left, hleft, h', hfired'⟩ := foldlM_option_total (l := row)
        (I := fun done s' => ∃ left, row = done ++ left ∧ Saturating c clauses (insert fact propagated) left s' ∧
          ∀ k, Fired clauses s' k)
        (fun done k left s' hsplit ⟨left', hleft, hs', hfired'⟩ => by
          obtain rfl : left' = k :: left := append_cancel_left (hleft.symm.trans hsplit)
          have hk : k < clauses.length := htables.mem_row hrow (by rw [hsplit]; simp)
          obtain ⟨s'', hstep, h'', hfired''⟩ := hs'.discharge htables hfired' hk
          exact ⟨s'', hstep, left, by rw [hsplit, append_assoc]; rfl, h'', hfired''⟩)
        (s := { s with worklist := others }) ⟨row, rfl, h.pop htables hw hrow, hfired⟩
      obtain rfl : left = [] := by simpa using hleft
      have hcard : (insert fact propagated).card = propagated.card + 1 := Finset.card_insert_of_notMem hfact
      obtain ⟨s'', propagated'', hrun, hend⟩ := ih h' hfired'
        (Finset.insert_subset (Finset.mem_range.mpr hlt) hsub) (by omega)
      refine ⟨s'', propagated'', ?_, hend⟩
      simp only [hrow, hs', Option.bind_eq_bind, Option.bind_some]
      exact hrun

theorem Saturating.complete (h : Saturating c clauses propagated [] s) (hfired : ∀ k, Fired clauses s k)
    (hempty : s.worklist = []) {f : Nat} (hf : Derives clauses f) : s.derived[f]? = some true := by
  induction hf with
  | @clause head body hclause _ ih =>
    obtain ⟨k, hk⟩ := getElem?_of_mem hclause
    refine hfired k (head, body) hk ?_
    rw [h.remaining k (head, body) hk, count_nil, Nat.add_zero, Option.some.injEq, countP_eq_zero]
    intro f hf
    have hderived := (h.derived_iff f).mp (ih f hf)
    rw [hempty] at hderived
    simpa using hderived

end Saturate

/-- The saturation ends, on exactly what follows from the clauses. -/
def Solves (c : HornClauses) (clauses : List (Nat × List Nat)) : Prop :=
  ∃ N derived, (∀ fuel, N ≤ fuel → derivable fuel c = some derived) ∧ derived.length = c.factCount ∧
    ∀ f : Nat, derived[f]? = some true ↔ Derives clauses f

theorem Tables.solves (h : Tables c clauses) : Solves c clauses := by
  obtain ⟨s, hseed, hs, hfired⟩ := Saturating.seed h
  have hrun := fun fuel hfuel => Saturating.saturate h fuel hs hfired (Finset.empty_subset _) hfuel
  obtain ⟨s₁, propagated, hrun₁, h₁, hfired₁, hempty⟩ := hrun (c.factCount + 1) (by simp)
  refine ⟨c.factCount + 1, s₁.derived, fun fuel hfuel => ?_, h₁.length, fun f =>
    ⟨h₁.derives f, h₁.complete hfired₁ hempty⟩⟩
  -- more fuel derives the same facts, as both are what follows
  obtain ⟨s₂, _, hrun₂, h₂, hfired₂, hempty₂⟩ := hrun fuel (by simp; omega)
  have hsame : s₂.derived = s₁.derived := by
    refine ext_getElem? fun f => ?_
    by_cases hf : f < c.factCount
    · have hiff : s₂.derived[f]? = some true ↔ s₁.derived[f]? = some true :=
        ⟨fun hd => h₁.complete hfired₁ hempty (h₂.derives f hd), fun hd => h₂.complete hfired₂ hempty₂ (h₁.derives f hd)⟩
      rw [getElem?_eq_getElem (h₂.length.symm ▸ hf), getElem?_eq_getElem (h₁.length.symm ▸ hf)] at hiff ⊢
      rw [Option.some.injEq, Option.some.injEq] at hiff
      exact congrArg some (Bool.eq_iff_iff.mpr hiff)
    · rw [getElem?_eq_none (h₂.length.symm ▸ Nat.not_lt.mp hf),
        getElem?_eq_none (h₁.length.symm ▸ Nat.not_lt.mp hf)]
  unfold derivable
  simp only [hseed, hrun₂, Option.bind_eq_bind, Option.bind_some, hsame]

/-! ## The reader -/

/-- Occurrence by occurrence, the facts whose rows list a clause. -/
def bodyOf (c : HornClauses) (clause : Nat) : List Nat :=
  (List.range c.factCount).flatMap fun fact => List.replicate ((c.dependents.getD fact []).count clause) fact

def storedClauses (c : HornClauses) : List (Nat × List Nat) :=
  c.heads.zipIdx.map fun entry => (entry.1, bodyOf c entry.2)

theorem count_bodyOf (c : HornClauses) (clause fact : Nat) : (bodyOf c clause).count fact =
    if fact < c.factCount then (c.dependents.getD fact []).count clause else 0 := by
  unfold bodyOf
  induction c.factCount with
  | zero => rfl
  | succ n ih =>
    rw [range_succ, flatMap_append, count_append, ih, flatMap_singleton, count_replicate]
    rcases Nat.lt_trichotomy fact n with hlt | rfl | hgt
    · rw [if_pos hlt, if_pos (Nat.lt_succ_of_lt hlt), if_neg (by simpa using Nat.ne_of_gt hlt), Nat.add_zero]
    · simp
    · rw [if_neg (Nat.lt_asymm hgt), if_neg (by omega : ¬ fact < n + 1), if_neg (by simpa using Nat.ne_of_lt hgt)]

theorem length_bodyOf (hrows : c.dependents.length = c.factCount) (clause : Nat) :
    (bodyOf c clause).length = c.dependents.flatten.count clause := by
  have hdependents : c.dependents = (List.range c.factCount).map fun fact => c.dependents.getD fact [] := by
    refine ext_getElem (by simp [hrows]) fun i hi _ => ?_
    simp [getD_eq_getElem?_getD, getElem?_eq_getElem hi]
  conv_rhs => rw [hdependents]
  unfold bodyOf
  rw [length_flatMap, count_flatten, map_map]
  congr 1
  exact map_congr_left fun fact _ => length_replicate

theorem countMentions_spec {n : Nat} {dependents : List (List Nat)} {mentions : List Nat}
    (h : countMentions n dependents = .ok mentions) :
    mentions = (List.range n).map (fun k => dependents.flatten.count k) ∧ ∀ clause ∈ dependents.flatten, clause < n := by
  refine foldlM_except (I := fun done mentions =>
    mentions = (List.range n).map (fun k => done.count k) ∧ ∀ clause ∈ done, clause < n) ?_ ?_ h
  · intro done clause mentions mentions' ⟨hmentions, hknown⟩ hstep
    split at hstep
    · next hlt =>
      cases hstep
      subst hmentions
      rw [length_map, length_range] at hlt
      refine ⟨ext_getElem (by simp) fun k hk _ => ?_, fun other hother => ?_⟩
      rotate_left
      · rcases mem_append.mp hother with hother | hother
        · exact hknown other hother
        · rwa [mem_singleton.mp hother]
      rw [getElem_modify]
      by_cases he : clause = k
      · subst he
        simp [count_append]
      · simp [he, count_append]
    · cases hstep
  · refine ⟨ext_getElem (by simp) fun k hk _ => ?_, fun _ hclause => absurd hclause not_mem_nil⟩
    simp

theorem tables_of_tryFrom {stored : HornClauses} (h : tryFrom stored = .ok c) : Tables c (storedClauses c) := by
  unfold tryFrom at h
  split at h
  · cases h
  next hlengths =>
  split at h
  · cases h
  next hrows =>
  split at h
  · cases h
  next hheads =>
  obtain ⟨mentions, hmentions, h⟩ := bind_eq_ok.mp h
  split at h
  · cases h
  next hagree =>
  cases h
  rw [not_not] at hlengths hrows hagree
  obtain ⟨hcounts, hknown⟩ := countMentions_spec hmentions
  have hhead : ∀ head ∈ c.heads, head < c.factCount := by
    intro head hmem
    by_contra hle
    exact hheads (any_eq_true.mpr ⟨head, hmem, decide_eq_true (Nat.not_lt.mp hle)⟩)
  refine ⟨fun clause hclause => ?_, ?_, ?_, hrows, fun fact row hrow k => ?_⟩
  · obtain ⟨⟨head, k⟩, hentry, rfl⟩ := mem_map.mp hclause
    refine ⟨hhead head (fst_mem_of_mem_zipIdx hentry), fun fact hfact => ?_⟩
    obtain ⟨other, hother, hfact⟩ := mem_flatMap.mp hfact
    rw [eq_of_mem_replicate hfact]
    exact mem_range.mp hother
  · unfold storedClauses
    rw [map_map]
    exact (zipIdx_map_fst 0 c.heads).symm
  · rw [hagree.symm.trans hcounts]
    unfold storedClauses
    rw [map_map]
    refine ext_getElem (by simp) fun k hk _ => ?_
    simp [length_bodyOf hrows]
  · have hfact : fact < c.factCount := hrows ▸ (List.getElem?_eq_some_iff.mp hrow).1
    unfold storedClauses
    rw [getElem?_map, getElem?_zipIdx, Option.map_map, Option.map_map]
    cases hk : c.heads[k]? with
    | some head =>
      simp [count_bodyOf, hfact, hrow]
    | none =>
      have hle : c.heads.length ≤ k := List.getElem?_eq_none_iff.mp hk
      rw [Option.map_none, Option.getD_none, count_eq_zero]
      intro hmem
      -- the reader met the clause while it counted
      have hlt := hknown k (mem_flatten.mpr ⟨row, mem_of_getElem? hrow, hmem⟩)
      omega

structure SameTables (c c' : HornClauses) : Prop where
  factCount : c.factCount = c'.factCount
  heads : c.heads = c'.heads
  bodyLens : c.bodyLens = c'.bodyLens
  rows : List.Forall₂ List.Perm c.dependents c'.dependents

theorem Tables.sameTables (h : Tables c clauses) (h' : Tables c' clauses) (hcount : c.factCount = c'.factCount) :
    SameTables c c' := by
  refine ⟨hcount, h.heads.trans h'.heads.symm, h.bodyLens.trans h'.bodyLens.symm, ?_⟩
  have hlength : c.dependents.length = c'.dependents.length := by rw [h.rows, h'.rows, hcount]
  refine forall₂_iff_get.mpr ⟨hlength, fun fact hfact hfact' => perm_iff_count.mpr fun k => ?_⟩
  have hrow := h.mentions fact _ (getElem?_eq_getElem hfact) k
  have hrow' := h'.mentions fact _ (getElem?_eq_getElem hfact') k
  exact hrow.trans hrow'.symm

/-- Clauses added in any sequence are solved by what follows from them, and so are the tables
that the reader accepts, which some sequence of additions makes. -/
theorem derivable_least : (∀ n clauses, InRange n clauses → ∃ c, build n clauses = some c ∧ Solves c clauses) ∧
    ∀ stored c, tryFrom stored = .ok c → ∃ clauses c', InRange c.factCount clauses ∧
      build c.factCount clauses = some c' ∧ SameTables c c' ∧ Solves c clauses := by
  constructor
  · intro n clauses hin
    obtain ⟨c, hbuild, h, _⟩ := tables_build hin
    exact ⟨c, hbuild, h.solves⟩
  · intro stored c haccepted
    have h := tables_of_tryFrom haccepted
    obtain ⟨c', hbuild, h', hcount⟩ := tables_build h.inRange
    exact ⟨storedClauses c, c', h.inRange, hbuild, h.sameTables h' hcount.symm, h.solves⟩

end HornClauses

end CfgLib
