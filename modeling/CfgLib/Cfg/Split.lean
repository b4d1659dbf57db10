import CfgLib.Cfg.Trace

/-!
# Splitting a block

What a split at ordered points does as a whole: the parts hold the original's
instructions in order, belong wherever it did, and the last one holds its
exits.  The unwind edges are exits too, so a throwing instruction before the
last point loses them.
-/

namespace CfgLib.Cfg

open CfgLib.Lib List

variable {ι π : Type} {c c' : Cfg ι π}

structure NamesSlots (c : Cfg ι π) : Prop where
  protected_lt : ∀ region ∈ c.regions, ∀ b ∈ region.protectedBlocks, b < c.blockBound
  body_lt : ∀ region ∈ c.regions, ∀ handler ∈ region.handlers, ∀ blocks,
    handler.body = .known blocks → ∀ b ∈ blocks, b < c.blockBound
  resume_lt : ∀ cleanup ∈ c.cleanups, ∀ b, cleanup.resumeFrom = some b → b < c.blockBound

/-! ## Exception metadata -/

theorem mem_extendSet {head tail : Nat} {blocks : Finset Nat} (htail : tail ∉ blocks) (b : Nat) :
    b ∈ extendSet head tail blocks ↔ (if b = tail then head else b) ∈ blocks := by
  unfold extendSet
  by_cases hb : b = tail
  · subst hb
    by_cases hh : head ∈ blocks <;> simp [hh, htail]
  · by_cases hh : head ∈ blocks <;> simp [hh, hb]

theorem mem_extendSet_lt {head tail b : Nat} {blocks : Finset Nat} {bound : Nat}
    (hlt : ∀ b ∈ blocks, b < bound) (htail : tail = bound) (hb : b ∈ extendSet head tail blocks) :
    b < bound + 1 := by
  unfold extendSet at hb
  split at hb
  · rcases Finset.mem_insert.mp hb with rfl | hb
    · omega
    · exact Nat.lt_succ_of_lt (hlt b hb)
  · exact Nat.lt_succ_of_lt (hlt b hb)

variable {rest : List Nat} {id last : Nat}

theorem placement_extendRegion (hn : c.NamesSlots)
    (hregions : c'.regions = c.regions.map (extendRegion id c.blockBound)) (i : Nat) :
    c'.placement i = c.placement (if i = c.blockBound then id else i) := by
  unfold Cfg.placement
  rw [hregions, map_map]
  apply map_congr_left
  intro region hregion
  have hprotected : c.blockBound ∉ region.protectedBlocks := fun hmem =>
    Nat.lt_irrefl _ (hn.protected_lt region hregion _ hmem)
  refine Prod.ext (decide_eq_decide.mpr (mem_extendSet hprotected i)) ?_
  simp only [Function.comp_apply, extendRegion, map_map]
  apply map_congr_left
  intro handler hhandler
  cases hbody : handler.body with
  | unknown => simp [extendHandler, hbody, HandlerBody.blocks]
  | known blocks =>
    have hblocks : c.blockBound ∉ blocks := fun hmem =>
      Nat.lt_irrefl _ (hn.body_lt region hregion handler hhandler blocks hbody _ hmem)
    simp only [Function.comp_apply, extendHandler, hbody, HandlerBody.blocks, Option.map_some,
      Option.some.injEq]
    exact decide_eq_decide.mpr (mem_extendSet hblocks i)

namespace IsSplit

variable {id index : Nat} {payload : π} {b : BasicBlock ι}

theorem namesSlots (h : IsSplit c id index payload b c') (hn : c.NamesSlots) : c'.NamesSlots := by
  constructor
  · intro region hregion
    rw [h.regions] at hregion
    obtain ⟨region₀, hregion₀, rfl⟩ := mem_map.mp hregion
    intro x hx
    rw [h.blockBound]
    exact mem_extendSet_lt (hn.protected_lt region₀ hregion₀) rfl hx
  · intro region hregion
    rw [h.regions] at hregion
    obtain ⟨region₀, hregion₀, rfl⟩ := mem_map.mp hregion
    intro handler hhandler blocks hblocks x hx
    obtain ⟨handler₀, hhandler₀, rfl⟩ := mem_map.mp hhandler
    rw [h.blockBound]
    cases hbody : handler₀.body with
    | unknown => simp [extendHandler, hbody] at hblocks
    | known blocks₀ =>
      simp only [extendHandler, hbody, HandlerBody.known.injEq] at hblocks
      subst hblocks
      exact mem_extendSet_lt (hn.body_lt region₀ hregion₀ handler₀ hhandler₀ blocks₀ hbody) rfl hx
  · intro cleanup hcleanup
    rw [h.cleanups] at hcleanup
    obtain ⟨cleanup₀, hcleanup₀, rfl⟩ := mem_map.mp hcleanup
    intro x hx
    rw [h.blockBound]
    simp only [extendCleanup] at hx
    split at hx
    · obtain rfl := Option.some.inj hx
      omega
    · exact Nat.lt_succ_of_lt (hn.resume_lt cleanup₀ hcleanup₀ x hx)

theorem placement (h : IsSplit c id index payload b c') (hn : c.NamesSlots) (i : Nat) :
    c'.placement i = c.placement (if i = c.blockBound then id else i) :=
  placement_extendRegion hn h.regions i

end IsSplit

/-! ## Splitting at several points -/

def resumeAt (old new : Nat) (cleanups : List Cleanup) : List Cleanup :=
  cleanups.map fun cleanup =>
    { cleanup with resumeFrom := cleanup.resumeFrom.map fun b => if b = old then new else b }

/-- `c'` is `c` with `id` cut into `id` and the new blocks `rest`, of which
`last` (or `id` itself) holds the exits. -/
structure SplitInto (c : Cfg ι π) (id : Nat) (rest : List Nat) (last : Nat) (c' : Cfg ι π) :
    Prop where
  wf : c'.WF
  names : c'.NamesSlots
  entry : c'.entry = c.entry
  bound_le : c.blockBound ≤ c'.blockBound
  edgeBound_le : c.edgeBound ≤ c'.edgeBound
  getLast : (id :: rest).getLast? = some last
  live : ∀ b ∈ id :: rest, c'.containsBlock b
  rest_fresh : ∀ b ∈ rest, c.blockBound ≤ b
  fresh_mem : ∀ b, c.blockBound ≤ b → b < c'.blockBound → b ∈ rest
  block_other : ∀ b, b < c.blockBound → b ≠ id → c'.block b = c.block b
  code : c.instructions id = (id :: rest).flatMap c'.instructions
  edge_old : ∀ e r, c.edge e = some r → c'.edge e = some (moveSource id last r)
  edge_new : ∀ e r, c'.edge e = some r → (∃ r₀, c.edge e = some r₀) ∨ r.source ∈ id :: rest
  placement : ∀ b, c'.placement b = c.placement (if b ∈ rest then id else b)
  cleanups : c'.cleanups = resumeAt id last c.cleanups

theorem moveSource_self (a : Nat) (r : Store.EdgeRecord (Edge π)) : moveSource a a r = r := by
  unfold moveSource
  split
  · next h => rw [← h]
  · rfl

theorem resumeAt_self (a : Nat) (cleanups : List Cleanup) : resumeAt a a cleanups = cleanups := by
  have hid : (fun b : Nat => if b = a then a else b) = id := by
    funext b
    split
    · next h => exact h.symm
    · rfl
  simp only [resumeAt, hid, Option.map_id, id_eq]
  exact map_id cleanups

theorem SplitInto.refl (hc : c.WF) (hn : c.NamesSlots) (hid : c.containsBlock id) :
    SplitInto c id [] id c where
  wf := hc
  names := hn
  entry := rfl
  bound_le := Nat.le_refl _
  edgeBound_le := Nat.le_refl _
  getLast := rfl
  live := by simpa using hid
  rest_fresh := by simp
  fresh_mem := fun b h h' => by omega
  block_other := fun _ _ _ => rfl
  code := by simp
  edge_old := fun e r hr => by rw [moveSource_self, hr]
  edge_new := fun e r hr => Or.inl ⟨r, hr⟩
  placement := by simp
  cleanups := (resumeAt_self _ _).symm

theorem SplitInto.cons {c₁ : Cfg ι π} {index : Nat} {payload : π} {b : BasicBlock ι}
    (hc : c.WF) (hn : c.NamesSlots) (hs : IsSplit c id index payload b c₁)
    (h : SplitInto c₁ c.blockBound rest last c') :
    SplitInto c id (c.blockBound :: rest) last c' where
  wf := h.wf
  names := h.names
  entry := h.entry.trans hs.entry
  bound_le := by have := h.bound_le; have := hs.blockBound; omega
  edgeBound_le := by have := h.edgeBound_le; have := hs.edgeBound; omega
  getLast := by
    rw [getLast?_cons_cons]
    exact h.getLast
  live := by
    intro x hx
    rcases mem_cons.mp hx with rfl | hx
    · have hlt := hs.id_lt
      rw [containsBlock, h.block_other x (by have := hs.blockBound; omega) (by omega), hs.block,
        if_neg (by omega), if_pos rfl]
      rfl
    · exact h.live x hx
  rest_fresh := by
    intro x hx
    rcases mem_cons.mp hx with rfl | hx
    · exact Nat.le_refl _
    · have := h.rest_fresh x hx
      have := hs.blockBound
      omega
  fresh_mem := by
    intro x hx hx'
    by_cases heq : x = c.blockBound
    · exact mem_cons.mpr (Or.inl heq)
    · exact mem_cons_of_mem _ (h.fresh_mem x (by have := hs.blockBound; omega) hx')
  block_other := by
    intro x hx hne
    rw [h.block_other x (by have := hs.blockBound; omega) (by omega), hs.block, if_neg (by omega),
      if_neg hne]
  code := by
    have hlt := hs.id_lt
    have hhead : c'.instructions id = b.instructions.take index := by
      have hblock : c'.block id = some { b with instructions := b.instructions.take index } := by
        rw [h.block_other id (by have := hs.blockBound; omega) (by omega), hs.block,
          if_neg (by omega), if_pos rfl]
      exact instructions_eq hblock
    have htail : c₁.instructions c.blockBound = b.instructions.drop index :=
      instructions_eq (by rw [hs.block, if_pos rfl])
    rw [flatMap_cons, ← h.code, hhead, htail, take_append_drop]
    exact instructions_eq hs.head
  edge_old := by
    intro e r hr
    rw [h.edge_old e _ (hs.edge_old hr)]
    have hlt := hs.id_lt
    have hsrc := block_lt (hc.source_live hr)
    congr 1
    unfold moveSource
    by_cases hid : r.source = id
    · simp [hid]
    · have : r.source ≠ c.blockBound := by omega
      simp [hid, this]
  edge_new := by
    intro e r hr
    rcases h.edge_new e r hr with ⟨r₁, hr₁⟩ | hmem
    · rcases hs.edge_cases hr₁ with ⟨rfl, rfl⟩ | ⟨r₀, hr₀, _⟩
      · -- the new edge of the first split keeps its source
        right
        have hkeep := h.edge_old _ _ hr₁
        rw [hr] at hkeep
        have hne : id ≠ c.blockBound := Nat.ne_of_lt hs.id_lt
        obtain rfl := Option.some.inj hkeep
        simp [moveSource, hne]
      · exact Or.inl ⟨r₀, hr₀⟩
    · exact Or.inr (mem_cons_of_mem _ hmem)
  placement := by
    intro x
    rw [h.placement, hs.placement hn]
    congr 1
    by_cases hx : x ∈ rest
    · simp [hx]
    · by_cases hb : x = c.blockBound <;> simp [hx, hb]
  cleanups := by
    rw [h.cleanups, hs.cleanups]
    unfold resumeAt
    rw [map_map]
    apply map_congr_left
    intro cleanup hcleanup
    have hlt := hn.resume_lt cleanup hcleanup
    simp only [Function.comp_apply, extendCleanup, Cleanup.mk.injEq, true_and, and_true]
    cases hr : cleanup.resumeFrom with
    | none => simp
    | some x =>
      have := hlt x hr
      by_cases hx : x = id
      · simp [hx]
      · have hxb : x ≠ c.blockBound := by omega
        simp [hx, hxb]

/-- Each part keeps its unwinds: no throwing instruction lies before a split
point, or no unwind edge leaves the block. -/
def KeepsUnwinds (throws : ι → Bool) (c : Cfg ι π) (id : Nat) (points : List Nat) : Prop :=
  (∀ point ∈ points, ∀ a ∈ (c.instructions id).take point, throws a = false) ∨
    ∀ t, ¬ c.flow.unwind id t

theorem splitAtPoints_spec (throws : ι → Bool) {points : List (Nat × π)} {current base : Nat}
    {blocks blocks' : List Nat} {mapping mapping' : Rewrite} (hc : c.WF) (hn : c.NamesSlots)
    (hcur : c.containsBlock current) (hsorted : (base :: points.map (·.1)).Pairwise (· ≤ ·))
    (hs : splitAtPoints c current base points blocks mapping = some (blocks', mapping', c')) :
    ∃ rest last, blocks' = blocks ++ rest ∧ SplitInto c current rest last c' ∧
      (KeepsUnwinds throws c current (points.map (·.1 - base)) → SameTraces throws c c') := by
  induction points generalizing c current base blocks mapping with
  | nil =>
    cases hs
    exact ⟨[], current, (append_nil _).symm, .refl hc hn hcur, fun _ => .refl throws _⟩
  | cons pp points ih =>
    obtain ⟨point, payload⟩ := pp
    simp only [splitAtPoints, Option.bind_eq_bind, Option.bind_eq_some_iff, Prod.exists] at hs
    obtain ⟨tail, c₁, split?, hsplit, split, rfl, hs⟩ := hs
    obtain ⟨rfl, ⟨b, his⟩, _⟩ := splitBlockWithPayloadInner_spec hc hsplit
    have htail : c₁.containsBlock c.blockBound := by
      rw [containsBlock, his.block, if_pos rfl]
      rfl
    have hbase : base ≤ point := rel_of_pairwise_cons hsorted (by simp)
    obtain ⟨rest, last, rfl, hinto, hsame⟩ :=
      ih his.wf (his.namesSlots hn) htail (List.Pairwise.of_cons hsorted) hs
    refine ⟨c.blockBound :: rest, last, by simp, hinto.cons hc hn his, ?_⟩
    intro hkeep
    have hcode : c.instructions current = b.instructions := instructions_eq his.head
    have htailcode : c₁.instructions c.blockBound = b.instructions.drop (point - base) :=
      instructions_eq (by rw [his.block, if_pos rfl])
    refine (his.sameTraces hc ?_).trans (hsame ?_)
    · refine hkeep.imp_left fun hthrow a ha => ?_
      exact hthrow (point - base) (by simp) a (hcode ▸ ha)
    · rcases hkeep with hthrow | hno
      · -- what lies before a later point of the tail lies before it in the block
        left
        intro p hp a ha
        obtain ⟨q, hq, rfl⟩ := mem_map.mp hp
        rw [htailcode] at ha
        have hpq : point ≤ q.1 :=
          rel_of_pairwise_cons (List.Pairwise.of_cons hsorted) (mem_map.mpr ⟨q, hq, rfl⟩)
        refine hthrow (q.1 - base) (mem_map.mpr ⟨q, mem_cons_of_mem _ hq, rfl⟩) a ?_
        rw [take_drop, show point - base + (q.1 - point) = q.1 - base by omega] at ha
        exact hcode ▸ mem_of_mem_drop ha
      · exact Or.inr fun t hu => hno t ((his.leads_tail hc (P := Unwinding)).mp hu)

theorem SplitInto.sameTraces_of_not_entered {throws : ι → Bool}
    (hc : c.WF) (h : SplitInto c id rest last c') (hno : ¬ c.flow.Entered throws c.entry id) :
    SameTraces throws c c' := by
  have hlast : last ∈ id :: rest := mem_of_getLast? h.getLast
  have hleads : ∀ (P : EdgeKind → Prop) a t, a ≠ id → a < c.blockBound →
      (c'.Leads P a t ↔ c.Leads P a t) := by
    intro P a t ha hlt
    have hout : ∀ x ∈ id :: rest, x ≠ a := by
      intro x hx
      rcases mem_cons.mp hx with rfl | hx
      · exact Ne.symm ha
      · have := h.rest_fresh x hx
        omega
    constructor
    · rintro ⟨e, r, hr, hs, ht, hk⟩
      rcases h.edge_new e r hr with ⟨r₀, hr₀⟩ | hmem
      · have hold := h.edge_old e r₀ hr₀
        rw [hr] at hold
        obtain rfl := Option.some.inj hold
        rw [source_moveSource] at hs
        split at hs
        · exact absurd hs (hout last hlast)
        · exact ⟨e, r₀, hr₀, hs, by simpa using ht, by simpa using hk⟩
      · exact absurd hs (hout _ hmem)
    · rintro ⟨e, r, hr, hs, ht, hk⟩
      refine ⟨e, _, h.edge_old e r hr, ?_, by simpa using ht, by simpa using hk⟩
      rw [source_moveSource, if_neg (hs ▸ ha), hs]
  have hkept : ∀ {b}, c.flow.Entered throws c.entry b ∧ c.containsBlock b →
      b ≠ id ∧ b < c.blockBound := fun hb => ⟨fun he => hno (he ▸ hb.1), block_lt hb.2⟩
  have hagrees : Flow.Agrees throws c.flow c'.flow
      (fun b => c.flow.Entered throws c.entry b ∧ c.containsBlock b) := by
    refine ⟨?_, ?_, ?_, ?_, ?_⟩
    · intro b hb
      obtain ⟨hne, hlt⟩ := hkept hb
      simp only [flow, h.block_other b hlt hne]
    · intro a b ha
      exact hleads Sequential a b (hkept ha).1 (hkept ha).2
    · intro a b ha
      exact hleads Unwinding a b (hkept ha).1 (hkept ha).2
    · intro a b l ha hl hn
      obtain ⟨e, r, hr, _, rfl, _⟩ := hn
      exact ⟨ha.1.normal hl ⟨e, r, hr, by assumption, rfl, by assumption⟩, hc.target_live hr⟩
    · intro a b l x ha hl hx hthrow hu
      obtain ⟨e, r, hr, _, rfl, _⟩ := hu
      exact ⟨ha.1.unwind hl hx hthrow ⟨e, r, hr, by assumption, rfl, by assumption⟩,
        hc.target_live hr⟩
  have hsame := hagrees.sameTraces ⟨⟨[], .refl _⟩, hc.entry⟩
  unfold SameTraces
  rwa [h.entry]

/-! ## Both entry points -/

inductive SplitRequest (π : Type) where
  | single (index : Nat) (payload : π)
  | atPoints (points : List (Nat × π))

def SplitRequest.points : SplitRequest π → List Nat
  | .single index _ => [index]
  | .atPoints points => points.map (·.1)

/-- The resulting blocks in execution order, or the error, and the graph afterwards. -/
def runSplit (c : Cfg ι π) (id : Nat) :
    SplitRequest π → Option (Except SplitPointError (List Nat) × Cfg ι π)
  | .single index payload =>
    (c.splitBlockWithPayload id index payload).map fun (newId, c') => (.ok [id, newId], c')
  | .atPoints points =>
    (c.splitBlockAtPointsWithPayloads id points).map fun (result, c') => (result.map (·.1), c')

/-- The parts hold the block's instructions in order and belong wherever it did,
and a cleanup resumes from the part that holds the exits. -/
structure SplitKeeps (c : Cfg ι π) (id : Nat) (blocks : List Nat) (c' : Cfg ι π) : Prop where
  code : c.instructions id = blocks.flatMap c'.instructions
  other : ∀ b, c.containsBlock b → b ≠ id → c'.block b = c.block b
  placement : ∀ b, c'.placement b = c.placement (if b ∈ blocks then id else b)
  exits : ∃ last, blocks.getLast? = some last ∧ c'.cleanups = resumeAt id last c.cleanups ∧
    ∀ e r, c.edge e = some r → r.source = id → c'.edge e = some { r with source := last }

theorem SplitInto.keeps (h : SplitInto c id rest last c') : SplitKeeps c id (id :: rest) c' where
  code := h.code
  other := fun b hb hne => h.block_other b (block_lt hb) hne
  placement := by
    intro b
    rw [h.placement]
    congr 1
    by_cases hb : b = id
    · simp [hb]
    · simp [hb]
  exits := by
    refine ⟨last, h.getLast, h.cleanups, ?_⟩
    intro e r hr hs
    rw [h.edge_old e r hr, moveSource, if_pos hs]

theorem sorted_of_validatePoints {n : Nat} {points : List Nat} {previous : Option Nat}
    (h : validatePoints n previous points = none) :
    (previous.toList ++ points).Pairwise (· ≤ ·) := by
  induction points generalizing previous with
  | nil => cases previous <;> simp
  | cons point points ih =>
    unfold validatePoints at h
    split at h
    · cases h
    cases previous with
    | none => exact ih h
    | some p =>
      simp only at h
      split at h
      · cases h
      next hlt =>
      have hrest : (point :: points).Pairwise (· ≤ ·) := ih h
      change (p :: point :: points).Pairwise (· ≤ ·)
      refine pairwise_cons.mpr ⟨?_, hrest⟩
      intro x hx
      rcases mem_cons.mp hx with rfl | hx
      · omega
      · have := rel_of_pairwise_cons hrest hx
        omega

/-- An error leaves the graph as it was.  Otherwise the split keeps code,
regions, handler bodies and cleanups, and it keeps every trace unless control
enters the block, an unwind edge leaves it and an instruction before the last
split point throws. -/
theorem split_faithful (throws : ι → Bool) (hc : c.WF) (hn : c.NamesSlots) (id : Nat)
    (request : SplitRequest π) {result : Except SplitPointError (List Nat)}
    (hs : c.runSplit id request = some (result, c')) : (∀ error, result = .error error → c' = c) ∧
      ∀ blocks, result = .ok blocks → SplitKeeps c id blocks c' ∧
        (¬ c.flow.Entered throws c.entry id ∨ KeepsUnwinds throws c id request.points →
          SameTraces throws c c') := by
  cases request with
  | single index payload =>
    simp only [runSplit, splitBlockWithPayload, Option.map_map, Option.map_eq_some_iff,
      Prod.exists] at hs
    obtain ⟨newId, c₁, mapping, hsplit, hres⟩ := hs
    cases hres
    obtain ⟨rfl, ⟨b, his⟩, _⟩ := splitBlockWithPayloadInner_spec hc hsplit
    have htail : c₁.containsBlock c.blockBound := by
      rw [containsBlock, his.block, if_pos rfl]
      rfl
    have hinto := (SplitInto.refl his.wf (his.namesSlots hn) htail).cons hc hn his
    refine ⟨fun error he => (by cases he), ?_⟩
    intro blocks hb
    cases hb
    refine ⟨hinto.keeps, ?_⟩
    rintro (hno | hkeep)
    · exact hinto.sameTraces_of_not_entered hc hno
    · refine his.sameTraces hc (hkeep.imp_left fun hthrow a ha => ?_)
      refine hthrow index (by simp [SplitRequest.points]) a ?_
      rw [instructions_eq his.head]
      exact ha
  | atPoints points =>
    simp only [runSplit, splitBlockAtPointsWithPayloads, Option.bind_eq_bind,
      Option.map_eq_some_iff, Option.bind_eq_some_iff, Prod.exists] at hs
    obtain ⟨result₀, c₁, ⟨block, hblock, hs⟩, hres⟩ := hs
    cases hres
    split at hs
    · next error _ =>
      cases hs
      refine ⟨fun _ _ => rfl, fun blocks hb => by cases hb⟩
    next hvalid =>
    simp only [Option.bind_eq_some_iff, Prod.exists] at hs
    obtain ⟨blocks, mapping, c₂, hsplit, hres⟩ := hs
    cases hres
    refine ⟨fun error he => (by cases he), ?_⟩
    intro blocks' hb
    cases hb
    have hid : c.containsBlock id := by simp [containsBlock, hblock]
    have hsorted : (0 :: points.map (·.1)).Pairwise (· ≤ ·) :=
      pairwise_cons.mpr ⟨fun _ _ => Nat.zero_le _, sorted_of_validatePoints hvalid⟩
    obtain ⟨rest, last, rfl, hinto, hsame⟩ :=
      splitAtPoints_spec throws hc hn hid hsorted hsplit
    refine ⟨hinto.keeps, ?_⟩
    rintro (hno | hkeep)
    · exact hinto.sameTraces_of_not_entered hc hno
    · exact hsame hkeep

/-- Two instructions with an unwind edge to a handler. -/
def unwindingPair : Cfg Nat Unit :=
  ofParts [[1, 2], [9]] [(0, 1, .exceptionUnwind, ())]

theorem wf_unwindingPair : unwindingPair.WF := wf_ofParts rfl

theorem namesSlots_unwindingPair : unwindingPair.NamesSlots :=
  ⟨fun _ h => (by cases h), fun _ h => (by cases h), fun _ h => (by cases h)⟩

/-- Only the second instruction throws, so a split between the two is faithful. -/
theorem split_faithful_unwindingPair : ∃ c',
    unwindingPair.runSplit 0 (.atPoints [(1, ())]) = some (.ok [0, 2], c') ∧
      SplitKeeps unwindingPair 0 [0, 2] c' ∧ SameTraces (· == 2) unwindingPair c' := by
  refine ⟨_, rfl, ?_⟩
  obtain ⟨hkeeps, hsame⟩ := (split_faithful (· == 2) wf_unwindingPair
    namesSlots_unwindingPair 0 (.atPoints [(1, ())]) rfl).2 [0, 2] rfl
  exact ⟨hkeeps, hsame (Or.inr (Or.inl (by decide)))⟩

/-- The first instruction throws: after the split it no longer reaches the handler. -/
theorem split_unwindingPair_loses_unwind : ∃ c',
    unwindingPair.runSplit 0 (.atPoints [(1, ())]) = some (.ok [0, 2], c') ∧
      ¬ SameTraces (· == 1) unwindingPair c' := by
  refine ⟨_, rfl, ?_⟩
  intro hsame
  have hraise : unwindingPair.flow.Step (· == 1) (0, 0) none (1, 0) :=
    .raise (a := 1) rfl rfl rfl ⟨0, _, rfl, rfl, rfl, rfl⟩
  have hexec : unwindingPair.flow.Step (· == 1) (1, 0) (some 9) (1, 1) := .exec rfl rfl
  have hbefore : Emits (unwindingPair.flow.Step (· == 1)) (0, 0) [9] :=
    ⟨(1, 1), (Plus.silent_single hraise hexec).run⟩
  have hafter := (hsame.partial_iff [9]).mp hbefore
  have hhead : 9 = 1 := by
    refine Flow.head_of_emits (l := []) (b := 0) (x := 1) rfl ?_ hafter
    rintro t ⟨e, r, hr, hs, _, hk⟩
    match e, hr with
    | 0, hr => cases hr; cases hs
    | 1, hr => cases hr; cases hk
  cases hhead

end CfgLib.Cfg
