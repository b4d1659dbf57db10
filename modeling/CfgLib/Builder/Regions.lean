import CfgLib.Builder.Edges

/-!
# The regions

`builder/address.rs`: the handlers that share a range become one region, nested in
the innermost region that strictly encloses it.
-/

namespace CfgLib.Builder

open CfgLib.Lib CfgLib.Cfg List

variable {ι A K π : Type}

variable [AddressSpace A] {handlers : List (AddressHandler A)} {handlerIndex : HandlerIndex}

/-! ## Drafts -/

structure Drafted (handlerIndex : HandlerIndex) (done : List (AddressHandler A))
    (drafts : List (Draft A)) : Prop where
  indices : (drafts.flatMap (·.handlerIndices)).Perm (List.range done.length)
  ranges : ∀ draft ∈ drafts, ∀ i ∈ draft.handlerIndices, ∃ handler, done[i]? = some handler ∧
    handler.start = draft.start ∧ handler.stop = draft.stop
  positions : ∀ draft ∈ drafts, ∃ i ∈ draft.handlerIndices,
    handlerIndex.ranges[i]? = some draft.positions

omit [AddressSpace A] in
theorem getElem?_append_of_some {α : Type} {l : List α} {i : Nat} {a b : α} (h : l[i]? = some a) :
    (l ++ [b])[i]? = some a := getElem?_append_singleton.mpr (Or.inl h)

variable {draft outer : Draft A} {drafts : List (Draft A)} {index p : Nat}

theorem Drafted.step {done : List (AddressHandler A)} {handler : AddressHandler A}
    {drafts' : List (Draft A)} (h : Drafted handlerIndex done drafts)
    (hs : draftHandler handlerIndex drafts (handler, done.length) = some drafts') :
    Drafted handlerIndex (done ++ [handler]) drafts' := by
  have hlast : (done ++ [handler])[done.length]? = some handler :=
    getElem?_append_singleton.mpr (Or.inr ⟨rfl, rfl⟩)
  have hrange : (List.range (done ++ [handler]).length) = List.range done.length ++ [done.length] := by
    rw [length_append, length_singleton, range_succ]
  unfold draftHandler at hs
  split at hs
  · next position hfind =>
    cases hs
    obtain ⟨hlt, hsame, _⟩ := findIdx?_eq_some_iff_getElem.mp hfind
    simp only [Bool.and_eq_true, decide_eq_true_eq] at hsame
    obtain ⟨before, found, after, hdrafts, rfl, hmodify⟩ := exists_of_modify
      (fun draft : Draft A =>
        { draft with handlerIndices := draft.handlerIndices ++ [done.length] }) hlt
    subst hdrafts
    simp only [getElem_append_right (Nat.le_refl _), Nat.sub_self, getElem_cons_zero]
      at hsame
    simp only [hmodify]
    refine ⟨?_, ?_, ?_⟩
    · rw [hrange]
      refine List.Perm.trans ?_ (h.indices.append_right [done.length])
      simp only [flatMap_append, flatMap_cons, append_assoc]
      exact (perm_append_comm.append_left _).append_left _
    · intro draft hdraft i hi
      rcases mem_append.mp hdraft with hdraft | hdraft
      · obtain ⟨x, hx, hrest⟩ := h.ranges draft (mem_append_left _ hdraft) i hi
        exact ⟨x, getElem?_append_of_some hx, hrest⟩
      rcases mem_cons.mp hdraft with rfl | hdraft
      · rcases mem_append.mp hi with hi | hi
        · obtain ⟨x, hx, hrest⟩ := h.ranges found
            (mem_append_right _ mem_cons_self) i hi
          exact ⟨x, getElem?_append_of_some hx, hrest⟩
        · rw [mem_singleton.mp hi]
          exact ⟨handler, hlast, hsame.1.symm, hsame.2.symm⟩
      · obtain ⟨x, hx, hrest⟩ := h.ranges draft
          (mem_append_right _ (mem_cons_of_mem _ hdraft)) i hi
        exact ⟨x, getElem?_append_of_some hx, hrest⟩
    · intro draft hdraft
      rcases mem_append.mp hdraft with hdraft | hdraft
      · exact h.positions draft (mem_append_left _ hdraft)
      rcases mem_cons.mp hdraft with rfl | hdraft
      · obtain ⟨i, hi, hpositions⟩ := h.positions found (mem_append_right _ mem_cons_self)
        exact ⟨i, mem_append_left _ hi, hpositions⟩
      · exact h.positions draft (mem_append_right _ (mem_cons_of_mem _ hdraft))
  · obtain ⟨positions, hpositions, hs⟩ := Option.bind_eq_some_iff.mp hs
    cases hs
    refine ⟨?_, ?_, ?_⟩
    · rw [hrange, flatMap_append]
      exact h.indices.append_right _
    · intro draft hdraft i hi
      rcases mem_append.mp hdraft with hdraft | hdraft
      · obtain ⟨x, hx, hrest⟩ := h.ranges draft hdraft i hi
        exact ⟨x, getElem?_append_of_some hx, hrest⟩
      · rw [mem_singleton] at hdraft
        subst hdraft
        rw [mem_singleton.mp hi]
        exact ⟨handler, hlast, rfl, rfl⟩
    · intro draft hdraft
      rcases mem_append.mp hdraft with hdraft | hdraft
      · exact h.positions draft hdraft
      · rw [mem_singleton] at hdraft
        subst hdraft
        exact ⟨done.length, mem_singleton_self _, hpositions⟩

theorem foldlM_draftHandler (hs : handlers.zipIdx.foldlM (draftHandler handlerIndex) [] = some drafts) :
    Drafted handlerIndex handlers drafts := by
  have hnil : Drafted handlerIndex ([] : List (AddressHandler A)) [] :=
    ⟨List.Perm.refl _, fun _ h => (by cases h), fun _ h => (by cases h)⟩
  exact foldlM_zipIdx (I := Drafted handlerIndex) (fun _ _ _ _ h hstep => h.step hstep) hnil hs

omit [AddressSpace A] in
theorem Drafted.perm {drafts drafts' : List (Draft A)} (h : Drafted handlerIndex handlers drafts)
    (hperm : drafts'.Perm drafts) : Drafted handlerIndex handlers drafts' where
  indices := (hperm.flatMap_right _).trans h.indices
  ranges draft hdraft := h.ranges draft (hperm.mem_iff.mp hdraft)
  positions draft hdraft := h.positions draft (hperm.mem_iff.mp hdraft)

theorem sortDrafts_spec (drafts : List (Draft A)) : (sortDrafts drafts).Perm drafts ∧
      (sortDrafts drafts).Pairwise fun a b => b.span ≤ a.span := by
  refine ⟨perm_insertionSort _ _, ?_⟩
  have htotal : Std.Total fun a b : Draft A => b.span ≤ a.span := ⟨fun a b => Nat.le_total _ _⟩
  have htrans : IsTrans (Draft A) fun a b => b.span ≤ a.span := ⟨fun a b c hab hbc => hbc.trans hab⟩
  exact pairwise_insertionSort _ _

/-! ## Parents -/

/-- One range strictly holds another. -/
def Encloses (outer inner : AddressHandler A) : Prop :=
  outer.start ≤ inner.start ∧ inner.stop ≤ outer.stop ∧
    (outer.start ≠ inner.start ∨ outer.stop ≠ inner.stop)

theorem strictlyContains_iff {inner : Draft A} : strictlyContains outer inner = true ↔
    outer.start ≤ inner.start ∧ inner.stop ≤ outer.stop ∧
      (outer.start ≠ inner.start ∨ outer.stop ≠ inner.stop) := by
  unfold strictlyContains
  simp only [Bool.and_eq_true, Bool.or_eq_true, decide_eq_true_eq]
  tauto

theorem span_lt [LawfulAddressSpace A] {inner : Draft A} (hlt : inner.start < inner.stop)
    (h : strictlyContains outer inner = true) : inner.span < outer.span := by
  obtain ⟨hstart, hstop, hne⟩ := strictlyContains_iff.mp h
  exact LawfulAddressSpace.distance_lt hstart hstop hlt hne

theorem lt_of_strictlyContains [LawfulAddressSpace A] (hsorted : drafts.Pairwise fun a b => b.span ≤ a.span)
    (hdraft : drafts[index]? = some draft) (hlt : draft.start < draft.stop)
    (houter : drafts[p]? = some outer) (h : strictlyContains outer draft = true) : p < index := by
  have hspan := span_lt hlt h
  obtain ⟨hiLt, hiGet⟩ := List.getElem?_eq_some_iff.mp hdraft
  obtain ⟨hpLt, hpGet⟩ := List.getElem?_eq_some_iff.mp houter
  by_contra hnot
  rcases Nat.lt_or_ge index p with hip | hip
  · have hle := pairwise_iff_getElem.mp hsorted index p hiLt hpLt hip
    rw [hpGet, hiGet] at hle
    omega
  · have heq : p = index := by omega
    subst heq
    rw [hdraft] at houter
    cases houter
    omega

theorem mem_candidates : (outer, p) ∈ ((drafts.take index).zipIdx.filter fun numbered =>
      strictlyContains numbered.1 draft) ↔
      p < index ∧ drafts[p]? = some outer ∧ strictlyContains outer draft = true := by
  rw [mem_filter, mem_zipIdx_iff_getElem?, getElem?_take]
  by_cases hp : p < index
  · simp [hp]
  · simp [hp]

theorem parentOf_none (h : parentOf drafts index draft = none) (hp : p < index)
    (houter : drafts[p]? = some outer) : strictlyContains outer draft = false := by
  have hnil := (minByKey_spec _ _).1 (Option.map_eq_none_iff.mp h)
  have hnone := List.eq_nil_iff_forall_not_mem.mp hnil (outer, p)
  rw [mem_candidates] at hnone
  cases hcontains : strictlyContains outer draft with
  | false => rfl
  | true => exact absurd ⟨hp, houter, hcontains⟩ hnone

theorem parentOf_some {parent : Nat} (h : parentOf drafts index draft = some parent) : parent < index ∧
      ∃ outer, drafts[parent]? = some outer ∧ strictlyContains outer draft = true ∧
        ∀ (p : Nat) (other : Draft A), p < index → drafts[p]? = some other →
          strictlyContains other draft = true → outer.span ≤ other.span := by
  obtain ⟨⟨outer, p⟩, hmin, rfl⟩ := Option.map_eq_some_iff.mp h
  obtain ⟨hmem, hleast⟩ := (minByKey_spec _ _).2 _ hmin
  rw [mem_candidates] at hmem
  obtain ⟨hp, houter, hcontains⟩ := hmem
  refine ⟨hp, outer, houter, hcontains, fun p' other hp' hother hcontains' => hleast (other, p') ?_⟩
  rw [mem_candidates]
  exact ⟨hp', hother, hcontains'⟩

/-! ## Registering -/

theorem mapM_spec {α β : Type} {f : α → Option β} {l : List α} : ∀ {l' : List β},
    l.mapM f = some l' → l'.length = l.length ∧
      ∀ (i : Nat) (a : α), l[i]? = some a → ∃ b, l'[i]? = some b ∧ f a = some b := by
  induction l with
  | nil =>
    intro l' h
    cases h
    exact ⟨rfl, fun i a ha => by cases ha⟩
  | cons a l ih =>
    intro l' h
    rw [mapM_cons] at h
    obtain ⟨b, hb, h⟩ := Option.bind_eq_some_iff.mp h
    obtain ⟨rest, hrest, h⟩ := Option.bind_eq_some_iff.mp h
    cases h
    obtain ⟨hlength, hget⟩ := ih hrest
    refine ⟨by rw [length_cons, length_cons, hlength], fun i a' ha' => ?_⟩
    cases i with
    | zero =>
      cases ha'
      exact ⟨b, rfl, hb⟩
    | succ i => exact hget i a' ha'

theorem mem_mapM {α β : Type} {f : α → Option β} {l : List α} {l' : List β}
    (h : l.mapM f = some l') {b : β} : b ∈ l' ↔ ∃ a ∈ l, f a = some b := by
  obtain ⟨hlength, hget⟩ := mapM_spec h
  constructor
  · intro hb
    obtain ⟨i, hi⟩ := getElem?_of_mem hb
    have hlt := (List.getElem?_eq_some_iff.mp hi).1
    obtain ⟨b', hb', hf⟩ := hget i _ (getElem?_eq_getElem (hlength ▸ hlt))
    rw [hi] at hb'
    cases hb'
    exact ⟨_, getElem_mem _, hf⟩
  · intro ⟨a, ha, hf⟩
    obtain ⟨i, hi⟩ := getElem?_of_mem ha
    obtain ⟨b', hb', hf'⟩ := hget i a hi
    rw [hf] at hf'
    cases hf'
    exact mem_of_getElem? hb'

structure RegionOf (handlers : List (AddressHandler A)) (handlerIndex : HandlerIndex)
    (blocksByInstruction : List Nat) (drafts : List (Draft A)) (index : Nat) (draft : Draft A)
    (region : Region) : Prop where
  id : region.id = index
  protects : ∀ b, b ∈ region.protectedBlocks ↔
    ∃ p ∈ positionsOf draft.positions, blocksByInstruction[p]? = some b
  length : region.handlers.length = draft.handlerIndices.length
  handlers : ∀ (j i : Nat), draft.handlerIndices[j]? = some i → ∃ handler,
    region.handlers[j]? = some handler ∧
      regionHandler handlers handlerIndex blocksByInstruction i = some handler
  parent : region.parent = parentOf drafts index draft

structure Registered (handlers : List (AddressHandler A)) (handlerIndex : HandlerIndex)
    (blocksByInstruction : List Nat) (drafts : List (Draft A)) (c : Cfg ι π)
    (done : List (Draft A)) (s : Registering ι π) : Prop where
  graph : s.cfg.graph = c.graph
  entry : s.cfg.entry = c.entry
  regionIds : s.regionIds = List.range done.length
  length : s.cfg.regions.length = done.length
  regions : ∀ (index : Nat) (draft : Draft A), done[index]? = some draft → ∃ region,
    s.cfg.regions[index]? = some region ∧
      RegionOf handlers handlerIndex blocksByInstruction drafts index draft region
  lengthRefs : s.handlerRefs.length = handlers.length
  handlerRefs : ∀ (index : Nat) (draft : Draft A) (j i : Nat), done[index]? = some draft →
    draft.handlerIndices[j]? = some i → i < handlers.length →
    s.handlerRefs[i]? = some (some ⟨index, j⟩)

theorem foldl_set_spec (region : Nat) {l : List Nat} (hnodup : l.Nodup)
    (refs : List (Option HandlerRef)) : ∀ (start : Nat),
    let after := (l.zipIdx start).foldl
      (fun refs (handler : Nat × Nat) => refs.set handler.1 (some ⟨region, handler.2⟩)) refs
    after.length = refs.length ∧ (∀ i, i ∉ l → after[i]? = refs[i]?) ∧
      ∀ j i, l[j]? = some i → i < refs.length → after[i]? = some (some ⟨region, start + j⟩) := by
  induction l generalizing refs with
  | nil => exact fun start => ⟨rfl, fun i _ => rfl, fun j i h => by cases h⟩
  | cons first rest ih =>
    intro start
    obtain ⟨hfirst, hnodup⟩ := nodup_cons.mp hnodup
    obtain ⟨hlength, hkeep, hset⟩ := ih hnodup (refs.set first (some ⟨region, start⟩)) (start + 1)
    rw [length_set] at hlength hset
    simp only [zipIdx_cons, foldl_cons]
    refine ⟨hlength, fun i hi => ?_, fun j i hj hi => ?_⟩
    · rw [hkeep i fun h => hi (mem_cons_of_mem _ h), getElem?_set_ne]
      exact fun h => hi (h ▸ mem_cons_self)
    · cases j with
      | zero =>
        cases hj
        rw [hkeep first hfirst, getElem?_set_self hi]
        rfl
      | succ j =>
        have hnext := hset j i hj hi
        rw [Nat.add_right_comm] at hnext
        exact hnext

theorem addRegion_spec {c c' : Cfg ι π} {region : Region} {id : Nat}
    (hs : c.addRegion region = some (id, c')) : id = c.regions.length ∧
      c' = { c with regions := c.regions ++ [{ region with id := c.regions.length }] } := by
  unfold Cfg.addRegion at hs
  split at hs
  · cases hs
    exact ⟨rfl, rfl⟩
  · cases hs

variable {blocksByInstruction : List Nat} {drafts : List (Draft A)} {c : Cfg ι π}

theorem Registered.step {done rest : List (Draft A)} {s s' : Registering ι π} (hdrafts : drafts = done ++ draft :: rest)
    (hnodup : (drafts.flatMap (·.handlerIndices)).Nodup)
    (h : Registered handlers handlerIndex blocksByInstruction drafts c done s)
    (hs : registerDraft handlers handlerIndex blocksByInstruction drafts s (draft, done.length) = some s') :
    Registered handlers handlerIndex blocksByInstruction drafts c (done ++ [draft]) s' := by
  obtain ⟨protectedBlocks, hprotected, hs⟩ := Option.bind_eq_some_iff.mp hs
  obtain ⟨regionHandlers, hhandlers, hs⟩ := Option.bind_eq_some_iff.mp hs
  obtain ⟨⟨region, c'⟩, hadd, hs⟩ := Option.bind_eq_some_iff.mp hs
  obtain ⟨rfl, rfl⟩ := addRegion_spec hadd
  cases hs
  rw [hdrafts, flatMap_append, flatMap_cons] at hnodup
  obtain ⟨_, hnodup', hdisjoint⟩ := nodup_append.mp hnodup
  obtain ⟨hdraftNodup, _, _⟩ := nodup_append.mp hnodup'
  obtain ⟨hlengthRefs, hkeep, hset⟩ :=
    foldl_set_spec s.cfg.regions.length hdraftNodup s.handlerRefs 0
  refine ⟨h.graph, h.entry, ?_, ?_, ?_, hlengthRefs.trans h.lengthRefs, ?_⟩
  · change s.regionIds ++ [s.cfg.regions.length] = _
    rw [h.regionIds, h.length, length_append, length_singleton, range_succ]
  · change (s.cfg.regions ++ [_]).length = _
    rw [length_append, length_append, h.length, length_singleton,
      length_singleton]
  · intro index d hd
    rcases getElem?_append_singleton.mp hd with hd | ⟨rfl, rfl⟩
    · obtain ⟨region, hregion, hof⟩ := h.regions index d hd
      exact ⟨region, getElem?_append_of_some hregion, hof⟩
    · refine ⟨_, getElem?_append_singleton.mpr (Or.inr ⟨h.length.symm, rfl⟩), h.length, ?_, ?_, ?_, ?_⟩
      · intro b
        rw [mem_toFinset, mem_mapM hprotected]
      · exact (mapM_spec hhandlers).1
      · exact (mapM_spec hhandlers).2
      · change (parentOf drafts done.length d).bind _ = _
        cases hparent : parentOf drafts done.length d with
        | none => rfl
        | some parent =>
          have hlt := (parentOf_some hparent).1
          rw [Option.bind_some, h.regionIds]
          exact getElem?_range hlt
  · intro index d j i hd hj hi
    rcases getElem?_append_singleton.mp hd with hd | ⟨rfl, rfl⟩
    · refine (hkeep i fun hmem => ?_).trans (h.handlerRefs index d j i hd hj hi)
      refine hdisjoint i ?_ i (mem_append_left _ hmem) rfl
      exact mem_flatMap.mpr ⟨d, mem_of_getElem? hd, mem_of_getElem? hj⟩
    · have hnew := hset j i hj (h.lengthRefs ▸ hi)
      refine hnew.trans ?_
      rw [Nat.zero_add, h.length]

structure Regioned (handlers : List (AddressHandler A)) (handlerIndex : HandlerIndex)
    (blocksByInstruction : List Nat) (drafts : List (Draft A)) (c c' : Cfg ι π)
    (refs : List HandlerRef) : Prop where
  drafted : Drafted handlerIndex handlers drafts
  sorted : drafts.Pairwise fun a b => b.span ≤ a.span
  graph : c'.graph = c.graph
  entry : c'.entry = c.entry
  length : c'.regions.length = drafts.length
  regions : ∀ (index : Nat) (draft : Draft A), drafts[index]? = some draft → ∃ region,
    c'.regions[index]? = some region ∧
      RegionOf handlers handlerIndex blocksByInstruction drafts index draft region
  lengthRefs : refs.length = handlers.length
  refs : ∀ (index : Nat) (draft : Draft A) (j i : Nat), drafts[index]? = some draft →
    draft.handlerIndices[j]? = some i → refs[i]? = some ⟨index, j⟩

omit [AddressSpace A] in
theorem Drafted.exists_draft (h : Drafted handlerIndex handlers drafts) {i : Nat}
    (hi : i < handlers.length) : ∃ (index : Nat) (draft : Draft A) (j : Nat),
      drafts[index]? = some draft ∧ draft.handlerIndices[j]? = some i := by
  have hmem : i ∈ drafts.flatMap (·.handlerIndices) :=
    h.indices.mem_iff.mpr (mem_range.mpr hi)
  obtain ⟨draft, hdraft, hi⟩ := mem_flatMap.mp hmem
  obtain ⟨index, hindex⟩ := getElem?_of_mem hdraft
  obtain ⟨j, hj⟩ := getElem?_of_mem hi
  exact ⟨index, draft, j, hindex, hj⟩

omit [AddressSpace A] in
theorem Drafted.lt (h : Drafted handlerIndex handlers drafts) {index j i : Nat} {draft : Draft A}
    (hdraft : drafts[index]? = some draft) (hj : draft.handlerIndices[j]? = some i) :
    i < handlers.length := by
  have hmem : i ∈ drafts.flatMap (·.handlerIndices) :=
    mem_flatMap.mpr ⟨draft, mem_of_getElem? hdraft, mem_of_getElem? hj⟩
  exact mem_range.mp (h.indices.mem_iff.mp hmem)

theorem addRegions_spec {c' : Cfg ι π} {refs : List HandlerRef} (hregions : c.regions = [])
    (hs : addRegions c handlers handlerIndex blocksByInstruction = some (c', refs)) :
    ∃ drafts, Regioned handlers handlerIndex blocksByInstruction drafts c c' refs := by
  obtain ⟨drafts, hdrafts, hs⟩ := Option.bind_eq_some_iff.mp hs
  obtain ⟨s, hfold, hs⟩ := Option.bind_eq_some_iff.mp hs
  cases hs
  obtain ⟨hperm, hsorted⟩ := sortDrafts_spec drafts
  have hdrafted := (foldlM_draftHandler hdrafts).perm hperm
  generalize sortDrafts drafts = sorted at hsorted hdrafted hfold
  have hnodup : (sorted.flatMap (·.handlerIndices)).Nodup :=
    hdrafted.indices.nodup_iff.mpr nodup_range
  have hstart : Registered handlers handlerIndex blocksByInstruction sorted c ([] : List (Draft A))
      ⟨c, List.replicate handlers.length none, []⟩ :=
    ⟨rfl, rfl, rfl, congrArg List.length hregions, fun _ _ h => (by cases h),
      length_replicate, fun _ _ _ _ h => (by cases h)⟩
  -- the invariant speaks of the drafts so far as a stretch of all of them
  have h : Registered handlers handlerIndex blocksByInstruction sorted c sorted s :=
    foldlM_zipIdx (I := fun done s => (∃ rest, sorted = done ++ rest) →
        Registered handlers handlerIndex blocksByInstruction sorted c done s)
      (fun done draft s s' h hstep ⟨rest, hrest⟩ => by
        rw [append_assoc] at hrest
        exact (h ⟨_, hrest⟩).step hrest hnodup hstep)
      (fun _ => hstart) hfold ⟨[], (append_nil _).symm⟩
  have hsome : ∀ o ∈ s.handlerRefs, (id o).isSome = true := by
    intro o ho
    obtain ⟨i, hi⟩ := getElem?_of_mem ho
    have hlt := (List.getElem?_eq_some_iff.mp hi).1
    rw [h.lengthRefs] at hlt
    obtain ⟨index, draft, j, hdraft, hj⟩ := hdrafted.exists_draft hlt
    rw [h.handlerRefs index draft j i hdraft hj hlt] at hi
    cases hi
    rfl
  obtain ⟨hlength, hget⟩ := filterMap_isSome hsome
  refine ⟨sorted, hdrafted, hsorted, h.graph, h.entry, h.length, h.regions,
    hlength.trans h.lengthRefs, fun index draft j i hdraft hj => ?_⟩
  rw [hget, h.handlerRefs index draft j i hdraft hj (hdrafted.lt hdraft hj)]
  rfl

end CfgLib.Builder
