import CfgLib.Region.Extents
import CfgLib.Lib.FiniteMap
import Mathlib.Data.Finset.Sort

/-!
# Promotion of handler extents

`region/recover.rs`: candidate bodies are applied region by region, all of a
region's handlers or none, and never where two bodies overlap.
-/

namespace CfgLib

open CfgLib.Lib List

/-- Whether and why a region's handler extents were promoted. -/
inductive ExtentPromotionStatus where
  | promoted
  | ambiguousExtent (handler : HandlerRef)
  | overlappingExtents (first second : HandlerRef)
  deriving DecidableEq, Repr

structure ExtentPromotionDecision where
  region : Nat
  status : ExtentPromotionStatus
  deriving DecidableEq, Repr

namespace Promotion

variable {σ : Type}

abbrev Candidate := HandlerRef × Finset Nat

/-- Ask for the body of every handler of a region, up to the first that has none or omits its entry. -/
def gather (candidate : HandlerRef → σ → Option (Finset Nat) × σ) (region : Nat) :
    Nat → List Handler → σ → Except HandlerRef (List Candidate) × σ
  | _, [], s => (.ok [], s)
  | index, stored :: rest, s =>
    match candidate ⟨region, index⟩ s with
    | (some blocks, s) =>
      if stored.entry ∈ blocks then
        match gather candidate region (index + 1) rest s with
        | (.ok handlers, s) => (.ok ((⟨region, index⟩, blocks) :: handlers), s)
        | (.error handler, s) => (.error handler, s)
      else (.error ⟨region, index⟩, s)
    | (none, s) => (.error ⟨region, index⟩, s)

/-- The two tables of the pass, by region, and what the candidate function captured. -/
structure Tables (σ : Type) where
  candidates : FiniteMap Nat (List Candidate)
  statuses : FiniteMap Nat ExtentPromotionStatus
  captured : σ

def gatherRegion (candidate : HandlerRef → σ → Option (Finset Nat) × σ) (t : Tables σ) (region : Region) : Tables σ :=
  match gather candidate region.id 0 region.handlers t.captured with
  | (.ok handlers, s) => { t with candidates := t.candidates.insert region.id handlers, captured := s }
  | (.error handler, s) => { t with statuses := t.statuses.insert region.id (.ambiguousExtent handler), captured := s }

/-- `entry(key).or_insert(value)`. -/
def orInsert (m : FiniteMap Nat ExtentPromotionStatus) (key : Nat) (value : ExtentPromotionStatus) :
    FiniteMap Nat ExtentPromotionStatus :=
  if (m.get key).isSome then m else m.insert key value

def withhold (first : Candidate) (m : FiniteMap Nat ExtentPromotionStatus) (second : Candidate) :
    FiniteMap Nat ExtentPromotionStatus :=
  if Disjoint first.2 second.2 then m
  else
    let status := .overlappingExtents first.1 second.1
    orInsert (orInsert m first.1.region status) second.1.region status

/-- Compare every body with those after it. -/
def withholdOverlaps : List Candidate → FiniteMap Nat ExtentPromotionStatus → FiniteMap Nat ExtentPromotionStatus
  | [], m => m
  | first :: rest, m => withholdOverlaps rest (rest.foldl (withhold first) m)

def regionsOf (candidates : FiniteMap Nat (List Candidate)) : List Nat := candidates.keys.sort

def flat (candidates : FiniteMap Nat (List Candidate)) : List Candidate :=
  (regionsOf candidates).flatMap fun region => (candidates.get region).getD []

end Promotion

namespace Cfg

variable {ι π σ : Type}

open Promotion

def setBody (c : Cfg ι π) (candidate : Candidate) : Cfg ι π :=
  { c with regions := c.regions.modify candidate.1.region fun region =>
    { region with handlers := region.handlers.modify candidate.1.handler fun stored =>
      { stored with body := .known candidate.2 } } }

def applyCandidates (candidates : FiniteMap Nat (List Candidate)) :
    List Nat → Cfg ι π × FiniteMap Nat ExtentPromotionStatus → Cfg ι π × FiniteMap Nat ExtentPromotionStatus
  | [], s => s
  | region :: rest, s =>
    if (s.2.get region).isSome then applyCandidates candidates rest s
    else applyCandidates candidates rest
      (((candidates.get region).getD []).foldl setBody s.1, s.2.insert region .promoted)

/-- Apply candidate handler bodies, all of a region's or none. -/
def promoteExclusiveExtents (c : Cfg ι π) (candidate : HandlerRef → σ → Option (Finset Nat) × σ) (captured : σ) :
    Cfg ι π × List ExtentPromotionDecision × σ :=
  let gathered := c.regions.foldl (gatherRegion candidate) ⟨.empty, .empty, captured⟩
  let statuses := withholdOverlaps (flat gathered.candidates) gathered.statuses
  let applied := applyCandidates gathered.candidates (regionsOf gathered.candidates) (c, statuses)
  (applied.1, applied.1.regions.map fun region => ⟨region.id, (applied.2.get region.id).getD .promoted⟩,
    gathered.captured)

end Cfg

namespace Promotion

variable {σ : Type} {candidate : HandlerRef → σ → Option (Finset Nat) × σ}

/-! ## Gathering -/

def Proposed (region index : Nat) : List Handler → List Candidate → Prop
  | [], [] => True
  | stored :: rest, proposed :: more => proposed.1 = ⟨region, index⟩ ∧ stored.entry ∈ proposed.2 ∧
      Proposed region (index + 1) rest more
  | _, _ => False

theorem gather_ok {region : Nat} {handlers : List Handler} : ∀ {index : Nat} {s s' : σ} {proposed : List Candidate},
    gather candidate region index handlers s = (.ok proposed, s') → Proposed region index handlers proposed := by
  induction handlers with
  | nil =>
    intro index s s' proposed h
    cases h
    trivial
  | cons stored rest ih =>
    intro index s s' proposed h
    obtain ⟨⟨answer, s₁⟩, hanswer⟩ : ∃ r, candidate ⟨region, index⟩ s = r := ⟨_, rfl⟩
    obtain ⟨⟨gathered, s₂⟩, hgathered⟩ : ∃ r, gather candidate region (index + 1) rest s₁ = r := ⟨_, rfl⟩
    rw [gather, hanswer] at h
    cases answer with
    | none => cases h
    | some blocks =>
      dsimp only at h
      by_cases hentry : stored.entry ∈ blocks
      · rw [if_pos hentry, hgathered] at h
        cases gathered with
        | error handler => cases h
        | ok more =>
          cases h
          exact ⟨rfl, hentry, ih hgathered⟩
      · rw [if_neg hentry] at h
        cases h

structure Gathered (regions : List Region) (t : Tables σ) : Prop where
  cases : ∀ i region, regions[i]? = some region →
    (∃ proposed, t.candidates.get i = some proposed ∧ t.statuses.get i = none ∧ Proposed i 0 region.handlers proposed) ∨
      t.candidates.get i = none ∧ ∃ handler, t.statuses.get i = some (.ambiguousExtent handler)
  beyond : ∀ i, regions.length ≤ i → t.candidates.get i = none ∧ t.statuses.get i = none

theorem Gathered.region {regions : List Region} {t : Tables σ} (h : Gathered regions t) {region : Region}
    (hid : region.id = regions.length) : Gathered (regions ++ [region]) (gatherRegion candidate t region) := by
  obtain ⟨⟨gathered, s⟩, hgathered⟩ : ∃ r, gather candidate region.id 0 region.handlers t.captured = r := ⟨_, rfl⟩
  obtain ⟨hnone, hnone'⟩ := h.beyond regions.length (Nat.le_refl _)
  rw [gatherRegion, hgathered]
  cases gathered with
  | ok proposed =>
    refine ⟨fun i region' hi => ?_, fun i hi => ?_⟩
    · rcases Nat.lt_trichotomy i regions.length with hlt | rfl | hgt
      · rw [getElem?_append_left hlt] at hi
        simp only [FiniteMap.get_insert, hid, if_neg hlt.ne]
        exact h.cases i region' hi
      · rw [getElem?_concat_length] at hi
        obtain rfl := Option.some.inj hi
        simp only [FiniteMap.get_insert, hid, if_pos]
        exact Or.inl ⟨proposed, rfl, hnone', hid ▸ gather_ok hgathered⟩
      · rw [getElem?_eq_none (by rw [length_append, length_singleton]; omega)] at hi
        cases hi
    · rw [length_append, length_singleton] at hi
      simp only [FiniteMap.get_insert, hid]
      rw [if_neg (by omega)]
      exact h.beyond i (by omega)
  | error handler =>
    refine ⟨fun i region' hi => ?_, fun i hi => ?_⟩
    · rcases Nat.lt_trichotomy i regions.length with hlt | rfl | hgt
      · rw [getElem?_append_left hlt] at hi
        simp only [FiniteMap.get_insert, hid, if_neg hlt.ne]
        exact h.cases i region' hi
      · simp only [FiniteMap.get_insert, hid, if_pos]
        exact Or.inr ⟨hnone, handler, rfl⟩
      · rw [getElem?_eq_none (by rw [length_append, length_singleton]; omega)] at hi
        cases hi
    · rw [length_append, length_singleton] at hi
      simp only [FiniteMap.get_insert, hid]
      rw [if_neg (by omega)]
      exact h.beyond i (by omega)

theorem gathered_all {regions : List Region} (hids : ∀ i (region : Region), regions[i]? = some region → region.id = i) (s : σ) :
    Gathered regions (regions.foldl (gatherRegion candidate) ⟨.empty, .empty, s⟩) := by
  induction regions using List.reverseRecOn with
  | nil => exact ⟨fun i region hi => by simp at hi, fun i _ => ⟨rfl, rfl⟩⟩
  | append_singleton regions region ih =>
    rw [foldl_append]
    refine Gathered.region (ih fun i r hi => hids i r ?_) (hids _ _ getElem?_concat_length)
    rw [getElem?_append_left (List.getElem?_eq_some_iff.mp hi).1]
    exact hi

/-! ## Overlaps -/

/-- A table that says more than another, and promotes nothing. -/
structure Withholds (m m' : FiniteMap Nat ExtentPromotionStatus) : Prop where
  kept : ∀ i status, m.get i = some status → m'.get i = some status
  withheld : ∀ i, m'.get i = some .promoted → m.get i = some .promoted

theorem Withholds.refl (m : FiniteMap Nat ExtentPromotionStatus) : Withholds m m := ⟨fun _ _ h => h, fun _ h => h⟩

theorem Withholds.trans {m m' m'' : FiniteMap Nat ExtentPromotionStatus} (h : Withholds m m') (h' : Withholds m' m'') :
    Withholds m m'' :=
  ⟨fun i status hi => h'.kept i status (h.kept i status hi), fun i hi => h.withheld i (h'.withheld i hi)⟩

theorem Withholds.isSome {m m' : FiniteMap Nat ExtentPromotionStatus} (h : Withholds m m') {i : Nat}
    (hi : (m.get i).isSome) : (m'.get i).isSome := by
  obtain ⟨status, hstatus⟩ := Option.isSome_iff_exists.mp hi
  rw [h.kept i status hstatus]
  rfl

theorem orInsert_spec (m : FiniteMap Nat ExtentPromotionStatus) (key : Nat) {status : ExtentPromotionStatus}
    (hstatus : status ≠ .promoted) : Withholds m (orInsert m key status) ∧ ((orInsert m key status).get key).isSome := by
  unfold orInsert
  split
  · next h => exact ⟨.refl m, h⟩
  · next h =>
    refine ⟨⟨fun i status' hi => ?_, fun i hi => ?_⟩, by simp⟩
    · rw [FiniteMap.get_insert, if_neg]
      · exact hi
      · rintro rfl
        rw [hi] at h
        exact h rfl
    · rw [FiniteMap.get_insert] at hi
      split at hi
      · exact absurd (Option.some.inj hi) hstatus
      · exact hi

theorem withhold_spec (first : Candidate) (m : FiniteMap Nat ExtentPromotionStatus) (second : Candidate) :
    Withholds m (withhold first m second) ∧ (¬ Disjoint first.2 second.2 →
      ((withhold first m second).get first.1.region).isSome ∧
        ((withhold first m second).get second.1.region).isSome) := by
  unfold withhold
  split
  · next h => exact ⟨.refl m, fun hnot => absurd h hnot⟩
  · obtain ⟨h₁, hfirst⟩ := orInsert_spec m first.1.region
      (show ExtentPromotionStatus.overlappingExtents first.1 second.1 ≠ .promoted from nofun)
    obtain ⟨h₂, hsecond⟩ := orInsert_spec (orInsert m first.1.region (.overlappingExtents first.1 second.1))
      second.1.region (show ExtentPromotionStatus.overlappingExtents first.1 second.1 ≠ .promoted from nofun)
    exact ⟨h₁.trans h₂, fun _ => ⟨h₂.isSome hfirst, hsecond⟩⟩

theorem foldl_withhold (first : Candidate) (rest : List Candidate) : ∀ m : FiniteMap Nat ExtentPromotionStatus,
    Withholds m (rest.foldl (withhold first) m) ∧ ∀ second ∈ rest, ¬ Disjoint first.2 second.2 →
      ((rest.foldl (withhold first) m).get first.1.region).isSome ∧
        ((rest.foldl (withhold first) m).get second.1.region).isSome := by
  induction rest with
  | nil => exact fun m => ⟨.refl m, fun second h => nomatch h⟩
  | cons next rest ih =>
    intro m
    obtain ⟨h₁, hnext⟩ := withhold_spec first m next
    obtain ⟨h₂, hrest⟩ := ih (withhold first m next)
    refine ⟨h₁.trans h₂, fun second hmem hoverlap => ?_⟩
    rcases mem_cons.mp hmem with rfl | hmem
    · exact ⟨h₂.isSome (hnext hoverlap).1, h₂.isSome (hnext hoverlap).2⟩
    · exact hrest second hmem hoverlap

theorem withholdOverlaps_spec (l : List Candidate) : ∀ m : FiniteMap Nat ExtentPromotionStatus,
    Withholds m (withholdOverlaps l m) ∧ ∀ a ∈ l, ∀ b ∈ l, a ≠ b → ¬ Disjoint a.2 b.2 →
      ((withholdOverlaps l m).get a.1.region).isSome := by
  induction l with
  | nil => exact fun m => ⟨.refl m, fun a h => nomatch h⟩
  | cons first rest ih =>
    intro m
    obtain ⟨h₁, hfirst⟩ := foldl_withhold first rest m
    obtain ⟨h₂, hrest⟩ := ih (rest.foldl (withhold first) m)
    refine ⟨h₁.trans h₂, fun a ha b hb hne hoverlap => ?_⟩
    rcases mem_cons.mp ha with rfl | ha'
    · have hb' := (mem_cons.mp hb).resolve_left hne.symm
      exact h₂.isSome (hfirst b hb' hoverlap).1
    · rcases mem_cons.mp hb with rfl | hb'
      · exact h₂.isSome (hfirst a ha' fun hd => hoverlap hd.symm).2
      · exact hrest a ha' b hb' hne hoverlap

end Promotion

namespace Cfg

variable {ι π σ : Type}

open Promotion

/-! ## Applying the candidates -/

def bodiesOf (handlers : List Handler) (proposed : List Candidate) : List Handler :=
  List.zipWith (fun stored candidate => { stored with body := .known candidate.2 }) handlers proposed

/-- `c'` is `c` up to its regions. -/
structure SameBut (c c' : Cfg ι π) : Prop where
  graph : c'.graph = c.graph
  entry : c'.entry = c.entry
  cleanups : c'.cleanups = c.cleanups

theorem foldl_setBody_same (l : List Candidate) : ∀ c : Cfg ι π, SameBut c (l.foldl setBody c) := by
  induction l with
  | nil => exact fun c => ⟨rfl, rfl, rfl⟩
  | cons candidate l ih =>
    intro c
    obtain ⟨hgraph, hentry, hcleanups⟩ := ih (c.setBody candidate)
    exact ⟨hgraph, hentry, hcleanups⟩

theorem getElem?_setBody (c : Cfg ι π) (candidate : Candidate) (i : Nat) : (c.setBody candidate).regions[i]? =
    if candidate.1.region = i then (c.regions[i]?).map fun region =>
      { region with handlers := region.handlers.modify candidate.1.handler fun stored =>
        { stored with body := .known candidate.2 } } else c.regions[i]? := by
  rw [setBody]
  dsimp only
  rw [getElem?_modify]
  split <;> simp [*]

theorem modify_middle {α : Type} (f : α → α) (x : α) (after : List α) : ∀ before : List α,
    (before ++ x :: after).modify before.length f = before ++ f x :: after := by
  intro before
  induction before with
  | nil => rfl
  | cons b before ih => rw [cons_append, length_cons, modify_succ_cons, ih, cons_append]

variable {handlers : List Handler} {i : Nat}

theorem foldl_setBody : ∀ {proposed : List Candidate} {index : Nat} {c : Cfg ι π}
    {region : Region} {before : List Handler}, Proposed i index handlers proposed → before.length = index →
      c.regions[i]? = some region → region.handlers = before ++ handlers →
        (proposed.foldl setBody c).regions[i]? =
          some { region with handlers := before ++ bodiesOf handlers proposed } := by
  induction handlers with
  | nil =>
    intro proposed index c region before hproposed hlength hregion hhandlers
    cases proposed with
    | nil =>
      rw [foldl_nil, hregion, bodiesOf, zipWith_nil_left, ← hhandlers]
    | cons candidate proposed => exact hproposed.elim
  | cons stored handlers ih =>
    intro proposed index c region before hproposed hlength hregion hhandlers
    cases proposed with
    | nil => exact hproposed.elim
    | cons candidate proposed =>
      obtain ⟨hcandidate, -, hrest⟩ := hproposed
      have hset : (c.setBody candidate).regions[i]? = some { region with
          handlers := (before ++ [{ stored with body := .known candidate.2 }]) ++ handlers } := by
        rw [getElem?_setBody, hcandidate, if_pos rfl, hregion, Option.map_some, hhandlers, ← hlength,
          modify_middle, append_assoc, singleton_append]
      rw [foldl_cons, ih hrest (by rw [length_append, hlength]; rfl) hset rfl]
      simp [bodiesOf]

theorem foldl_setBody_other {j : Nat} (hij : i ≠ j) : ∀ {proposed : List Candidate}
    {index : Nat} {c : Cfg ι π}, Proposed i index handlers proposed →
      (proposed.foldl setBody c).regions[j]? = c.regions[j]? := by
  induction handlers with
  | nil =>
    intro proposed index c hproposed
    cases proposed with
    | nil => rfl
    | cons candidate proposed => exact hproposed.elim
  | cons stored handlers ih =>
    intro proposed index c hproposed
    cases proposed with
    | nil => exact hproposed.elim
    | cons candidate proposed =>
      obtain ⟨hcandidate, -, hrest⟩ := hproposed
      rw [foldl_cons, ih hrest, getElem?_setBody, hcandidate, if_neg hij]

structure Applied (candidates : FiniteMap Nat (List Candidate)) (l : List Nat)
    (s s' : Cfg ι π × FiniteMap Nat ExtentPromotionStatus) : Prop where
  same : SameBut s.1 s'.1
  statuses : ∀ i, s'.2.get i = if i ∈ l ∧ s.2.get i = none then some .promoted else s.2.get i
  promoted : ∀ i ∈ l, s.2.get i = none → ∀ region proposed, s.1.regions[i]? = some region →
    candidates.get i = some proposed →
      s'.1.regions[i]? = some { region with handlers := bodiesOf region.handlers proposed }
  other : ∀ i, ¬ (i ∈ l ∧ s.2.get i = none) → s'.1.regions[i]? = s.1.regions[i]?

variable {candidates : FiniteMap Nat (List Candidate)}

theorem applied_spec {regions : List Region} (l : List Nat) :
    ∀ s : Cfg ι π × FiniteMap Nat ExtentPromotionStatus, l.Nodup →
      (∀ i ∈ l, ∃ region proposed, regions[i]? = some region ∧ candidates.get i = some proposed ∧
        Proposed i 0 region.handlers proposed) → (∀ i ∈ l, s.1.regions[i]? = regions[i]?) →
        Applied candidates l s (applyCandidates candidates l s) := by
  induction l with
  | nil =>
    exact fun s _ _ _ => ⟨⟨rfl, rfl, rfl⟩, fun i => by simp [applyCandidates], fun i h => absurd h not_mem_nil,
      fun i _ => rfl⟩
  | cons i l ih =>
    intro s hnodup hl hregions
    obtain ⟨hi, hnodup⟩ := nodup_cons.mp hnodup
    have hl' := fun j hj => hl j (mem_cons_of_mem i hj)
    have hregions' := fun j hj => hregions j (mem_cons_of_mem i hj)
    rw [applyCandidates]
    by_cases hsome : (s.2.get i).isSome = true
    · -- the region is withheld
      rw [if_pos hsome]
      obtain ⟨hsame, hstatuses, hpromoted, hother⟩ := ih s hnodup hl' hregions'
      have hmem : ∀ j, j ∈ i :: l ∧ s.2.get j = none ↔ j ∈ l ∧ s.2.get j = none := by
        intro j
        refine ⟨fun h => ⟨(mem_cons.mp h.1).resolve_left ?_, h.2⟩, fun h => ⟨mem_cons_of_mem i h.1, h.2⟩⟩
        rintro rfl
        rw [h.2] at hsome
        cases hsome
      refine ⟨hsame, fun j => ?_, fun j hj hnone => hpromoted j ((hmem j).mp ⟨hj, hnone⟩).1 hnone,
        fun j hj => hother j fun h => hj ((hmem j).mpr h)⟩
      rw [hstatuses]
      simp only [hmem]
    · rw [if_neg hsome]
      obtain ⟨region, proposed, hregion, hcandidates, hproposed⟩ := hl i mem_cons_self
      have hset : (proposed.foldl setBody s.1).regions[i]? =
          some { region with handlers := [] ++ bodiesOf region.handlers proposed } :=
        foldl_setBody hproposed rfl ((hregions i mem_cons_self).trans hregion) rfl
      have hkeep : ∀ j, j ≠ i → (proposed.foldl setBody s.1).regions[j]? = s.1.regions[j]? :=
        fun j hj => foldl_setBody_other hj.symm hproposed
      have hne : ∀ j ∈ l, j ≠ i := fun j hj hji => hi (hji ▸ hj)
      rw [hcandidates, Option.getD_some]
      obtain ⟨hsame, hstatuses, hpromoted, hother⟩ := ih (proposed.foldl setBody s.1, s.2.insert i .promoted) hnodup hl'
        fun j hj => (hkeep j (hne j hj)).trans (hregions' j hj)
      have hnone : s.2.get i = none := Option.not_isSome_iff_eq_none.mp hsome
      have hget : ∀ j, j ≠ i → (s.2.insert i ExtentPromotionStatus.promoted).get j = s.2.get j := fun j hj => by
        rw [FiniteMap.get_insert, if_neg hj]
      have hself : (s.2.insert i ExtentPromotionStatus.promoted).get i = some .promoted := by
        rw [FiniteMap.get_insert, if_pos rfl]
      have hbodies := foldl_setBody_same proposed s.1
      refine ⟨⟨hsame.graph.trans hbodies.graph, hsame.entry.trans hbodies.entry,
        hsame.cleanups.trans hbodies.cleanups⟩, fun j => ?_, fun j hj hjnone region' proposed' hregion' hcandidates' => ?_,
        fun j hj => ?_⟩
      · rw [hstatuses]
        dsimp only
        by_cases hji : j = i
        · subst hji
          rw [if_neg (fun h => hi h.1), hself, if_pos ⟨mem_cons_self, hnone⟩]
        · rw [hget j hji]
          simp [hji]
      · by_cases hji : j = i
        · subst hji
          rw [hother j fun h => hi h.1]
          cases hcandidates.symm.trans hcandidates'
          cases ((hregions j mem_cons_self).trans hregion).symm.trans hregion'
          exact hset
        · have hjl := (mem_cons.mp hj).resolve_left hji
          exact hpromoted j hjl (by dsimp only; rw [hget j hji, hjnone]) region' proposed'
            ((hkeep j hji).trans hregion') hcandidates'
      · have hji : j ≠ i := by
          rintro rfl
          exact hj ⟨mem_cons_self, hnone⟩
        rw [hother j fun h => hj ⟨mem_cons_of_mem i h.1, by
          have := h.2
          dsimp only at this
          rwa [hget j hji] at this⟩]
        exact hkeep j hji

/-! ## The decisions -/

theorem mem_regionsOf : i ∈ regionsOf candidates ↔ (candidates.get i).isSome := by
  rw [regionsOf, Finset.mem_sort, candidates.mem_keys]

theorem mem_flat {proposed : List Candidate}
    (h : candidates.get i = some proposed) {candidate : Candidate} (hmem : candidate ∈ proposed) :
    candidate ∈ flat candidates :=
  mem_flatMap.mpr ⟨i, mem_regionsOf.mpr (by rw [h]; rfl), by rw [h]; exact hmem⟩

theorem getElem?_bodiesOf {region : Nat} : ∀ {index k : Nat} {proposed : List Candidate}
    {stored : Handler}, Proposed region index handlers proposed → (bodiesOf handlers proposed)[k]? = some stored →
      ∃ old blocks, handlers[k]? = some old ∧ (⟨region, index + k⟩, blocks) ∈ proposed ∧ old.entry ∈ blocks ∧
        stored = { old with body := .known blocks } := by
  induction handlers with
  | nil =>
    intro index k proposed stored hproposed hk
    rw [bodiesOf, zipWith_nil_left] at hk
    cases hk
  | cons old handlers ih =>
    intro index k proposed stored hproposed hk
    cases proposed with
    | nil => exact hproposed.elim
    | cons candidate proposed =>
      obtain ⟨⟨ref, blocks⟩, rfl⟩ : ∃ pair : Candidate, pair = candidate := ⟨candidate, rfl⟩
      obtain ⟨hcandidate, hentry, hrest⟩ := hproposed
      dsimp only at hcandidate
      subst hcandidate
      cases k with
      | zero =>
        cases hk
        exact ⟨old, blocks, rfl, mem_cons_self, hentry, rfl⟩
      | succ k =>
        obtain ⟨old', blocks', hold, hmem, hentry', heq⟩ := ih hrest hk
        refine ⟨old', blocks', hold, mem_cons_of_mem _ ?_, hentry', heq⟩
        rwa [show index + (k + 1) = index + 1 + k by omega]

theorem length_bodiesOf {region : Nat} : ∀ {index : Nat} {proposed : List Candidate},
    Proposed region index handlers proposed → (bodiesOf handlers proposed).length = handlers.length := by
  induction handlers with
  | nil => intro index proposed _; rfl
  | cons old handlers ih =>
    intro index proposed hproposed
    cases proposed with
    | nil => exact hproposed.elim
    | cons candidate proposed =>
      rw [bodiesOf, zipWith_cons_cons, length_cons, length_cons]
      exact congrArg (· + 1) (ih hproposed.2.2)

/-- A region whose handlers all got known bodies that hold their entries. -/
structure PromotedTo (region region' : Region) : Prop where
  same : { region' with handlers := region.handlers } = region
  length : region'.handlers.length = region.handlers.length
  bodies : ∀ (k : Nat) stored, region'.handlers[k]? = some stored → ∃ old blocks, region.handlers[k]? = some old ∧
    stored = { old with body := .known blocks } ∧ stored.entry ∈ blocks

/-- What the promotion of a graph decides and does. -/
structure Promotes (c c' : Cfg ι π) (decisions : List ExtentPromotionDecision) : Prop where
  same : SameBut c c'
  beyond : ∀ i : Nat, c.regions[i]? = none → c'.regions[i]? = none ∧ decisions[i]? = none
  decided : ∀ (i : Nat) (region : Region), c.regions[i]? = some region →
    ∃ status, decisions[i]? = some ⟨region.id, status⟩ ∧
      (status = .promoted → ∃ region', c'.regions[i]? = some region' ∧ PromotedTo region region') ∧
      (status ≠ .promoted → c'.regions[i]? = some region)
  disjoint : ∀ (i j : Nat) d d', decisions[i]? = some d → decisions[j]? = some d' → d.status = .promoted →
    d'.status = .promoted → ∀ (region region' : Region) (k l : Nat) stored stored' blocks blocks',
      c'.regions[i]? = some region → c'.regions[j]? = some region' → region.handlers[k]? = some stored →
        region'.handlers[l]? = some stored' → stored.body.blocks = some blocks → stored'.body.blocks = some blocks' →
          (i, k) ≠ (j, l) → Disjoint blocks blocks'

theorem applied_cases {c : Cfg ι π} {t : Tables σ} (hgathered : Gathered c.regions t)
    {s' : Cfg ι π × FiniteMap Nat ExtentPromotionStatus}
    (happlied : Applied t.candidates (regionsOf t.candidates) (c, withholdOverlaps (flat t.candidates) t.statuses) s')
    {region : Region} (hregion : c.regions[i]? = some region) :
    (∃ proposed, t.candidates.get i = some proposed ∧ Proposed i 0 region.handlers proposed ∧
      (withholdOverlaps (flat t.candidates) t.statuses).get i = none ∧ s'.2.get i = some .promoted ∧
        s'.1.regions[i]? = some { region with handlers := bodiesOf region.handlers proposed }) ∨
    ∃ status, status ≠ .promoted ∧ s'.2.get i = some status ∧ s'.1.regions[i]? = some region := by
  obtain ⟨hwithholds, -⟩ := withholdOverlaps_spec (flat t.candidates) t.statuses
  have hstatus := happlied.statuses i
  rcases hgathered.cases i region hregion with ⟨proposed, hcandidates, hnone, hproposed⟩ | ⟨hnone, handler, hambiguous⟩
  · have hmem : i ∈ regionsOf t.candidates := mem_regionsOf.mpr (by rw [hcandidates]; rfl)
    cases hget : (withholdOverlaps (flat t.candidates) t.statuses).get i with
    | none =>
      rw [if_pos ⟨hmem, hget⟩] at hstatus
      exact Or.inl ⟨proposed, hcandidates, hproposed, rfl, hstatus,
        happlied.promoted i hmem hget region proposed hregion hcandidates⟩
    | some status =>
      have hnot : ¬ (i ∈ regionsOf t.candidates ∧ (withholdOverlaps (flat t.candidates) t.statuses).get i = none) :=
        fun h => by
          rw [hget] at h
          exact absurd h.2 (Option.some_ne_none status)
      rw [if_neg hnot] at hstatus
      refine Or.inr ⟨status, ?_, hstatus.trans hget, (happlied.other i hnot).trans hregion⟩
      rintro rfl
      rw [hwithholds.withheld i hget] at hnone
      cases hnone
  · have hnot : ¬ (i ∈ regionsOf t.candidates ∧ (withholdOverlaps (flat t.candidates) t.statuses).get i = none) :=
      fun h => by
        have := mem_regionsOf.mp h.1
        rw [hnone] at this
        cases this
    rw [if_neg hnot] at hstatus
    exact Or.inr ⟨.ambiguousExtent handler, ExtentPromotionStatus.noConfusion, hstatus.trans (hwithholds.kept i _ hambiguous),
      (happlied.other i hnot).trans hregion⟩

theorem promotes (c : Cfg ι π) (hids : ∀ (i : Nat) (region : Region), c.regions[i]? = some region → region.id = i)
    (candidate : HandlerRef → σ → Option (Finset Nat) × σ) (captured : σ) :
    Promotes c (c.promoteExclusiveExtents candidate captured).1
      (c.promoteExclusiveExtents candidate captured).2.1 := by
  have hgathered : Gathered c.regions (c.regions.foldl (gatherRegion candidate) ⟨.empty, .empty, captured⟩) :=
    gathered_all hids captured
  unfold promoteExclusiveExtents
  dsimp only
  generalize c.regions.foldl (gatherRegion candidate) ⟨.empty, .empty, captured⟩ = t at hgathered
  obtain ⟨-, hoverlaps⟩ := withholdOverlaps_spec (flat t.candidates) t.statuses
  have hregions : ∀ i ∈ regionsOf t.candidates, ∃ region proposed, c.regions[i]? = some region ∧
      t.candidates.get i = some proposed ∧ Proposed i 0 region.handlers proposed := by
    intro i hi
    cases hregion : c.regions[i]? with
    | none =>
      have := mem_regionsOf.mp hi
      rw [(hgathered.beyond i (List.getElem?_eq_none_iff.mp hregion)).1] at this
      cases this
    | some region =>
      rcases hgathered.cases i region hregion with ⟨proposed, hcandidates, -, hproposed⟩ | ⟨hnone, -⟩
      · exact ⟨region, proposed, rfl, hcandidates, hproposed⟩
      · have := mem_regionsOf.mp hi
        rw [hnone] at this
        cases this
  have happlied : Applied t.candidates (regionsOf t.candidates)
      (c, withholdOverlaps (flat t.candidates) t.statuses) (applyCandidates t.candidates (regionsOf t.candidates)
        (c, withholdOverlaps (flat t.candidates) t.statuses)) :=
    applied_spec _ _ (Finset.sort_nodup _ _) hregions fun i _ => rfl
  generalize applyCandidates t.candidates (regionsOf t.candidates)
    (c, withholdOverlaps (flat t.candidates) t.statuses) = s' at happlied
  -- the decision of a region, and what it means when it is a promotion
  have hdecision : ∀ (i : Nat) (region : Region), c.regions[i]? = some region →
      (s'.1.regions.map fun region => (⟨region.id, (s'.2.get region.id).getD .promoted⟩ : ExtentPromotionDecision))[i]? =
        some ⟨region.id, (s'.2.get i).getD .promoted⟩ := by
    intro i region hregion
    have hid := hids i region hregion
    rw [getElem?_map]
    rcases applied_cases hgathered happlied hregion with ⟨proposed, -, -, -, -, hregion'⟩ | ⟨status, -, -, hregion'⟩
    · rw [hregion', Option.map_some, hid]
    · rw [hregion', Option.map_some, hid]
  have hbeyond : ∀ i : Nat, c.regions[i]? = none → s'.1.regions[i]? = none := by
    intro i hnone
    rw [happlied.other i fun h => ?_]
    · exact hnone
    · obtain ⟨region, -, hregion, -⟩ := hregions i h.1
      rw [hnone] at hregion
      cases hregion
  have hpromotion : ∀ (i k : Nat) d (region : Region) stored blocks,
      (s'.1.regions.map fun region => (⟨region.id, (s'.2.get region.id).getD .promoted⟩ : ExtentPromotionDecision))[i]? =
        some d → d.status = .promoted → s'.1.regions[i]? = some region → region.handlers[k]? = some stored →
          stored.body.blocks = some blocks → (⟨i, k⟩, blocks) ∈ flat t.candidates ∧
            (withholdOverlaps (flat t.candidates) t.statuses).get i = none := by
    intro i k d region stored blocks hd hstatus hregion hstored hblocks
    cases hold : c.regions[i]? with
    | none =>
      rw [hbeyond i hold] at hregion
      cases hregion
    | some old =>
      rw [hdecision i old hold] at hd
      cases hd
      rcases applied_cases hgathered happlied hold with
        ⟨proposed, hcandidates, hproposed, hnone, -, hregion'⟩ | ⟨status, hne, hstatus', -⟩
      · cases hregion.symm.trans hregion'
        obtain ⟨_, blocks', -, hmem, -, rfl⟩ := getElem?_bodiesOf hproposed hstored
        cases hblocks
        rw [Nat.zero_add] at hmem
        exact ⟨mem_flat hcandidates hmem, hnone⟩
      · rw [hstatus', Option.getD_some] at hstatus
        exact absurd hstatus hne
  refine ⟨happlied.same, fun i hnone => ⟨hbeyond i hnone, by rw [getElem?_map, hbeyond i hnone]; rfl⟩,
    fun i region hregion => ⟨_, hdecision i region hregion, fun hstatus => ?_, fun hstatus => ?_⟩,
    fun i j d d' hd hd' hstatus hstatus' region region' k l stored stored' blocks blocks' hregion hregion' hstored
      hstored' hblocks hblocks' hne => ?_⟩
  · rcases applied_cases hgathered happlied hregion with
      ⟨proposed, -, hproposed, -, -, hregion'⟩ | ⟨status, hne, hstatus', -⟩
    · refine ⟨_, hregion', rfl, length_bodiesOf hproposed, fun k stored hstored => ?_⟩
      obtain ⟨old, blocks, hold, -, hentry, rfl⟩ := getElem?_bodiesOf hproposed hstored
      exact ⟨old, blocks, hold, rfl, hentry⟩
    · rw [hstatus', Option.getD_some] at hstatus
      exact absurd hstatus hne
  · rcases applied_cases hgathered happlied hregion with ⟨-, -, -, -, hpromoted, -⟩ | ⟨status, -, -, hregion'⟩
    · rw [hpromoted, Option.getD_some] at hstatus
      exact absurd rfl hstatus
    · exact hregion'
  · obtain ⟨hmem, hnone⟩ := hpromotion i k d region stored blocks hd hstatus hregion hstored hblocks
    obtain ⟨hmem', -⟩ := hpromotion j l d' region' stored' blocks' hd' hstatus' hregion' hstored' hblocks'
    by_contra hoverlap
    have hrefs : ((⟨i, k⟩, blocks) : Candidate) ≠ (⟨j, l⟩, blocks') := by
      intro heq
      cases heq
      exact hne rfl
    have := hoverlaps _ hmem _ hmem' hrefs hoverlap
    rw [hnone] at this
    cases this

/-! ## Recovery and promotion together -/

/-- A catch-all handler at a block of its own. -/
def caught : Cfg Unit Unit :=
  { (ofParts [[], []] [] : Cfg Unit Unit) with regions := [⟨0, {0}, [⟨1, .unknown, .catchAll⟩], none⟩] }

theorem wf_caught : caught.WF := by
  have := @wf_ofParts Unit Unit [[], []] [] rfl
  exact ⟨this.graph, this.entry⟩

/-- The handler's block is removed and the region still names it. -/
def removedEntry : Cfg Unit Unit := ((caught.removeBlock 1).map (·.2)).getD caught

/-- Nothing is reported about the handler, and its extent is empty. -/
theorem removedEntry_extents : removedEntry.WF ∧ ∃ x, removedEntry.recoverExclusiveExtents = some [x] ∧
    x.issues = ∅ ∧ x.entry ∉ x.blocks := by
  refine ⟨?_, ⟨⟨0, 0⟩, 1, ∅, {1}, ∅⟩, rfl, rfl, Finset.notMem_empty 1⟩
  have hremoved : caught.removeBlock 1 = some (true, removedEntry) := rfl
  exact (removeBlock_spec wf_caught rfl hremoved).2.wf

theorem exists_of_forall₂ {α β : Type} {r : α → β → Prop} {l : List α} {l' : List β} (h : List.Forall₂ r l l') :
    ∀ {b}, b ∈ l' → ∃ a ∈ l, r a b := by
  induction h with
  | nil =>
    intro b hb
    cases hb
  | cons hab _ ih =>
    intro b hb
    rcases mem_cons.mp hb with rfl | hb
    · exact ⟨_, mem_cons_self, hab⟩
    · obtain ⟨a, ha, hr⟩ := ih hb
      exact ⟨a, mem_cons_of_mem _ ha, hr⟩

/-- The evidence about every handler is exact, extents of different entries share nothing, and a
promotion is all of a region's handlers or none, disjoint over the promoted regions. -/
theorem extents_exact (c : Cfg ι π) (hc : c.WF) (hentries : ∀ entry, c.IsHandlerEntry entry → entry < c.blockBound)
    (hids : ∀ (i : Nat) (region : Region), c.regions[i]? = some region → region.id = i)
    (isNormal : Nat → Edge π → Bool) (candidate : HandlerRef → σ → Option (Finset Nat) × σ) (captured : σ) :
    (∃ extents, c.recoverExclusiveExtentsWith isNormal = some extents ∧
      List.Forall₂ (fun pair x => c.ExtentOf isNormal pair x ∧ (x.issues = ∅ →
        (c.containsBlock x.entry → x.entry ∈ x.blocks) ∧
          ∀ a b, c.Accepted isNormal a b → a ∉ x.blocks → b ∈ x.blocks → b = x.entry)) c.handlerEntries extents ∧
      ∀ x ∈ extents, ∀ x' ∈ extents, x.entry ≠ x'.entry → Disjoint x.blocks x'.blocks) ∧
    Promotes c (c.promoteExclusiveExtents candidate captured).1
      (c.promoteExclusiveExtents candidate captured).2.1 := by
  obtain ⟨extents, hextents, hspec⟩ : ∃ extents, c.recoverExclusiveExtentsWith isNormal = some extents ∧
      List.Forall₂ (c.ExtentOf isNormal) c.handlerEntries extents := recoverExclusiveExtentsWith_spec hc hentries
  refine ⟨⟨extents, hextents, hspec.imp fun pair x h => ⟨h, h.closed⟩, fun x hx x' hx' hne => ?_⟩,
    promotes c hids candidate captured⟩
  obtain ⟨pair, hpair, h⟩ := exists_of_forall₂ hspec hx
  obtain ⟨pair', -, h'⟩ := exists_of_forall₂ hspec hx'
  exact h.disjoint h' hpair hne

theorem extents_exact_caught : (∃ extents, caught.recoverExclusiveExtentsWith (fun _ edge => !edge.kind.isExceptional) =
      some extents ∧
      List.Forall₂ (fun pair x => caught.ExtentOf (fun _ edge => !edge.kind.isExceptional) pair x ∧ (x.issues = ∅ →
        (caught.containsBlock x.entry → x.entry ∈ x.blocks) ∧
          ∀ a b, caught.Accepted (fun _ edge => !edge.kind.isExceptional) a b → a ∉ x.blocks → b ∈ x.blocks →
            b = x.entry)) caught.handlerEntries extents ∧
      ∀ x ∈ extents, ∀ x' ∈ extents, x.entry ≠ x'.entry → Disjoint x.blocks x'.blocks) ∧
    Promotes caught (caught.promoteExclusiveExtents (fun _ (s : Unit) => (some {1}, s)) ()).1
      (caught.promoteExclusiveExtents (fun _ (s : Unit) => (some {1}, s)) ()).2.1 := by
  refine extents_exact caught wf_caught ?_ ?_ _ _ _
  · intro entry hentry
    obtain ⟨pair, hpair, rfl⟩ := hentry
    cases mem_singleton.mp hpair
    decide
  · intro i region hregion
    cases i with
    | zero =>
      cases hregion
      rfl
    | succ i => cases hregion

end Cfg

end CfgLib
