import CfgLib.Cfg.RoundTrip
import CfgLib.Lib.Fold

/-!
# The serialized document

`cfg/document.rs`: the checks a serialized graph passes before it is one, against
what the text reader of `cfg/text/parse.rs` accepts.  The store's own columns are
read by the store.
-/

namespace CfgLib

open CfgLib.Lib List

deriving instance DecidableEq for CompletionReason
deriving instance DecidableEq for Continuation

variable {ι π : Type} {c : Cfg ι π}

/-- The fields a graph serializes, before they are checked. -/
structure CfgDocument (ι π : Type) where
  graph : Store.Naive (BasicBlock ι) (Edge π)
  entry : Nat
  regions : List Region
  cleanups : List Cleanup

/-- Why a serialized graph was rejected. -/
inductive DocumentError where
  | entryNotLive (b : Nat)
  | anchorNotLive (b : Nat)
  | regionIdMismatch (index id : Nat)
  | cleanupHandlerMissing (handler : HandlerRef)
  | parentMissing (parent : Nat)
  | continuationRepeated (handler : HandlerRef) (continuation : Continuation)

namespace Cfg

def region (c : Cfg ι π) (id : Nat) : Option Region := c.regions[id]?

def handler (c : Cfg ι π) (handler : HandlerRef) : Option Handler :=
  (c.region handler.region).bind (·.handlers[handler.handler]?)

def danglingAnchors (c : Cfg ι π) : List Nat := c.anchors.filter fun b => !c.containsBlock b

def checkRegion (c : Cfg ι π) (numbered : Region × Nat) : Except DocumentError Unit :=
  if numbered.1.id ≠ numbered.2 then .error (.regionIdMismatch numbered.2 numbered.1.id)
  else
    match numbered.1.parent with
    | none => .ok ()
    | some parent => if (c.region parent).isNone then .error (.parentMissing parent) else .ok ()

def repeatedRoute : List Continuation → List Continuation → Option Continuation
  | _, [] => none
  | routes, route :: rest =>
    if route ∈ routes then some route else repeatedRoute (route :: routes) rest

def checkCleanup (c : Cfg ι π) (cleanup : Cleanup) : Except DocumentError Unit :=
  if (c.handler cleanup.handler).isNone then .error (.cleanupHandlerMissing cleanup.handler)
  else
    match repeatedRoute [] cleanup.continuations with
    | none => .ok ()
    | some route => .error (.continuationRepeated cleanup.handler route)

def checkRegionsAndCleanups (c : Cfg ι π) : Except DocumentError Unit := do
  c.regions.zipIdx.forM c.checkRegion
  c.cleanups.forM c.checkCleanup

/-- The graph, once every reference has been checked. -/
def checked (c : Cfg ι π) : Except DocumentError (Cfg ι π) :=
  if !c.containsBlock c.entry then .error (.entryNotLive c.entry)
  else
    match c.danglingAnchors.head? with
    | some anchor => .error (.anchorNotLive anchor)
    | none => (c.checkRegionsAndCleanups).map fun _ => c

def document (c : Cfg ι π) : CfgDocument ι π := ⟨c.graph, c.entry, c.regions, c.cleanups⟩

end Cfg

def CfgDocument.tryFrom (document : CfgDocument ι π) : Except DocumentError (Cfg ι π) :=
  Cfg.checked ⟨document.graph, document.entry, document.regions, document.cleanups⟩

/-! ## What the document reader checks -/

namespace Cfg

/-- A region stands under its identity, and its parent is a region. -/
structure PlacedRegion (c : Cfg ι π) (region : Region) (index : Nat) : Prop where
  id : region.id = index
  parent : ∀ parent ∈ region.parent, parent < c.regions.length

structure PlacedCleanup (c : Cfg ι π) (cleanup : Cleanup) : Prop where
  handler : (c.handler cleanup.handler).isSome
  routes : cleanup.continuations.Nodup

/-- Every reference the document reader follows leads somewhere. -/
structure Documented (c : Cfg ι π) : Prop where
  entry : c.containsBlock c.entry
  anchors : ∀ b ∈ c.anchors, c.containsBlock b
  regions : ∀ index region, c.regions[index]? = some region → c.PlacedRegion region index
  cleanups : ∀ cleanup ∈ c.cleanups, c.PlacedCleanup cleanup

theorem checkRegion_eq_ok {region : Region} {index : Nat} :
    c.checkRegion (region, index) = .ok () ↔ c.PlacedRegion region index := by
  unfold checkRegion Cfg.region
  by_cases hid : region.id = index
  · rw [if_neg (not_not.mpr hid)]
    cases hparent : region.parent with
    | none =>
      refine ⟨fun _ => ⟨hid, ?_⟩, fun _ => rfl⟩
      intro parent hmem
      rw [hparent] at hmem
      cases hmem
    | some parent =>
      simp only [Option.isNone_iff_eq_none, List.getElem?_eq_none_iff]
      by_cases hlt : parent < c.regions.length
      · rw [if_neg (by omega)]
        refine ⟨fun _ => ⟨hid, ?_⟩, fun _ => rfl⟩
        intro p hp
        rw [hparent] at hp
        cases hp
        exact hlt
      · rw [if_pos (by omega)]
        refine ⟨fun h => (by cases h), fun h => ?_⟩
        exact absurd (h.parent parent (by rw [hparent]; rfl)) hlt
  · rw [if_pos hid]
    exact ⟨fun h => (by cases h), fun h => absurd h.id hid⟩

theorem repeatedRoute_eq_none {l : List Continuation} : ∀ {routes : List Continuation},
    repeatedRoute routes l = none ↔ l.Nodup ∧ ∀ route ∈ l, route ∉ routes := by
  induction l with
  | nil => simp [repeatedRoute]
  | cons route l ih =>
    intro routes
    unfold repeatedRoute
    by_cases hmem : route ∈ routes
    · rw [if_pos hmem]
      refine ⟨fun h => (by cases h), fun h => ?_⟩
      exact absurd hmem (h.2 route mem_cons_self)
    · rw [if_neg hmem, ih, nodup_cons]
      constructor
      · intro ⟨hnodup, hrest⟩
        refine ⟨⟨fun h => hrest route h mem_cons_self, hnodup⟩, ?_⟩
        intro r hr
        rcases mem_cons.mp hr with rfl | hr
        · exact hmem
        · exact fun h => hrest r hr (mem_cons_of_mem _ h)
      · intro ⟨⟨hhead, hnodup⟩, hrest⟩
        refine ⟨hnodup, ?_⟩
        intro r hr hcons
        rcases mem_cons.mp hcons with rfl | h
        · exact hhead hr
        · exact hrest r (mem_cons_of_mem _ hr) h

theorem checkCleanup_eq_ok {cleanup : Cleanup} :
    c.checkCleanup cleanup = .ok () ↔ c.PlacedCleanup cleanup := by
  unfold checkCleanup
  cases hhandler : c.handler cleanup.handler with
  | none =>
    refine ⟨fun h => (by cases h), fun h => ?_⟩
    have := h.handler
    rw [hhandler] at this
    cases this
  | some handler =>
    rw [if_neg (by simp)]
    cases hroute : repeatedRoute [] cleanup.continuations with
    | none =>
      refine ⟨fun _ => ⟨by rw [hhandler]; rfl, ?_⟩, fun _ => rfl⟩
      exact (repeatedRoute_eq_none.mp hroute).1
    | some route =>
      refine ⟨fun h => (by cases h), fun h => ?_⟩
      have hnone : repeatedRoute [] cleanup.continuations = none :=
        repeatedRoute_eq_none.mpr ⟨h.routes, fun _ _ => not_mem_nil⟩
      rw [hroute] at hnone
      cases hnone

theorem forM_eq_ok {α ε : Type} {check : α → Except ε Unit} {l : List α} :
    l.forM check = .ok () ↔ ∀ a ∈ l, check a = .ok () := by
  induction l with
  | nil => exact ⟨fun _ _ h => absurd h not_mem_nil, fun _ => rfl⟩
  | cons a l ih =>
    rw [forall_mem_cons, ← ih]
    change (check a).bind (fun _ => l.forM check) = .ok () ↔ _
    constructor
    · intro h
      obtain ⟨_, ha, hl⟩ := bind_eq_ok.mp h
      exact ⟨ha, hl⟩
    · intro ⟨ha, hl⟩
      exact bind_eq_ok.mpr ⟨(), ha, hl⟩

theorem checkRegionsAndCleanups_eq_ok : c.checkRegionsAndCleanups = .ok () ↔
    (∀ index region, c.regions[index]? = some region → c.PlacedRegion region index) ∧
      ∀ cleanup ∈ c.cleanups, c.PlacedCleanup cleanup := by
  have hregions : c.regions.zipIdx.forM c.checkRegion = .ok () ↔
      ∀ index region, c.regions[index]? = some region → c.PlacedRegion region index := by
    rw [forM_eq_ok]
    constructor
    · intro h index region hregion
      exact checkRegion_eq_ok.mp (h (region, index) (mk_mem_zipIdx_iff_getElem?.mpr hregion))
    · intro h numbered hmem
      exact checkRegion_eq_ok.mpr (h _ _ (mem_zipIdx_iff_getElem?.mp hmem))
  have hcleanups : c.cleanups.forM c.checkCleanup = .ok () ↔
      ∀ cleanup ∈ c.cleanups, c.PlacedCleanup cleanup :=
    forM_eq_ok.trans (forall₂_congr fun _ _ => checkCleanup_eq_ok)
  rw [← hregions, ← hcleanups]
  constructor
  · intro h
    obtain ⟨_, hr, hc⟩ := bind_eq_ok.mp h
    exact ⟨hr, hc⟩
  · intro ⟨hr, hc⟩
    exact bind_eq_ok.mpr ⟨(), hr, hc⟩

/-- Reading back what a graph serializes gives the graph exactly when every reference leads
somewhere. -/
theorem tryFrom_document : c.document.tryFrom = .ok c ↔ c.Documented := by
  change c.checked = .ok c ↔ _
  unfold checked
  by_cases hentry : c.containsBlock c.entry = true
  · rw [if_neg (by simp [hentry])]
    cases hdangling : c.danglingAnchors with
    | cons anchor rest =>
      refine ⟨fun h => (by cases h), fun h => ?_⟩
      have hmem : anchor ∈ c.danglingAnchors := by simp [hdangling]
      obtain ⟨hanchor, hdead⟩ := mem_filter.mp hmem
      rw [h.anchors anchor hanchor] at hdead
      cases hdead
    | nil =>
      have hanchors : ∀ b ∈ c.anchors, c.containsBlock b := by
        intro b hb
        by_contra hdead
        have hmem : b ∈ c.danglingAnchors := mem_filter.mpr ⟨hb, by simpa using hdead⟩
        rw [hdangling] at hmem
        cases hmem
      change (c.checkRegionsAndCleanups).map (fun _ => c) = .ok c ↔ _
      cases hcheck : c.checkRegionsAndCleanups with
      | error error =>
        refine ⟨fun h => (by cases h), fun h => ?_⟩
        have hok := checkRegionsAndCleanups_eq_ok.mpr ⟨h.regions, h.cleanups⟩
        rw [hcheck] at hok
        cases hok
      | ok _ =>
        obtain ⟨hregions, hcleanups⟩ := checkRegionsAndCleanups_eq_ok.mp hcheck
        exact ⟨fun _ => ⟨hentry, hanchors, hregions, hcleanups⟩, fun _ => rfl⟩
  · rw [if_pos (by simpa using hentry)]
    exact ⟨fun h => (by cases h), fun h => absurd h.entry hentry⟩

end Cfg

end CfgLib
