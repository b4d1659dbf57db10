import CfgLib.Cfg.Document

/-!
# What the text reader accepts

Every graph the text reader of `cfg/text/parse.rs` accepts passes the document
reader's checks, the parents of its regions apart: `read_region` takes any region
number for a parent, so the document reader agrees exactly on the texts whose
region lines name parents among themselves.
-/

namespace CfgLib

open CfgLib.Lib List

variable {ι : Type}

/-! ## The region lines of a text -/

/-- What follows `region ` on an unindented line. -/
def regionHeader? (content : Text) : Option Text :=
  let trimmed := trimStart content
  if content.length ≠ trimmed.length then none
  else
    match stripPrefix "entry ".toList trimmed with
    | some _ => none
    | none => stripPrefix "region ".toList trimmed

variable {b index line : Nat} {region region' : Region} {slots : Slots} {content field : Text}
  {parseInstruction : Text → Except String ι}

theorem regionHeader?_indented (h : content.length ≠ (trimStart content).length) : regionHeader? content = none := by
  unfold regionHeader?
  exact if_pos h

theorem regionHeader?_entry {rest : Text} (h : stripPrefix "entry ".toList (trimStart content) = some rest) :
    regionHeader? content = none := by
  unfold regionHeader?
  simp only [h, ite_self]

theorem regionHeader?_other (h : ¬ content.length ≠ (trimStart content).length)
    (hentry : stripPrefix "entry ".toList (trimStart content) = none) :
    regionHeader? content = stripPrefix "region ".toList (trimStart content) := by
  unfold regionHeader?
  simp only [if_neg h, hentry]

def regionHeaders (text : Text) : List Text :=
  ((lines text).filterMap significantLine).filterMap regionHeader?

def fieldParent (field : Text) : Option Nat :=
  match splitOnce '=' field with
  | none => none
  | some (key, value) =>
    if key = "parent".toList then (parseIndex value "r".toList 0).toOption else none

/-- The region the last `parent` field of a region line names. -/
def headerParent (header : Text) : Option Nat :=
  (splitWhitespace header).tail.foldl (fun parent field => (fieldParent field).or parent) none

def NamesParents (text : Text) : Prop :=
  ∀ header ∈ regionHeaders text, ∀ parent ∈ headerParent header,
    parent < (regionHeaders text).length

/-! ## Tokens -/

theorem exists_of_isOk {ε α : Type} {x : Except ε α} (h : x.isOk = true) : ∃ a, x = .ok a := by
  cases x with
  | error e => cases h
  | ok a => exact ⟨a, rfl⟩

theorem orPanic_eq_ok {α : Type} {o : Option α} {a : α} : orPanic o = .ok a ↔ o = some a := by
  cases o with
  | none => exact ⟨fun h => (by cases h), fun h => (by cases h)⟩
  | some b =>
    refine ⟨fun h => ?_, fun h => ?_⟩
    · cases h
      rfl
    · cases h
      rfl

theorem parseIndex_line {token affix : Text} {line' n : Nat}
    (h : parseIndex token affix line = .ok n) : parseIndex token affix line' = .ok n := by
  unfold parseIndex at h ⊢
  split at h
  · cases h
  · next digits hdigits =>
    split at h
    · next hnumber => rw [if_pos hnumber, h]
    · cases h

def Slots.Has (s : Slots) (b : Nat) : Prop := s.declared[b]? = some true

theorem liveBlock_ok (h : Reader.liveBlock slots index line = .ok b) : b = index ∧ slots.Has b := by
  unfold Reader.liveBlock at h
  obtain ⟨_, hcheck, hpure⟩ := bind_eq_ok.mp h
  cases hpure
  unfold Slots.checkLive at hcheck
  split at hcheck
  · next hlive => exact ⟨rfl, hlive⟩
  · cases hcheck

theorem readBlock_ok {token : Text} (h : Reader.readBlock slots line token = .ok b) : slots.Has b := by
  obtain ⟨index, _, hlive⟩ := bind_eq_ok.mp h
  exact (liveBlock_ok hlive).2

theorem splitField_ok {key value : Text}
    (h : splitField field line = .ok (key, value)) : splitOnce '=' field = some (key, value) := by
  unfold splitField at h
  split at h
  · cases h
  · next hsplit =>
    cases h
    exact hsplit

/-! ## Region lines -/

theorem foldlM_protected {tokens : List Text} (h : tokens.foldlM (fun (region : Region) token => do
        let b ← Reader.readBlock slots line token
        pure { region with protectedBlocks := insert b region.protectedBlocks }) region = .ok region') :
    region'.parent = region.parent ∧ region'.handlers = region.handlers := by
  refine foldlM_except (I := fun _ (r : Region) => r.parent = region.parent ∧ r.handlers = region.handlers)
    ?_ ⟨rfl, rfl⟩ h
  intro done token r r' hr hstep
  obtain ⟨b, _, hpure⟩ := bind_eq_ok.mp hstep
  cases hpure
  exact hr

theorem readRegionField_ok (h : Reader.readRegionField slots line region field = .ok region') :
    region'.parent = (fieldParent field).or region.parent ∧ region'.handlers = region.handlers := by
  unfold Reader.readRegionField at h
  obtain ⟨⟨key, value⟩, hfield, h⟩ := bind_eq_ok.mp h
  have hsplit := splitField_ok hfield
  simp only at h
  split at h
  · next hkey =>
    obtain ⟨hparent, hhandlers⟩ := foldlM_protected h
    refine ⟨?_, hhandlers⟩
    have hnone : fieldParent field = none := by
      unfold fieldParent
      simp only [hsplit, hkey]
      rw [if_neg (by decide)]
    rw [hparent, hnone]
    rfl
  · split at h
    · next hkey =>
      obtain ⟨parent, hindex, h⟩ := bind_eq_ok.mp h
      split at h
      · cases h
        refine ⟨?_, rfl⟩
        have hsome : fieldParent field = some parent := by
          unfold fieldParent
          simp only [hsplit]
          rw [if_pos hkey, parseIndex_line hindex]
          rfl
        rw [hsome]
        rfl
      · cases h
    · cases h

theorem readRegionFields_ok {fields : List Text}
    (h : fields.foldlM (Reader.readRegionField slots line) region = .ok region') :
    region'.parent = fields.foldl (fun parent field => (fieldParent field).or parent) region.parent ∧
      region'.handlers = region.handlers := by
  refine foldlM_except (I := fun done (r : Region) =>
    r.parent = done.foldl (fun parent field => (fieldParent field).or parent) region.parent ∧
      r.handlers = region.handlers) ?_ ⟨rfl, rfl⟩ h
  intro done field r r' hr hstep
  obtain ⟨hparent, hhandlers⟩ := readRegionField_ok hstep
  rw [foldl_append, ← hr.1]
  exact ⟨hparent, hhandlers.trans hr.2⟩

/-! ## Handler lines -/

structure HandlerFields.Declared (read : HandlerFields) (slots : Slots) : Prop where
  entry : ∀ b ∈ read.entry, slots.Has b
  filterBlock : ∀ b ∈ read.filterBlock, slots.Has b

theorem readHandlerField_ok {read read' : HandlerFields}
    (h : Reader.readHandlerField slots line read field = .ok read') (hread : read.Declared slots) :
    read'.Declared slots := by
  unfold Reader.readHandlerField at h
  obtain ⟨⟨key, value⟩, _, h⟩ := bind_eq_ok.mp h
  simp only at h
  split at h
  · obtain ⟨b, hb, hpure⟩ := bind_eq_ok.mp h
    cases hpure
    refine ⟨?_, hread.filterBlock⟩
    intro b' hb'
    cases hb'
    exact readBlock_ok hb
  · split at h
    · obtain ⟨b, hb, hpure⟩ := bind_eq_ok.mp h
      cases hpure
      refine ⟨hread.entry, ?_⟩
      intro b' hb'
      cases hb'
      exact readBlock_ok hb
    · split at h
      · split at h
        · cases h
        · cases h
          exact ⟨hread.entry, hread.filterBlock⟩
      · cases h

theorem HandlerShape.kind_filter {shape : HandlerShape} {filterBlock : Option Nat}
    (h : shape.kind filterBlock = some (.filter b)) : filterBlock = some b := by
  cases shape <;> cases filterBlock <;> simp_all [HandlerShape.kind]

theorem readHandler_ok {r r' : Reader ι}
    (h : r.readHandler content line = .ok r') : ∃ region handler, r.pending = some region ∧
      (∀ b ∈ handler.anchors, r.slots.Has b) ∧
      r' = { r with pending := some { region with handlers := region.handlers ++ [handler] } } := by
  unfold Reader.readHandler at h
  split at h
  · cases h
  split at h
  · cases h
  split at h
  · cases h
  next shape hshape =>
  obtain ⟨read, hread, h⟩ := bind_eq_ok.mp h
  have hdeclared : read.Declared r.slots := by
    refine foldlM_except (I := fun _ (read : HandlerFields) => read.Declared r.slots) ?_
      ⟨fun b hb => (by cases hb), fun b hb => (by cases hb)⟩ hread
    intro done field read read' hr hstep
    exact readHandlerField_ok hstep hr
  split at h
  · next entry body kind region hentry hbody hkind hpending =>
    cases h
    refine ⟨region, ⟨entry, body, kind⟩, hpending, ?_, rfl⟩
    intro b hb
    rcases mem_cons.mp hb with rfl | hb
    · exact hdeclared.entry b hentry
    · cases kind with
      | filter filterBlock =>
        cases mem_singleton.mp hb
        exact hdeclared.filterBlock _ (HandlerShape.kind_filter hkind)
      | «catch» => cases hb
      | catchAll => cases hb
      | «finally» => cases hb
      | fault => cases hb
  · cases h

/-! ## Declaring blocks -/

theorem newBlocks_spec {count : Nat} : ∀ {c c' : Cfg ι Unit}, c.WF → c.newBlocks count = some c' →
    c'.WF ∧ Cfg.SameFrame c c' ∧ c'.blockBound = c.blockBound + count ∧
      ((∀ b < c.blockBound, c.containsBlock b) → ∀ b < c'.blockBound, c'.containsBlock b) := by
  induction count with
  | zero =>
    intro c c' hc h
    cases h
    exact ⟨hc, ⟨rfl, rfl, rfl⟩, rfl, fun hlive => hlive⟩
  | succ count ih =>
    intro c c' hc h
    unfold Cfg.newBlocks at h
    split at h
    · cases h
    next b c₁ hnew =>
    obtain ⟨_, hwf, hframe, hblock, _, hbound, _⟩ := Cfg.newBlock_spec hc hnew
    obtain ⟨hwf', hframe', hbound', hlive'⟩ := ih hwf h
    refine ⟨hwf', hframe.trans hframe', by omega, fun hlive => hlive' ?_⟩
    intro i hi
    unfold Cfg.containsBlock
    rw [hblock]
    by_cases hnew : i = c.blockBound
    · rw [if_pos hnew]
      rfl
    · rw [if_neg hnew]
      exact hlive i (by omega)

theorem declare_ok {s s' : Slots} {before : Nat}
    (h : s.declare index line = .ok (before, s')) : before = s.declared.length ∧
      s'.declared.length = before + (index + 1 - before) ∧ ∀ b, s.Has b → s'.Has b := by
  unfold Slots.declare at h
  simp only at h
  split at h
  · cases h
  split at h
  · cases h
  split at h
  · next hlt =>
    cases h
    refine ⟨rfl, ?_, ?_⟩
    · rw [length_set]
      omega
    · intro b hb
      unfold Slots.Has at hb ⊢
      rw [getElem?_set, if_pos hlt]
      split
      · rfl
      · exact hb
  · cases h
    refine ⟨rfl, ?_, ?_⟩
    · simp only [length_append, length_replicate, length_singleton]
      omega
    · intro b hb
      unfold Slots.Has at hb ⊢
      obtain ⟨hlt, _⟩ := List.getElem?_eq_some_iff.mp hb
      rw [append_assoc, getElem?_append_left hlt]
      exact hb

/-! ## The reader's state -/

/-- The regions read so far, the open one last. -/
def Reader.allRegions (r : Reader ι) : List Region := r.cfg.regions ++ r.pending.toList

structure Reading (headers : List Text) (r : Reader ι) : Prop where
  wf : r.cfg.WF
  bound : r.cfg.blockBound = r.slots.declared.length
  live : ∀ b < r.cfg.blockBound, r.cfg.containsBlock b
  cleanups : r.cfg.cleanups = []
  ids : ∀ (index : Nat) (region : Region), r.cfg.regions[index]? = some region → region.id = index
  anchors : ∀ region ∈ r.allRegions, ∀ handler ∈ region.handlers, ∀ b ∈ handler.anchors, r.slots.Has b
  parents : r.allRegions.map (·.parent) = headers.map headerParent

theorem reading_new : Reading [] (Reader.new : Reader ι) where
  wf :=
    have hadd : Store.Naive.empty.addNode (⟨[], none⟩ : BasicBlock ι) = some Reader.new.cfg.graph :=
      rfl
    ⟨Store.Naive.wf_empty.addNode hadd, rfl⟩
  bound := rfl
  live := by
    intro b hb
    cases Nat.lt_one_iff.mp hb
    rfl
  cleanups := rfl
  ids := by
    intro index region h
    cases h
  anchors := by
    intro region h
    cases h
  parents := rfl

variable {headers : List Text} {r r' : Reader ι}

section

variable (h : Reading headers r)
include h

/-- A graph edit that keeps the blocks, and a change of what an indented line belongs to. -/
theorem Reading.edit (hwf : r'.cfg.WF) (hframe : Cfg.SameFrame r.cfg r'.cfg)
    (hbound : r'.cfg.blockBound = r'.slots.declared.length) (hlive : ∀ b < r'.cfg.blockBound, r'.cfg.containsBlock b)
    (hslots : ∀ b, r.slots.Has b → r'.slots.Has b) (hpending : r'.pending = r.pending) :
    Reading headers r' := by
  have hall : r'.allRegions = r.allRegions := by
    unfold Reader.allRegions
    rw [hframe.regions, hpending]
  refine ⟨hwf, hbound, hlive, hframe.cleanups.trans h.cleanups, ?_, ?_, by rw [hall]; exact h.parents⟩
  · rw [hframe.regions]
    exact h.ids
  · rw [hall]
    exact fun region hregion handler hhandler b hb =>
      hslots b (h.anchors region hregion handler hhandler b hb)

theorem Reading.flush (hs : r.flushRegion = .ok r') : Reading headers r' ∧ r'.pending = none := by
  unfold Reader.flushRegion at hs
  split at hs
  · next hpending =>
    cases hs
    exact ⟨h, hpending⟩
  · next region hpending =>
    unfold Cfg.addRegion at hs
    split at hs
    · cases hs
      have hall : (r.cfg.regions ++ [({ region with id := r.cfg.regions.length } : Region)]).map
          (fun region => (region.parent, region.handlers)) =
            r.allRegions.map fun region => (region.parent, region.handlers) := by
        unfold Reader.allRegions
        rw [hpending]
        simp
      refine ⟨⟨⟨h.wf.graph, h.wf.entry⟩, h.bound, h.live, h.cleanups, ?_, ?_, ?_⟩, rfl⟩
      · intro index found hfound
        simp only at hfound
        by_cases hlt : index < r.cfg.regions.length
        · rw [getElem?_append_left hlt] at hfound
          exact h.ids index found hfound
        · rw [getElem?_append_right (by omega)] at hfound
          obtain ⟨hzero, hget⟩ := List.getElem?_eq_some_iff.mp hfound
          simp only [length_singleton] at hzero
          have hindex : index = r.cfg.regions.length := by omega
          subst hindex
          simp only [Nat.sub_self, getElem_cons_zero] at hget
          rw [← hget]
      · intro found hfound handler hhandler b hb
        have hmem : (found.parent, found.handlers) ∈
            r.allRegions.map fun region => (region.parent, region.handlers) := by
          rw [← hall]
          refine mem_map_of_mem (f := fun region : Region => (region.parent, region.handlers)) ?_
          simpa [Reader.allRegions] using hfound
        obtain ⟨old, hold, heq⟩ := mem_map.mp hmem
        obtain ⟨_, hhandlers⟩ := Prod.mk.inj heq
        exact h.anchors old hold handler (by rw [hhandlers]; exact hhandler) b hb
      · have hparents := congrArg (List.map Prod.fst) hall
        simp only [map_map, Function.comp_def] at hparents
        rw [← h.parents, ← hparents]
        simp [Reader.allRegions]
    · cases hs

theorem Reading.declareBlock {label : Text} (hs : r.declareBlock index label line = .ok r') : Reading headers r' := by
  unfold Reader.declareBlock at hs
  obtain ⟨⟨before, slots⟩, hdeclare, hs⟩ := bind_eq_ok.mp hs
  obtain ⟨cfg, hpanic, hs⟩ := bind_eq_ok.mp hs
  cases hs
  have hnew : r.cfg.newBlocks (index + 1 - before) = some cfg := orPanic_eq_ok.mp hpanic
  obtain ⟨hbefore, hlength, hslots⟩ := declare_ok hdeclare
  obtain ⟨hwf, hframe, hbound, hlive⟩ := newBlocks_spec h.wf hnew
  have hlabel : ∀ c' : Cfg ι Unit, c' = (if label = [] then cfg else
      cfg.modifyBlock index fun b => { b with label := some (String.ofList label) }) →
      c'.WF ∧ Cfg.SameFrame cfg c' ∧ c'.blockBound = cfg.blockBound ∧
        ∀ b, c'.containsBlock b = cfg.containsBlock b := by
    intro c' hc'
    split at hc'
    · rw [hc']
      exact ⟨hwf, ⟨rfl, rfl, rfl⟩, rfl, fun _ => rfl⟩
    · rw [hc']
      exact ⟨hwf.modifyBlock index _, ⟨rfl, rfl, rfl⟩, Cfg.blockBound_modifyBlock _ _ _,
        fun b => Cfg.containsBlock_modifyBlock _ _ _ _⟩
  obtain ⟨hwf', hframe', hbound', hcontains⟩ := hlabel _ rfl
  have hfirst := h.bound
  refine h.edit hwf' (hframe.trans hframe') ?_ ?_ hslots rfl
  · simp only
    rw [hbound', hbound, hlength, hbefore, hfirst]
  · intro b hb
    simp only at hb ⊢
    rw [hbound'] at hb
    rw [hcontains]
    exact hlive h.live b hb

theorem Reading.readRegion (hpending : r.pending = none)
    (hs : r.readRegion content line = .ok r') : Reading (headers ++ [content]) r' := by
  unfold Reader.readRegion at hs
  split at hs
  · cases hs
  next token fields hwords =>
  obtain ⟨index, _, hs⟩ := bind_eq_ok.mp hs
  split at hs
  · cases hs
  obtain ⟨region, hfields, hs⟩ := bind_eq_ok.mp hs
  cases hs
  obtain ⟨hparent, hhandlers⟩ := readRegionFields_ok hfields
  have hall : r.allRegions = r.cfg.regions := by
    unfold Reader.allRegions
    rw [hpending]
    exact append_nil _
  have hanchors := h.anchors
  have hparents := h.parents
  rw [hall] at hanchors hparents
  refine ⟨h.wf, h.bound, h.live, h.cleanups, h.ids, ?_, ?_⟩
  · intro found hfound handler hhandler b hb
    rcases mem_append.mp hfound with hfound | hfound
    · exact hanchors found hfound handler hhandler b hb
    · rw [Option.mem_toList.mp hfound |> Option.some.inj |>.symm, hhandlers] at hhandler
      cases hhandler
  · unfold Reader.allRegions
    rw [map_append, hparents, map_append]
    simp only [Option.toList, map_cons, map_nil, append_cancel_left_eq,
      List.cons.injEq, and_true]
    unfold headerParent
    rw [hwords]
    exact hparent

theorem Reading.readHandler (hs : r.readHandler content line = .ok r') : Reading headers r' := by
  obtain ⟨region, handler, hpending, hdeclared, rfl⟩ := readHandler_ok hs
  have hall : r.allRegions = r.cfg.regions ++ [region] := by
    unfold Reader.allRegions
    rw [hpending]
    rfl
  have hanchors := h.anchors
  have hparents := h.parents
  rw [hall] at hanchors hparents
  refine ⟨h.wf, h.bound, h.live, h.cleanups, h.ids, ?_, ?_⟩
  · intro found hfound other hother b hb
    rcases mem_append.mp hfound with hfound | hfound
    · exact hanchors found (mem_append_left _ hfound) other hother b hb
    · cases mem_singleton.mp hfound
      rcases mem_append.mp hother with hother | hother
      · exact hanchors region (mem_append_right _ mem_cons_self) other hother b hb
      · cases mem_singleton.mp hother
        exact hdeclared b hb
  · rw [← hparents]
    simp [Reader.allRegions]

theorem Reading.readBlockOrEdge (hs : r.readBlockOrEdge content line = .ok r') : Reading headers r' := by
  unfold Reader.readBlockOrEdge at hs
  split at hs
  · next token tail _ =>
    split at hs
    · split at hs
      · obtain ⟨source, _, hs⟩ := bind_eq_ok.mp hs
        obtain ⟨target, _, hs⟩ := bind_eq_ok.mp hs
        split at hs
        · cases hs
        next kind _ =>
        obtain ⟨⟨e, cfg⟩, hadd, hs⟩ := bind_eq_ok.mp hs
        cases hs
        have hadded : r.cfg.addEdgeWithPayload source target kind () = some (e, cfg) :=
          orPanic_eq_ok.mp hadd
        obtain ⟨_, hwf, hframe, hblock, _, hbound, _⟩ := Cfg.addEdgeWithPayload_spec h.wf hadded
        refine h.edit hwf hframe (hbound.trans h.bound) ?_ (fun b hb => hb) rfl
        intro b hb
        simp only at hb ⊢
        rw [hbound] at hb
        unfold Cfg.containsBlock
        rw [hblock]
        exact h.live b hb
      · cases hs
    · split at hs
      · cases hs
      · obtain ⟨index, _, hs⟩ := bind_eq_ok.mp hs
        obtain ⟨label, _, hs⟩ := bind_eq_ok.mp hs
        exact h.declareBlock hs
  · cases hs

theorem Reading.readIndented {trimmed : Text} (hs : r.readIndented parseInstruction line trimmed = .ok r') :
    Reading headers r' := by
  unfold Reader.readIndented at hs
  split at hs
  · exact h.readHandler hs
  · next b _ =>
    obtain ⟨text, _, hs⟩ := bind_eq_ok.mp hs
    split at hs
    · cases hs
    next a _ =>
    cases hs
    refine h.edit (h.wf.modifyBlock b _) ⟨rfl, rfl, rfl⟩ ?_ ?_ (fun b hb => hb) rfl
    · exact (Cfg.blockBound_modifyBlock _ _ _).trans h.bound
    · intro i hi
      have hi' : i < r.cfg.blockBound := by
        rw [Cfg.blockBound_modifyBlock] at hi
        exact hi
      exact (Cfg.containsBlock_modifyBlock _ _ _ _).trans (h.live i hi')
  · cases hs

theorem Reading.step (hs : Reader.step parseInstruction r line content = .ok r') :
    Reading (headers ++ (regionHeader? content).toList) r' := by
  unfold Reader.step at hs
  simp only at hs
  split at hs
  · next hindented =>
    rw [regionHeader?_indented hindented, Option.toList_none, append_nil]
    exact h.readIndented hs
  · next hunindented =>
    obtain ⟨r₁, hflush, hs⟩ := bind_eq_ok.mp hs
    obtain ⟨h₁, hpending⟩ := h.flush hflush
    split at hs
    · next rest hentry =>
      obtain ⟨index, _, hs⟩ := bind_eq_ok.mp hs
      cases hs
      rw [regionHeader?_entry hentry, Option.toList_none, append_nil]
      exact h₁.edit h₁.wf ⟨rfl, rfl, rfl⟩ h₁.bound h₁.live (fun b hb => hb) rfl
    · next hentry =>
      rw [regionHeader?_other hunindented hentry]
      split at hs
      · next rest hregion =>
        rw [hregion]
        exact h₁.readRegion hpending hs
      · next hregion =>
        rw [hregion, Option.toList_none, append_nil]
        exact h₁.readBlockOrEdge hs

end

theorem map_significant_zipIdx (l : List Text) : ∀ k : Nat,
    ((l.zipIdx k).filterMap fun (raw, number) =>
      (significantLine raw).map fun content => (number, content)).map Prod.snd =
        l.filterMap significantLine := by
  induction l with
  | nil => exact fun _ => rfl
  | cons raw l ih =>
    intro k
    rw [zipIdx_cons]
    cases hline : significantLine raw with
    | none =>
      rw [filterMap_cons_none (by simp [hline]), filterMap_cons_none hline]
      exact ih (k + 1)
    | some content =>
      rw [filterMap_cons_some (b := (k, content)) (by simp [hline]),
        filterMap_cons_some hline, map_cons, ih (k + 1)]

theorem reading_read {text : Text} (hs : Reader.new.read parseInstruction text = .ok r) :
    Reading (regionHeaders text) r ∧ r.pending = none := by
  obtain ⟨r₁, hread, hflush⟩ := bind_eq_ok.mp hs
  unfold readFrom at hread
  have hlines := foldlM_except
    (I := fun done (r : Reader ι) => Reading ((done.map Prod.snd).filterMap regionHeader?) r)
    ?_ reading_new hread
  · rw [map_significant_zipIdx] at hlines
    exact Reading.flush hlines hflush
  · intro done numbered r r' hr hstep
    rw [map_append, filterMap_append]
    have hheader : (List.map Prod.snd [numbered]).filterMap regionHeader? =
        (regionHeader? numbered.2).toList := by
      cases hcontent : regionHeader? numbered.2 with
      | none => simp [hcontent]
      | some header => simp [hcontent]
    rw [hheader]
    exact hr.step hstep

/-! ## The finished graph -/

/-- Removing distinct live slots other than the entry leaves the rest. -/
theorem removeBlocks_live {holes : List Nat} : ∀ {c c' : Cfg ι Unit}, c.WF → holes.Nodup →
    (∀ b ∈ holes, c.containsBlock b) →
    holes.foldlM (fun c index => (c.removeBlock index).map (·.2)) c = some c' →
    c'.WF ∧ Cfg.SameFrame c c' ∧ ∀ b, b ∉ holes → c.containsBlock b → c'.containsBlock b := by
  induction holes with
  | nil =>
    intro c c' hc _ _ hs
    cases hs
    exact ⟨hc, ⟨rfl, rfl, rfl⟩, fun b _ hb => hb⟩
  | cons b holes ih =>
    intro c c' hc hnodup hlive hs
    rw [foldlM_cons] at hs
    obtain ⟨_, hfirst, hs⟩ := Option.bind_eq_some_iff.mp hs
    obtain ⟨⟨removed, c₁⟩, hremove, heq⟩ := Option.map_eq_some_iff.mp hfirst
    cases heq
    obtain ⟨hhead, hnodup⟩ := nodup_cons.mp hnodup
    obtain ⟨_, hremoval⟩ := Cfg.removeBlock_spec hc (hlive b mem_cons_self) hremove
    obtain ⟨hwf, hframe, hrest⟩ := ih hremoval.wf hnodup (fun i hi =>
      (hremoval.contains_iff i).mpr ⟨hlive i (mem_cons_of_mem b hi),
        fun heq => hhead (by rw [← heq]; exact hi)⟩) hs
    refine ⟨hwf, hremoval.frame.trans hframe, ?_⟩
    intro i hi hcontains
    refine hrest i (fun h => hi (mem_cons_of_mem b h)) ((hremoval.contains_iff i).mpr ⟨hcontains, ?_⟩)
    intro heq
    rw [heq] at hi
    exact hi mem_cons_self

structure Accepted (text : Text) (c : Cfg ι Unit) : Prop where
  wf : c.WF
  anchors : ∀ b ∈ c.anchors, c.containsBlock b
  ids : ∀ (index : Nat) (region : Region), c.regions[index]? = some region → region.id = index
  cleanups : c.cleanups = []
  parents : c.regions.map (·.parent) = (regionHeaders text).map headerParent

theorem accepted_parseCfgText {text : Text}
    {c : Cfg ι Unit} (h : parseCfgText text parseInstruction = .ok c) : Accepted text c := by
  obtain ⟨r, hread, hfinish⟩ := bind_eq_ok.mp h
  obtain ⟨hreading, hpending⟩ := reading_read hread
  unfold Reader.finish at hfinish
  obtain ⟨entry, hentry, hfinish⟩ := bind_eq_ok.mp hfinish
  obtain ⟨c₁, hset, hfinish⟩ := bind_eq_ok.mp hfinish
  have hhas := (liveBlock_ok hentry).2
  have hremoved := orPanic_eq_ok.mp hfinish
  have hset := orPanic_eq_ok.mp hset
  unfold Cfg.setEntry at hset
  split at hset
  · next hcontains =>
    cases hset
    have hall : r.allRegions = r.cfg.regions := by
      unfold Reader.allRegions
      rw [hpending]
      exact append_nil _
    have hanchors := hreading.anchors
    have hparents := hreading.parents
    rw [hall] at hanchors hparents
    have hholes : ∀ b ∈ r.slots.undeclared, r.slots.declared[b]? = some false := by
      intro b hb
      exact of_decide_eq_true (mem_filter.mp hb).2
    obtain ⟨hwf, hframe, hkept⟩ := removeBlocks_live (c := { r.cfg with entry := entry })
      ⟨hreading.wf.graph, hcontains⟩ (nodup_range.filter _) (fun b hb => by
        refine hreading.live b ?_
        obtain ⟨hlt, _⟩ := List.getElem?_eq_some_iff.mp (hholes b hb)
        rw [hreading.bound]
        exact hlt) hremoved
    -- a declared slot is never among the removed ones
    have hdeclared : ∀ b, r.slots.Has b → c.containsBlock b := by
      intro b hb
      refine hkept b (fun hhole => ?_) (hreading.live b ?_)
      · have hfalse := hholes b hhole
        rw [hb] at hfalse
        cases hfalse
      · obtain ⟨hlt, _⟩ := List.getElem?_eq_some_iff.mp hb
        rw [hreading.bound]
        exact hlt
    have hregions : c.regions = r.cfg.regions := hframe.regions
    have hcleanups : c.cleanups = [] := hframe.cleanups.trans hreading.cleanups
    refine ⟨hwf, ?_, ?_, hcleanups, ?_⟩
    · intro b hb
      unfold Cfg.anchors at hb
      rw [hcleanups, flatMap_nil, append_nil] at hb
      obtain ⟨handler, hhandler, hb⟩ := mem_flatMap.mp hb
      obtain ⟨region, hregion, hhandler⟩ := mem_flatMap.mp hhandler
      rw [hregions] at hregion
      exact hdeclared b (hanchors region hregion handler hhandler b hb)
    · rw [hregions]
      exact hreading.ids
    · rw [hregions]
      exact hparents
  · cases hset

/-- An accepted text's graph, serialized, is read back exactly when every parent that a
region line of the text names is one of the text's regions. -/
theorem tryFrom_parseCfgText {parseInstruction : Text → Except String ι} {text : Text}
    {c : Cfg ι Unit} (h : parseCfgText text parseInstruction = .ok c) :
    c.document.tryFrom = .ok c ↔ NamesParents text := by
  have hc := accepted_parseCfgText h
  have hlength : c.regions.length = (regionHeaders text).length := by
    have := congrArg List.length hc.parents
    simpa using this
  rw [Cfg.tryFrom_document]
  constructor
  · intro hdoc header hheader parent hparent
    have hmem : headerParent header ∈ c.regions.map (·.parent) := by
      rw [hc.parents]
      exact mem_map_of_mem hheader
    obtain ⟨region, hregion, heq⟩ := mem_map.mp hmem
    obtain ⟨index, hindex⟩ := getElem?_of_mem hregion
    rw [← hlength]
    exact (hdoc.regions index region hindex).parent parent (by rw [heq]; exact hparent)
  · intro hnames
    refine ⟨hc.wf.entry, hc.anchors, ?_, ?_⟩
    · intro index region hregion
      refine ⟨hc.ids index region hregion, ?_⟩
      intro parent hparent
      have hmem : region.parent ∈ (regionHeaders text).map headerParent := by
        rw [← hc.parents]
        exact mem_map_of_mem (f := fun region : Region => region.parent)
          (mem_of_getElem? hregion)
      obtain ⟨header, hheader, heq⟩ := mem_map.mp hmem
      rw [hlength]
      exact hnames header hheader parent (by rw [heq]; exact hparent)
    · intro cleanup hcleanup
      rw [hc.cleanups] at hcleanup
      cases hcleanup

/-- Two nested regions, the inner one naming the outer as its parent. -/
def nestedRegions : Text := "bb0:\nregion r0\nregion r1 parent=r0\n".toList

theorem tryFrom_parseCfgText_nestedRegions : ∃ c : Cfg Text Unit,
    parseCfgText nestedRegions (.ok ·) = .ok c ∧
      (c.document.tryFrom = .ok c ↔ NamesParents nestedRegions) ∧ NamesParents nestedRegions := by
  have hparses : (parseCfgText nestedRegions (Except.ok (α := Text))).isOk = true := by
    decide +kernel
  obtain ⟨c, hc⟩ := exists_of_isOk hparses
  refine ⟨c, hc, tryFrom_parseCfgText hc, ?_⟩
  have hnames : ∀ header ∈ regionHeaders nestedRegions, ∀ parent ∈ (headerParent header).toList,
      parent < (regionHeaders nestedRegions).length := by decide
  exact fun header hheader parent hparent => hnames header hheader parent (Option.mem_toList.mpr hparent)

def orphanRegion : Text := "bb0:\nregion r0 parent=r1\n".toList

/-- The text reader accepts the orphan, and the document reader rejects what it gives. -/
theorem parseCfgText_orphanRegion : ∃ c : Cfg Text Unit,
    parseCfgText orphanRegion (.ok ·) = .ok c ∧ c.document.tryFrom ≠ .ok c := by
  have hparses : (parseCfgText orphanRegion (Except.ok (α := Text))).isOk = true := by
    decide +kernel
  obtain ⟨c, hc⟩ := exists_of_isOk hparses
  refine ⟨c, hc, ?_⟩
  intro h
  have hread : ((parseCfgText orphanRegion (Except.ok (α := Text))).toOption.map fun c =>
      c.document.tryFrom.isOk) = some false := by decide +kernel
  rw [hc] at hread
  change some (c.document.tryFrom.isOk) = some false at hread
  rw [h] at hread
  cases hread

end CfgLib
