import CfgLib.Cfg.Text

/-!
# The lines of the text form

Every line the writer produces is read back as what it was written from.
-/

namespace CfgLib

open CfgLib.Lib List

variable {ι π : Type} {parseInstruction : Text → Except String ι}

/-! ## Tokens -/

theorem solid_showBlock (b : Nat) : Solid (showBlock b) := solid_showIndex (by decide) b

theorem solid_showRegion (r : Nat) : Solid (showRegion r) := solid_showIndex (by decide) r

theorem showBlock_ne_nil (b : Nat) : showBlock b ≠ [] := by
  unfold showBlock showIndex
  simp

variable {c : Char} {blocks : List Nat} {b : Nat} {live : Nat → Bool} {r r₁ : Reader ι} {region : Region}
  {slots : Slots}

theorem not_mem_showBlock (hb : c ≠ 'b') (hc : c.isDigit = false) (b : Nat) : c ∉ showBlock b := by
  refine not_mem_showIndex ?_ hc b
  rw [show "bb".toList = ['b', 'b'] from rfl]
  simpa using hb

theorem solid_writeBlocks (blocks : List Nat) : Solid (writeBlocks blocks) := by
  intro c hc
  rcases mem_intercalate hc with rfl | ⟨part, hpart, hc⟩
  · decide
  · obtain ⟨b, _, rfl⟩ := mem_map.mp hpart
    exact solid_showBlock b c hc

theorem readBlock_showBlock {line : Nat} (hb : b < 2 ^ 64) (hlive : slots.checkLive b line = .ok ()) :
    Reader.readBlock slots line (showBlock b) = .ok b := by
  unfold Reader.readBlock Reader.liveBlock showBlock
  rw [parseIndex_showIndex hb]
  simp only [bind, Except.bind, hlive, pure, Except.pure]

/-! ## One line -/

theorem step_unindented (hc : isWhitespace c = false) (hflush : r.flushRegion = .ok r₁) (line : Nat) (rest : Text) :
    r.step parseInstruction line (c :: rest) = match stripPrefix "entry ".toList (c :: rest) with
      | some rest => do
        let index ← parseIndex (trim rest) "bb".toList line
        pure { r₁ with entry := some index, context := .nothing }
      | none =>
        match stripPrefix "region ".toList (c :: rest) with
        | some rest => r₁.readRegion rest line
        | none => r₁.readBlockOrEdge (c :: rest) line := by
  unfold Reader.step
  simp only [trimStart_cons hc, ne_eq, not_true_eq_false, if_false, hflush]
  rfl

theorem step_entry (hflush : r.flushRegion = .ok r₁) {e : Nat} (he : e < 2 ^ 64)
    (line : Nat) : r.step parseInstruction line ("entry ".toList ++ showBlock e) =
      .ok { r₁ with entry := some e, context := .nothing } := by
  have hparse : parseIndex (showBlock e) "bb".toList line = .ok e := parseIndex_showIndex he _ _
  rw [show "entry ".toList ++ showBlock e = 'e' :: ("ntry ".toList ++ showBlock e) from rfl,
    step_unindented (by decide) hflush,
    show 'e' :: ("ntry ".toList ++ showBlock e) = "entry ".toList ++ showBlock e from rfl,
    stripPrefix_append]
  simp only [trim_of_solid (solid_showBlock e), hparse]
  rfl

def labelText (label : Option String) : Text :=
  match label with
  | none => []
  | some name => name.toList

theorem blockHeader_eq (id : Nat) (label : Option String) :
    blockHeader id label = showBlock id ++ ":".toList ++ writeLabel (labelText label) := by
  cases label <;> rfl

theorem splitTokens_header (id : Nat) (label : Option String) :
    ∃ tail, splitTokens (blockHeader id label) 1 = some ([showBlock id ++ ":".toList], tail) ∧
      stripPrefix "-> ".toList tail = none ∧ ∀ line, unescape line tail = .ok (labelText label) := by
  have hsolid : Solid (showBlock id ++ ":".toList) := (solid_showBlock id).append (by decide)
  rw [blockHeader_eq]
  exact splitTokens_label hsolid (by simp) (labelText label)

theorem step_block_line (hflush : r.flushRegion = .ok r₁) (id : Nat) (rest : Text)
    (line : Nat) : r.step parseInstruction line (showBlock id ++ rest) =
      r₁.readBlockOrEdge (showBlock id ++ rest) line := by
  rw [show showBlock id ++ rest = 'b' :: ('b' :: Nat.toDigits 10 id ++ rest) from rfl,
    step_unindented (by decide) hflush, show "entry ".toList = 'e' :: "ntry ".toList from rfl,
    stripPrefix_of_head_ne (by decide), show "region ".toList = 'r' :: "egion ".toList from rfl,
    stripPrefix_of_head_ne (by decide)]

theorem step_header (hflush : r.flushRegion = .ok r₁) {id : Nat}
    (hid : id < 2 ^ 64) (label : Option String) (line : Nat) :
    r.step parseInstruction line (blockHeader id label) =
      r₁.declareBlock id (labelText label) line := by
  obtain ⟨tail, hsplit, harrow, hlabel⟩ := splitTokens_header id label
  have hparse : parseIndex (showBlock id) "bb".toList line = .ok id := parseIndex_showIndex hid _ _
  have hstep : r.step parseInstruction line (blockHeader id label) =
      r₁.readBlockOrEdge (blockHeader id label) line := by
    unfold blockHeader
    rw [append_assoc]
    exact step_block_line hflush id _ line
  rw [hstep]
  unfold Reader.readBlockOrEdge
  simp only [hsplit, harrow, stripSuffix_append, hparse, hlabel line]
  rfl

theorem step_edge (hflush : r.flushRegion = .ok r₁) {s t : Nat}
    {cfg : Cfg ι Unit} {e : Nat} (hs : s < 2 ^ 64) (ht : t < 2 ^ 64) (line : Nat)
    (hsource : r₁.slots.checkLive s line = .ok ()) (htarget : r₁.slots.checkLive t line = .ok ())
    {kind : EdgeKind} (hadd : r₁.cfg.addEdgeWithPayload s t kind () = some (e, cfg)) :
    r.step parseInstruction line
      (showBlock s ++ " -> ".toList ++ showBlock t ++ " ".toList ++ kind.name) =
        .ok { r₁ with cfg, context := .nothing } := by
  have htail : stripPrefix "-> ".toList ("-> ".toList ++ (showBlock t ++ ' ' :: kind.name)) = _ :=
    stripPrefix_append _ _
  have hsplit : splitTokens (showBlock s ++ ' ' :: ("-> ".toList ++ (showBlock t ++ ' ' :: kind.name))) 1 =
      _ := splitTokens_one (solid_showBlock s) (showBlock_ne_nil s) _
  have hsplit' : splitTokens (showBlock t ++ ' ' :: kind.name) 2 = _ :=
    splitTokens_two (solid_showBlock t) (showBlock_ne_nil t) kind.solid_name kind.name_ne_nil
  have hcontent : showBlock s ++ " -> ".toList ++ showBlock t ++ " ".toList ++ kind.name =
      showBlock s ++ ' ' :: ("-> ".toList ++ (showBlock t ++ ' ' :: kind.name)) := by
    rw [show " -> ".toList = ' ' :: "-> ".toList from rfl, show " ".toList = [' '] from rfl]
    simp only [append_assoc, cons_append, nil_append]
  rw [hcontent]
  rw [step_block_line hflush]
  unfold Reader.readBlockOrEdge
  simp only [hsplit, htail, hsplit', readBlock_showBlock hs hsource, readBlock_showBlock ht htarget,
    EdgeKind.fromName_name, hadd, orPanic, bind, Except.bind, pure, Except.pure]

theorem flushRegion_of_none (h : r.pending = none) : r.flushRegion = .ok r := by
  unfold Reader.flushRegion
  rw [h]

theorem trimStart_indent_cons (hc : isWhitespace c = false) (rest : Text) :
    trimStart (indent 1 ++ c :: rest) = c :: rest := by
  have hindent : ∀ d ∈ indent 1, isWhitespace d = true := by
    intro d hd
    rw [eq_of_mem_replicate hd]
    decide
  rw [trimStart_indent hindent, trimStart_cons hc]

theorem step_indented (hc : isWhitespace c = false) (r : Reader ι) (line : Nat)
    (rest : Text) : r.step parseInstruction line (indent 1 ++ c :: rest) =
      r.readIndented parseInstruction line (c :: rest) := by
  unfold Reader.step
  simp only [trimStart_indent_cons hc]
  rw [if_pos]
  rw [length_append]
  simp [indent]

theorem step_instruction (hcontext : r.context = .block b) {D : DisplayInstr ι} {a : ι} (hne : D.render a ≠ [])
    (hparse : parseInstruction (D.render a) = .ok a) (line : Nat) :
    r.step parseInstruction line (indent 1 ++ escapeFrom true (D.render a)) = .ok { r with
        cfg := r.cfg.modifyBlock b fun block =>
          { block with instructions := block.instructions ++ [a] } } := by
  obtain ⟨c, rest, heq, hc, _, _⟩ := head_escapeFrom hne
  have hunescape := unescape_escapeFrom line true (D.render a)
  rw [heq] at hunescape ⊢
  rw [step_indented hc]
  unfold Reader.readIndented
  simp only [hcontext, hunescape, bind, Except.bind, hparse, pure, Except.pure]

/-! ## Regions -/

theorem splitOn_writeBlocks (hne : blocks ≠ []) :
    (writeBlocks blocks).splitOn ',' = blocks.map showBlock := by
  refine splitOn_intercalate ',' ?_ (by simpa using hne)
  intro part hpart
  obtain ⟨b, _, rfl⟩ := mem_map.mp hpart
  exact not_mem_showBlock (by decide) (by decide) b

theorem tokens_writeBlocks (blocks : List Nat) :
    ((writeBlocks blocks).splitOn ',').filter (fun token => !token.isEmpty) =
      blocks.map showBlock := by
  by_cases hne : blocks = []
  · subst hne
    rfl
  · rw [splitOn_writeBlocks hne, filter_eq_self]
    intro part hpart
    obtain ⟨b, _, rfl⟩ := mem_map.mp hpart
    simpa using showBlock_ne_nil b

def Named (slots : Slots) (blocks : List Nat) : Prop :=
  ∀ b ∈ blocks, b < 2 ^ 64 ∧ ∀ line, slots.checkLive b line = .ok ()

theorem Named.readBlock (h : Named slots blocks)
    (hb : b ∈ blocks) (line : Nat) : Reader.readBlock slots line (showBlock b) = .ok b :=
  readBlock_showBlock (h b hb).1 ((h b hb).2 line)

theorem foldlM_insert (h : Named slots blocks) (line : Nat) (region : Region) :
    (blocks.map showBlock).foldlM (fun (region : Region) token => do
      let b ← Reader.readBlock slots line token
      pure { region with protectedBlocks := insert b region.protectedBlocks }) region =
      (.ok { region with protectedBlocks := blocks.toFinset ∪ region.protectedBlocks } :
        Except Stop Region) := by
  induction blocks generalizing region with
  | nil => simp [pure, Except.pure]
  | cons b blocks ih =>
    have hb := h.readBlock mem_cons_self line
    have htail : Named slots blocks := fun b' hb' => h b' (mem_cons_of_mem b hb')
    have hset : (b :: blocks).toFinset ∪ region.protectedBlocks =
        blocks.toFinset ∪ insert b region.protectedBlocks := by
      rw [toFinset_cons, Finset.insert_union, Finset.union_insert]
    rw [map_cons, foldlM_cons, hb, hset]
    exact ih htail { region with protectedBlocks := insert b region.protectedBlocks }

theorem splitField_append {key : Text} (h : '=' ∉ key) (value : Text) (line : Nat) :
    splitField (key ++ '=' :: value) line = .ok (key, value) := by
  unfold splitField
  rw [splitOnce_append h]

theorem readRegionField_protected (h : Named slots blocks) (line : Nat) (region : Region) :
    Reader.readRegionField slots line region ("protected=".toList ++ writeBlocks blocks) =
      .ok { region with protectedBlocks := blocks.toFinset ∪ region.protectedBlocks } := by
  have hfield : splitField ("protected=".toList ++ writeBlocks blocks) line =
      .ok ("protected".toList, writeBlocks blocks) :=
    splitField_append (show '=' ∉ "protected".toList by decide) _ _
  unfold Reader.readRegionField
  simp only [hfield, bind, Except.bind, if_true, tokens_writeBlocks]
  exact foldlM_insert h line region

theorem readRegionField_parent {parent : Nat} (hparent : parent < 2 ^ 32) (slots : Slots) (line : Nat)
    (region : Region) :
    Reader.readRegionField slots line region ("parent=".toList ++ showRegion parent) =
      .ok { region with parent := some parent } := by
  have hfield : splitField ("parent=".toList ++ showRegion parent) line =
      .ok ("parent".toList, showRegion parent) :=
    splitField_append (show '=' ∉ "parent".toList by decide) _ _
  have hindex : parseIndex (showRegion parent) "r".toList line = .ok parent :=
    parseIndex_showIndex (by omega) _ _
  unfold Reader.readRegionField
  simp only [hfield, bind, Except.bind, hindex]
  rw [if_neg (by decide), if_pos trivial, if_pos hparent]
  rfl

/-- What is read of a region: the live members of its sets. -/
def readHandlerBody (live : Nat → Bool) (body : HandlerBody) : HandlerBody :=
  match body with
  | .unknown => .unknown
  | .known blocks => .known (blocks.filter fun b => live b)

def copyHandler (live : Nat → Bool) (handler : Handler) : Handler :=
  { handler with body := readHandlerBody live handler.body }

def copyRegion (live : Nat → Bool) (index : Nat) (region : Region) : Region where
  id := index
  protectedBlocks := region.protectedBlocks.filter fun b => live b
  handlers := region.handlers.map (copyHandler live)
  parent := region.parent

theorem toFinset_liveMembers (live : Nat → Bool) (blocks : Finset Nat) :
    (liveMembers live blocks).toFinset = blocks.filter fun b => live b := by
  unfold liveMembers
  rw [toFinset_filter, Finset.sort_toFinset]

/-- The words after a region's index. -/
def regionFields (live : Nat → Bool) (region : Region) : List Text :=
  ("protected=".toList ++ writeBlocks (liveMembers live region.protectedBlocks)) ::
    match region.parent with
    | none => []
    | some parent => ["parent=".toList ++ showRegion parent]

theorem regionHeader_eq (live : Nat → Bool) (index : Nat) (region : Region) :
    regionHeader live index region =
      "region ".toList ++ [' '].intercalate (showRegion index :: regionFields live region) := by
  unfold regionHeader regionFields
  rw [show " protected=".toList = ' ' :: "protected=".toList from rfl]
  cases region.parent with
  | none =>
    simp only [intercalate_cons_cons, intercalate_singleton, append_assoc,
      cons_append, nil_append, append_nil]
  | some parent =>
    rw [show " parent=".toList = ' ' :: "parent=".toList from rfl]
    simp only [intercalate_cons_cons, intercalate_singleton, append_assoc,
      cons_append, nil_append]

theorem solid_regionFields (live : Nat → Bool) (index : Nat) (region : Region) :
    ∀ w ∈ showRegion index :: regionFields live region, Solid w ∧ w ≠ [] := by
  intro w hw
  unfold regionFields at hw
  rcases mem_cons.mp hw with rfl | hw
  · exact ⟨solid_showRegion index, by simp [showRegion, showIndex]⟩
  rcases mem_cons.mp hw with rfl | hw
  · exact ⟨Solid.append (by decide) (solid_writeBlocks _), by simp⟩
  · cases hp : region.parent with
    | none =>
      rw [hp] at hw
      cases hw
    | some parent =>
      rw [hp, mem_singleton] at hw
      subst hw
      exact ⟨Solid.append (by decide) (solid_showRegion parent), by simp⟩

theorem readRegionFields (hnamed : Named slots (liveMembers live region.protectedBlocks))
    (hparent : ∀ parent, region.parent = some parent → parent < 2 ^ 32) (line : Nat) :
    (regionFields live region).foldlM (Reader.readRegionField slots line) ⟨0, ∅, [], none⟩ =
      .ok ⟨0, region.protectedBlocks.filter fun b => live b, [], region.parent⟩ := by
  have hmembers : (liveMembers live region.protectedBlocks).toFinset ∪ ∅ =
      region.protectedBlocks.filter fun b => live b := by
    rw [Finset.union_empty, toFinset_liveMembers]
  have hfirst := readRegionField_protected hnamed line ⟨0, ∅, [], none⟩
  rw [hmembers] at hfirst
  unfold regionFields
  rw [foldlM_cons, hfirst]
  simp only [bind, Except.bind]
  cases hp : region.parent with
  | none => rfl
  | some parent =>
    have hsecond := readRegionField_parent (hparent parent hp) slots line
      ⟨0, region.protectedBlocks.filter fun b => live b, [], none⟩
    rw [foldlM_cons, hsecond]
    rfl

theorem step_region (hflush : r.flushRegion = .ok r₁)
    {index : Nat} (hindex : index = r₁.cfg.regions.length) (hbound : index < 2 ^ 64)
    (hnamed : Named r₁.slots (liveMembers live region.protectedBlocks))
    (hparent : ∀ parent, region.parent = some parent → parent < 2 ^ 32) (line : Nat) :
    r.step parseInstruction line (regionHeader live index region) = .ok { r₁ with
        pending := some ⟨0, region.protectedBlocks.filter fun b => live b, [], region.parent⟩
        context := .region } := by
  have hparse : parseIndex (showRegion index) "r".toList line = .ok index :=
    parseIndex_showIndex hbound _ _
  have hwords := splitWhitespace_intercalate (solid_regionFields live index region)
  rw [regionHeader_eq]
  generalize [' '].intercalate (showRegion index :: regionFields live region) = rest at hwords ⊢
  rw [show "region ".toList ++ rest = 'r' :: ("egion ".toList ++ rest) from rfl,
    step_unindented (by decide) hflush, show "entry ".toList = 'e' :: "ntry ".toList from rfl,
    stripPrefix_of_head_ne (by decide),
    show 'r' :: ("egion ".toList ++ rest) = "region ".toList ++ rest from rfl, stripPrefix_append]
  unfold Reader.readRegion
  simp only [hwords, hparse, bind, Except.bind]
  rw [if_neg (by simpa using hindex), readRegionFields hnamed hparent line]
  rfl

/-! ## Handlers -/

/-- The words after a handler's shape. -/
def handlerFields (live : Nat → Bool) (handler : Handler) : List Text :=
  ("entry=".toList ++ showBlock handler.entry) ::
    (match handler.kind with
      | .filter filterBlock => ["filter=".toList ++ showBlock filterBlock]
      | _ => []) ++
    ["body=".toList ++ writeBody live handler.body]

theorem handlerLine_eq (live : Nat → Bool) (handler : Handler) :
    handlerLine live handler = "handler ".toList ++
      [' '].intercalate ((HandlerShape.of handler.kind).name :: handlerFields live handler) := by
  unfold handlerLine handlerFields
  rw [show " entry=".toList = ' ' :: "entry=".toList from rfl,
    show " filter=".toList = ' ' :: "filter=".toList from rfl,
    show " body=".toList = ' ' :: "body=".toList from rfl]
  cases handler.kind <;>
    simp only [intercalate_cons_cons, intercalate_singleton, append_assoc,
      cons_append, nil_append]

theorem solid_handlerFields (live : Nat → Bool) (handler : Handler) :
    ∀ w ∈ (HandlerShape.of handler.kind).name :: handlerFields live handler, Solid w ∧ w ≠ [] := by
  have hbody : Solid (writeBody live handler.body) := by
    unfold writeBody
    split
    · decide
    · exact solid_writeBlocks _
  intro w hw
  unfold handlerFields at hw
  rcases mem_cons.mp hw with rfl | hw
  · exact ⟨HandlerShape.solid_name _, HandlerShape.name_ne_nil _⟩
  rcases mem_append.mp hw with hw | hw
  · rcases mem_cons.mp hw with rfl | hw
    · exact ⟨Solid.append (by decide) (solid_showBlock _), by simp⟩
    · split at hw
      · rw [mem_singleton] at hw
        subst hw
        exact ⟨Solid.append (by decide) (solid_showBlock _), by simp⟩
      · cases hw
  · rw [mem_singleton] at hw
    subst hw
    exact ⟨Solid.append (by decide) hbody, by simp⟩

theorem readHandlerField_entry (h : Named slots [b]) (line : Nat) (read : HandlerFields) :
    Reader.readHandlerField slots line read ("entry=".toList ++ showBlock b) =
      .ok { read with entry := some b } := by
  have hfield : splitField ("entry=".toList ++ showBlock b) line =
      .ok ("entry".toList, showBlock b) :=
    splitField_append (show '=' ∉ "entry".toList by decide) _ _
  unfold Reader.readHandlerField
  simp only [hfield, bind, Except.bind, if_true, h.readBlock mem_cons_self line]
  rfl

theorem readHandlerField_filter (h : Named slots [b]) (line : Nat) (read : HandlerFields) :
    Reader.readHandlerField slots line read ("filter=".toList ++ showBlock b) =
      .ok { read with filterBlock := some b } := by
  have hfield : splitField ("filter=".toList ++ showBlock b) line =
      .ok ("filter".toList, showBlock b) :=
    splitField_append (show '=' ∉ "filter".toList by decide) _ _
  unfold Reader.readHandlerField
  simp only [hfield, bind, Except.bind, h.readBlock mem_cons_self line]
  rw [if_neg (by decide), if_pos trivial]
  rfl

theorem mapM_showBlock {block : Text → Option Nat} (h : ∀ b ∈ blocks, block (showBlock b) = some b) :
    (blocks.map showBlock).mapM block = some blocks := by
  induction blocks with
  | nil => rfl
  | cons b blocks ih =>
    rw [map_cons, mapM_cons, h b mem_cons_self,
      ih fun b' hb' => h b' (mem_cons_of_mem b hb')]
    rfl

theorem parseHandlerBody_writeBlocks {block : Text → Option Nat} (h : ∀ b ∈ blocks, block (showBlock b) = some b) :
    parseHandlerBody (writeBlocks blocks) block = some (.known blocks.toFinset) := by
  unfold parseHandlerBody
  cases blocks with
  | nil => rfl
  | cons b blocks =>
    obtain ⟨rest, hrest⟩ : ∃ rest, writeBlocks (b :: blocks) = 'b' :: rest := by
      unfold writeBlocks
      cases blocks with
      | nil => exact ⟨_, intercalate_singleton⟩
      | cons b' blocks => exact ⟨_, intercalate_cons_cons⟩
    have hquestion : writeBlocks (b :: blocks) ≠ "?".toList := by
      rw [hrest, show "?".toList = ['?'] from rfl]
      simp
    rw [if_neg hquestion, if_neg (by rw [hrest]; simp), splitOn_writeBlocks (by simp),
      mapM_showBlock h]
    rfl

theorem readHandlerField_body {body : HandlerBody}
    (h : ∀ blocks, body.blocks = some blocks → Named slots (liveMembers live blocks)) (line : Nat)
    (read : HandlerFields) :
    Reader.readHandlerField slots line read ("body=".toList ++ writeBody live body) =
      .ok { read with body := some (readHandlerBody live body) } := by
  have hfield : splitField ("body=".toList ++ writeBody live body) line =
      .ok ("body".toList, writeBody live body) :=
    splitField_append (show '=' ∉ "body".toList by decide) _ _
  have hvalue : (parseHandlerBody (writeBody live body)
      fun token => (Reader.readBlock slots line token).toOption) =
        some (readHandlerBody live body) := by
    cases body with
    | unknown => rfl
    | known blocks =>
      have hnamed := h blocks rfl
      refine (parseHandlerBody_writeBlocks ?_).trans ?_
      · intro b hb
        rw [hnamed.readBlock hb line]
        rfl
      · rw [toFinset_liveMembers]
        rfl
  unfold Reader.readHandlerField
  simp only [hfield, bind, Except.bind]
  rw [if_neg (by decide), if_neg (by decide), if_pos trivial, hvalue]
  rfl

/-- The blocks a handler line names can be named. -/
structure HandlerNamed (slots : Slots) (live : Nat → Bool) (handler : Handler) : Prop where
  anchors : Named slots handler.anchors
  body : ∀ blocks, handler.body.blocks = some blocks → Named slots (liveMembers live blocks)

theorem readHandlerFields {handler : Handler} (h : HandlerNamed slots live handler) (line : Nat) : ∃ filterBlock,
    (handlerFields live handler).foldlM (Reader.readHandlerField slots line) ⟨none, none, none⟩ =
      .ok ⟨some handler.entry, filterBlock, some (readHandlerBody live handler.body)⟩ ∧
      (HandlerShape.of handler.kind).kind filterBlock = some handler.kind := by
  have hentry : Named slots [handler.entry] := by
    intro b hb
    rw [mem_singleton] at hb
    subst hb
    exact h.anchors _ mem_cons_self
  unfold handlerFields
  rw [cons_append, foldlM_cons, readHandlerField_entry hentry]
  simp only [bind, Except.bind]
  have hplain : ([] ++ ["body=".toList ++ writeBody live handler.body]).foldlM
      (Reader.readHandlerField slots line) ⟨some handler.entry, none, none⟩ =
        .ok ⟨some handler.entry, none, some (readHandlerBody live handler.body)⟩ := by
    rw [nil_append, foldlM_cons, readHandlerField_body h.body]
    rfl
  rcases hk : handler.kind with _ | _ | _ | _ | filterBlock
  · exact ⟨none, hplain, rfl⟩
  · exact ⟨none, hplain, rfl⟩
  · exact ⟨none, hplain, rfl⟩
  · exact ⟨none, hplain, rfl⟩
  · have hfilter : Named slots [filterBlock] := by
      intro b hb
      rw [mem_singleton] at hb
      subst hb
      refine h.anchors _ ?_
      unfold Handler.anchors
      rw [hk]
      simp
    refine ⟨some filterBlock, ?_, rfl⟩
    rw [singleton_append, foldlM_cons, readHandlerField_filter hfilter]
    simp only [bind, Except.bind, foldlM_cons, readHandlerField_body h.body]
    rfl

theorem step_handler (hcontext : r.context = .region) (hpending : r.pending = some region) {handler : Handler}
    (h : HandlerNamed r.slots live handler) (line : Nat) :
    r.step parseInstruction line (indent 1 ++ handlerLine live handler) = .ok { r with
        pending := some { region with handlers := region.handlers ++ [copyHandler live handler] } } := by
  obtain ⟨filterBlock, hfields, hkind⟩ := readHandlerFields h line
  have hwords := splitWhitespace_intercalate (solid_handlerFields live handler)
  rw [handlerLine_eq]
  generalize [' '].intercalate ((HandlerShape.of handler.kind).name :: handlerFields live handler) =
    rest at hwords ⊢
  rw [show "handler ".toList ++ rest = 'h' :: ("andler ".toList ++ rest) from rfl,
    step_indented (by decide)]
  unfold Reader.readIndented Reader.readHandler
  rw [hcontext, show 'h' :: ("andler ".toList ++ rest) = "handler ".toList ++ rest from rfl]
  simp only [stripPrefix_append, hwords, HandlerShape.fromName_name, hfields, bind, Except.bind, hkind,
    hpending]
  rfl

/-! ## Lines of the document -/

theorem plain_intercalate {words : List Text} (h : ∀ w ∈ words, Solid w ∧ w ≠ []) :
    Plain ([' '].intercalate words) := by
  have hmem : ∀ c, isWhitespace c = true → c ≠ ' ' → c ∉ [' '].intercalate words := by
    intro c hc hne hmem
    rcases mem_intercalate hmem with heq | ⟨w, hw, hcw⟩
    · exact hne heq
    · exact (h w hw).1.not_mem hc hcw
  exact ⟨hmem '\n' (by decide) (by decide), hmem '\r' (by decide) (by decide)⟩

theorem plain_blockHeader (id : Nat) (label : Option String) : Plain (blockHeader id label) := by
  have hname : Solid (showBlock id ++ ":".toList) := (solid_showBlock id).append (by decide)
  rw [blockHeader_eq]
  exact (plain_of_solid hname).append (plain_writeLabel _)

theorem reads_line {r' : Reader ι} {line rest : Text} (hline : Plain line)
    (htrim : trimStart line = c :: rest) (hc : c ≠ '#') (hstep : ∀ k, r.step parseInstruction k line = .ok r') :
    Reads significantLine (Reader.step parseInstruction) r (endLine line) r' :=
  .line hline.1 hline.2 (significantLine_eq hline.2 htrim hc) hstep

end CfgLib
