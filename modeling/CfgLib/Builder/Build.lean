import CfgLib.Builder.Simulation
import CfgLib.Builder.Regions

/-!
# The built graph

`builder/address.rs`: what an accepted stream and handler table are built to.
-/

namespace CfgLib.Builder

open CfgLib.Lib CfgLib.Cfg List

variable {ι A K π : Type} [AddressSpace A] {I : AddressInstruction ι A K} {instructions : List ι}
  {handlers : List (AddressHandler A)} {options : AddressCfgOptions A} {policy : CallPolicy}
  {edgePayload : AddressEdgeInfo A K → π} {inspected : Inspected A K} {leaders : List Bool}
  {c : Cfg ι π}

/-! ## What a build establishes -/

def Starts (I : AddressInstruction ι A K) (instructions : List ι) (entry : Option A) (x : ι) :
    Prop :=
  match entry with
  | none => instructions.head? = some x
  | some address => x ∈ instructions ∧ I.address x = address

def IsRun (I : AddressInstruction ι A K) (instructions : List ι)
    (handlers : List (AddressHandler A)) (options : AddressCfgOptions A) (run : List ι) : Prop :=
  (∀ x ∈ run.head?, Starts I instructions options.entry x) ∧
    run.IsChain (Steps I instructions handlers options.calls)

def AddressHandler.Protects (handler : AddressHandler A) (I : AddressInstruction ι A K) (x : ι) :
    Prop :=
  handler.start ≤ I.address x ∧ I.address x < handler.stop

structure IsHandlerOf (I : AddressInstruction ι A K) (handlers : List (AddressHandler A))
    (graph : AddressGraph ι π A) (handler : AddressHandler A) (ref : HandlerRef)
    (region : Region) : Prop where
  found : graph.cfg.regions[ref.region]? = some region
  id : region.id = ref.region
  built : ∃ built y, region.handlers[ref.handler]? = some built ∧ built.kind = handler.kind ∧
    (graph.cfg.instructions built.entry).head? = some y ∧ I.address y = handler.entry
  protects : ∀ b, b ∈ region.protectedBlocks ↔
    ∃ x ∈ graph.cfg.instructions b, handler.Protects I x
  whole : ∀ b ∈ region.protectedBlocks, ∀ x ∈ graph.cfg.instructions b, handler.Protects I x
  outermost : region.parent = none → ∀ outer ∈ handlers, ¬ Encloses outer handler
  innermost : ∀ parent, region.parent = some parent →
    ∃ (i k : Nat) (outer : AddressHandler A), handlers[i]? = some outer ∧
      graph.handlerRefs[i]? = some ⟨parent, k⟩ ∧ Encloses outer handler ∧
      ∀ between ∈ handlers, Encloses between handler → ¬ Encloses outer between

structure Simulates (I : AddressInstruction ι A K) (instructions : List ι)
    (handlers : List (AddressHandler A)) (options : AddressCfgOptions A)
    (edgePayload : AddressEdgeInfo A K → π) (graph : AddressGraph ι π A) : Prop where
  /-- The runs of the machine are the code along the paths from the entry. -/
  runs : ∀ run, IsRun I instructions handlers options run ↔
    ∃ path, (blocks graph.cfg).IsPath graph.cfg.entry path ∧ run <+: (blocks graph.cfg).trace path
  /-- An edge leads from the last instruction of its source to the first of its target. -/
  edges : ∀ r, graph.cfg.HasEdge r → ∃ x y role,
    (graph.cfg.instructions r.source).getLast? = some x ∧
      (graph.cfg.instructions r.target).head? = some y ∧
      Transition I handlers options.calls x y role ∧
      r.payload = ⟨role.kind, none, edgePayload ⟨I.address x, I.address y, role.kind, role⟩⟩
  /-- Only the last instruction of a block ends it. -/
  inside : ∀ (b i : Nat) (x : ι), (graph.cfg.instructions b)[i]? = some x →
    i + 1 < (graph.cfg.instructions b).length → endsBlock (I.flow x) options.calls = false
  /-- The report holds the transfers that leave the stream, and no others. -/
  unresolved : ∀ u, u ∈ graph.unresolvedTransfers ↔ ∃ x ∈ instructions,
    ∃ transfer ∈ machineTransfers I options.calls x, Lost I instructions (I.address x) transfer u
  /-- A transfer that leaves the stream is reported, or is a sequential continuation. -/
  reported : ∀ x ∈ instructions, ∀ transfer ∈ machineTransfers I options.calls x,
    (∀ y ∈ instructions, transfer.target ≠ some (I.address y)) →
    (∃ u ∈ graph.unresolvedTransfers, u.source = I.address x ∧ u.target = transfer.target) ∨
      transfer.target = some (I.endOf x)
  /-- Every entry of the table has one handler, and every handler one entry. -/
  references : graph.handlerRefs.length = handlers.length ∧
    (∀ (i j : Nat) (ref : HandlerRef), graph.handlerRefs[i]? = some ref →
      graph.handlerRefs[j]? = some ref → i = j) ∧
    ∀ (index k : Nat) (region : Region) (built : Handler), graph.cfg.regions[index]? = some region →
      region.handlers[k]? = some built → ∃ i : Nat, graph.handlerRefs[i]? = some ⟨index, k⟩
  regions : ∀ (i : Nat) (handler : AddressHandler A), handlers[i]? = some handler →
    ∃ ref region, graph.handlerRefs[i]? = some ref ∧
      IsHandlerOf I handlers graph handler ref region

/-! ## The stages of a build -/

theorem length_initialLeaders (count : Nat) (entry : Option Nat) :
    (initialLeaders count entry).length = count := by
  unfold initialLeaders
  cases entry <;> simp

theorem entryPosition_spec (h : Inspects I instructions inspected) {entry : Option A}
    {position : Option Nat} (hs : entryPosition inspected.addresses entry = .ok position) :
    (entry = none ∧ position = none) ∨ ∃ (p : Nat) (x : ι), position = some p ∧
      instructions[p]? = some x ∧ entry = some (I.address x) := by
  unfold entryPosition at hs
  split at hs
  · cases hs
    exact Or.inl ⟨rfl, rfl⟩
  · next address =>
    split at hs
    · cases hs
    · next p hsearch =>
      cases hs
      obtain ⟨x, hx, rfl⟩ := h.exists_instruction (h.binarySearch_iff.mp hsearch)
      exact Or.inr ⟨p, x, rfl, hx, rfl⟩

variable {c' : Cfg ι π} {handlerIndex : HandlerIndex} {before : List Bool} {s : Populating ι π} {x : ι}

variable {handler : AddressHandler A} {b p : Nat}

theorem setEntry_spec (h : c.WF) (hs : c.setEntry b = some c') :
    c'.WF ∧ c'.graph = c.graph ∧ c'.regions = c.regions ∧ c'.entry = b := by
  unfold Cfg.setEntry at hs
  split at hs
  · next hlive =>
    cases hs
    exact ⟨⟨h.graph, hlive⟩, rfl, rfl, rfl⟩
  · cases hs

theorem enterAt_spec (h : Layout leaders instructions s) {entry : Option Nat} (hs : enterAt s entry = some c') :
    c'.WF ∧ c'.graph = s.cfg.graph ∧ c'.regions = [] ∧
      c'.entry = blockOf leaders (entry.getD 0) := by
  unfold enterAt at hs
  split at hs
  · cases hs
    exact ⟨h.wf, rfl, h.regions, h.entry⟩
  · next position =>
    obtain ⟨b, hb, hs⟩ := Option.bind_eq_some_iff.mp hs
    obtain ⟨hwf, hgraph, hregions, hentry⟩ := setEntry_spec h.wf hs
    refine ⟨hwf, hgraph, hregions.trans h.regions, hentry.trans ?_⟩
    rw [h.blocks, getElem?_map, Option.map_eq_some_iff] at hb
    obtain ⟨p, hp, rfl⟩ := hb
    obtain ⟨_, hp⟩ := List.getElem?_eq_some_iff.mp hp
    rw [getElem_range] at hp
    rw [Option.getD_some, hp]

theorem Layout.laid (h : Layout leaders instructions s) (hinspects : Inspects I instructions inspected) (hwf : c'.WF)
    (hgraph : c'.graph = s.cfg.graph) (policy : CallPolicy) (edgePayload : AddressEdgeInfo A K → π) :
    Laid I instructions inspected leaders
      ⟨inspected.addresses, s.blocksByInstruction, policy, edgePayload⟩ c' where
  inspects := hinspects
  addresses := rfl
  blocks := h.blocks
  wf := hwf
  code p hp := by
    have hblock : c'.block (blockOf leaders p) = s.cfg.block (blockOf leaders p) := by
      unfold Cfg.block
      rw [hgraph]
    rw [hblock]
    refine h.code _ ?_
    rw [h.bound]
    have := blockOf_le leaders (show p ≤ instructions.length - 1 by omega)
    omega

theorem Layout.instructions_eq (h : Layout leaders instructions s)
    (hblock : ∀ b, c'.block b = s.cfg.block b) (b : Nat) :
    c'.instructions b = codeOf leaders instructions b := by
  by_cases hb : b < s.cfg.blockBound
  · exact Cfg.instructions_eq ((hblock b).trans (h.code b hb))
  · have hnone : c'.block b = none := by
      rw [hblock]
      cases hlive : s.cfg.block b with
      | none => rfl
      | some block =>
        refine absurd (Cfg.block_lt ?_) hb
        unfold Cfg.containsBlock
        rw [hlive]
        rfl
    have hempty : positionsIn leaders instructions.length b = [] := by
      refine positionsIn_eq_nil fun p hp => ?_
      have := blockOf_le leaders (show p ≤ instructions.length - 1 by omega)
      rw [h.bound] at hb
      omega
    unfold codeOf
    rw [hempty]
    simp [Cfg.instructions, Cfg.flow, hnone]

theorem codeOf_singleton (hx : instructions[p]? = some x)
    (hlead : IsLeader leaders p) (hp : Terminal leaders instructions.length p) :
    codeOf leaders instructions (blockOf leaders p) = [x] := by
  have hlt := (List.getElem?_eq_some_iff.mp hx).1
  have hhead := head_positionsIn hlt (Or.inr hlead)
  rw [head?_eq_getElem?] at hhead
  have hlength := last_positionsIn hhead (not_mem_of_terminal hp)
  rw [← length_codeOf] at hlength
  obtain ⟨y, hy⟩ := length_eq_one_iff.mp hlength.symm
  have hfirst : (codeOf leaders instructions (blockOf leaders p)).head? = some x :=
    head_codeOf hx (Or.inr hlead)
  rw [hy] at hfirst ⊢
  cases hfirst
  rfl

theorem mem_codeOf : x ∈ codeOf leaders instructions b ↔
    ∃ p : Nat, instructions[p]? = some x ∧ b = blockOf leaders p := by
  constructor
  · intro hx
    obtain ⟨i, hi⟩ := getElem?_of_mem hx
    obtain ⟨p, hp, hx⟩ := getElem?_codeOf.mp hi
    exact ⟨p, hx, (mem_positionsIn.mp (mem_of_getElem? hp)).2.symm⟩
  · intro ⟨p, hx, hb⟩
    obtain ⟨i, _, hi⟩ := exists_getElem?_codeOf leaders hx
    rw [hb]
    exact mem_of_getElem? hi

omit [AddressSpace A] in
theorem orPanics_eq_ok {α : Type} {o : Option α} {a : α}
    (h : (orPanics o : Except (Rejected A) α) = .ok a) : o = some a := by
  cases o with
  | none => cases h
  | some b =>
    cases h
    rfl

theorem Validated.covered (h : Validated inspected before handlers handlerIndex leaders)
    (hinspects : Inspects I instructions inspected) (hx : instructions[p]? = some x) (hhandler : handler ∈ handlers)
    (hstart : handler.start ≤ I.address x) (hstop : I.address x < handler.stop) :
    IsLeader leaders p ∧ Terminal leaders instructions.length p := by
  obtain ⟨i, hi⟩ := getElem?_of_mem hhandler
  obtain ⟨first, last, _, hpositions, hlast, hleads⟩ := h.range i handler hi
  obtain ⟨_, _, hbound, hin⟩ := rangePositions_spec hinspects hpositions
  obtain ⟨hfirst, hlt⟩ := (hin p x hx).mpr ⟨hstart, hstop⟩
  have hlength := hinspects.length_addresses
  refine ⟨hleads p hfirst hlt, ?_⟩
  by_cases hnext : p + 1 < last
  · exact Or.inr (hleads (p + 1) (by omega) hnext)
  · by_cases hend : last < instructions.length
    · have heq : p + 1 = last := by omega
      exact Or.inr (heq ▸ hlast (by omega))
    · exact Or.inl (by omega)

theorem Validated.entries (h : Validated inspected before handlers handlerIndex leaders)
    (hinspects : Inspects I instructions inspected) {q : Nat} {y : ι}
    (hy : instructions[q]? = some y) (hhandler : handler ∈ handlers)
    (hentry : handler.entry = I.address y) : IsLeader leaders q := by
  obtain ⟨i, hi⟩ := getElem?_of_mem hhandler
  obtain ⟨entry, _, hat, hlead⟩ := h.entry i handler hi
  obtain ⟨z, hz, hzEntry⟩ := hinspects.exists_instruction hat
  have hq : q = entry := hinspects.position_eq hy hz (hentry.symm.trans hzEntry.symm)
  exact hq ▸ hlead

theorem foldlM_addHandlerEdges {x : EmitContext A K π} {c₀ c₁ c₂ : Cfg ι π}
    (h : Laid I instructions inspected leaders x c₀) (hwf : c₁.WF) (hblock : ∀ b, c₁.block b = c₀.block b)
    (hindex : Validated inspected before handlers handlerIndex leaders)
    (hs : handlers.zipIdx.foldlM (addHandlerEdges I x handlerIndex) c₁ = some c₂) :
    Grown c₁ (fun r => ∃ (index : Nat) (handler : AddressHandler A) (p : Nat) (source : ι),
      handlers[index]? = some handler ∧ instructions[p]? = some source ∧ handler.Protects I source ∧
        Unwinds I instructions leaders x.edgePayload index handler p r) c₂ := by
  have hfold := foldlM_grown (N := fun (numbered : AddressHandler A × Nat) r =>
      ∃ p source, instructions[p]? = some source ∧ numbered.1.start ≤ I.address source ∧
        I.address source < numbered.1.stop ∧
        Unwinds I instructions leaders x.edgePayload numbered.2 numbered.1 p r) hwf
    (fun ⟨handler, index⟩ hmem d₁ d₂ hwf₁ hblock₁ hstep => addHandlerEdges_spec h hwf₁
      (fun b => (hblock₁ b).trans (hblock b)) hindex (mem_zipIdx_iff_getElem?.mp hmem) hstep) hs
  refine hfold.congr fun r => ?_
  constructor
  · intro ⟨⟨handler, index⟩, hmem, p, source, hsource, hstart, hstop, hr⟩
    exact ⟨index, handler, p, source, mem_zipIdx_iff_getElem?.mp hmem, hsource,
      ⟨hstart, hstop⟩, hr⟩
  · intro ⟨index, handler, p, source, hhandler, hsource, ⟨hstart, hstop⟩, hr⟩
    exact ⟨(handler, index), mem_zipIdx_iff_getElem?.mpr hhandler, p, source, hsource, hstart,
      hstop, hr⟩

/-- What the stages of an accepted build leave. -/
structure Stages (I : AddressInstruction ι A K) (instructions : List ι)
    (handlers : List (AddressHandler A)) (options : AddressCfgOptions A)
    (edgePayload : AddressEdgeInfo A K → π) (inspected : Inspected A K) (leaders : List Bool)
    (handlerIndex : HandlerIndex) (blocksByInstruction : List Nat) (drafts : List (Draft A))
    (c : Cfg ι π) (graph : AddressGraph ι π A) : Prop where
  constructed : Constructed I instructions handlers options.calls edgePayload inspected leaders c
  validated : ∃ before, Validated inspected before handlers handlerIndex leaders
  blocks : ∀ (p b : Nat), blocksByInstruction[p]? = some b ↔
    p < instructions.length ∧ b = blockOf leaders p
  regioned : Regioned handlers handlerIndex blocksByInstruction drafts c graph.cfg graph.handlerRefs
  entry : ∃ position : Option Nat, c.entry = blockOf leaders (position.getD 0) ∧
    ((options.entry = none ∧ position = none) ∨ ∃ (p : Nat) (x : ι), position = some p ∧
      instructions[p]? = some x ∧ options.entry = some (I.address x) ∧ (p = 0 ∨ IsLeader leaders p))
  unresolved : ∀ u, u ∈ graph.unresolvedTransfers ↔ ∃ (p : Nat) (source : ι),
    instructions[p]? = some source ∧ Terminal leaders instructions.length p ∧
      ∃ transfer ∈ machineTransfers I options.calls source,
        Lost I instructions (I.address source) transfer u

theorem buildAddressCfg_stages {graph : AddressGraph ι π A}
    (hs : buildAddressCfg I instructions handlers options edgePayload = .ok graph) :
    ∃ inspected leaders handlerIndex blocksByInstruction drafts c,
      Stages I instructions handlers options edgePayload inspected leaders handlerIndex
        blocksByInstruction drafts c graph := by
  obtain ⟨inspected, hinspect, hs⟩ := bind_eq_ok.mp hs
  obtain ⟨position, hposition, hs⟩ := bind_eq_ok.mp hs
  obtain ⟨⟨handlerIndex, leaders⟩, hvalidate, hs⟩ := bind_eq_ok.mp hs
  have hinspects := inspectInstructions_spec hinspect
  have hinitial : (initialLeaders instructions.length position).length =
      inspected.addresses.length := by
    rw [length_initialLeaders, hinspects.length_addresses]
  obtain ⟨hext, hbreaks, hflows⟩ := collectFlowLeaders_spec hinspects options.calls hinitial
  have hvalidated := validateHandlers_spec hinspects (hext.length.trans hinitial) hvalidate
  have hleading : Leading I instructions options.calls inspected leaders :=
    Leading.mono ⟨hext.length.trans (length_initialLeaders _ _), hbreaks, hflows⟩
      hvalidated.extends_leaders
  -- the graph
  have hassemble : assemble I instructions handlers options.calls edgePayload inspected position
      handlerIndex leaders = some graph := orPanics_eq_ok hs
  obtain ⟨s, hpopulate, hassemble⟩ := Option.bind_eq_some_iff.mp hassemble
  obtain ⟨c₀, henter, hassemble⟩ := Option.bind_eq_some_iff.mp hassemble
  obtain ⟨emitted, hemit, hassemble⟩ := Option.bind_eq_some_iff.mp hassemble
  obtain ⟨c, hhandlers, hassemble⟩ := Option.bind_eq_some_iff.mp hassemble
  obtain ⟨⟨final, refs⟩, hregions, hassemble⟩ := Option.bind_eq_some_iff.mp hassemble
  cases hassemble
  have hlayout := populateBlocks_spec hleading.length hpopulate
  obtain ⟨hwf, hgraph, hnone, hentry⟩ := enterAt_spec hlayout henter
  have hlaid := hlayout.laid hinspects hwf hgraph options.calls edgePayload
  have hemitted := foldlM_emit hlaid hlayout.terminators hemit
  have hgrown := foldlM_addHandlerEdges hlaid hemitted.cfg.wf hemitted.cfg.block hvalidated hhandlers
  have hblock : ∀ b, c.block b = s.cfg.block b := by
    intro b
    rw [hgrown.block, hemitted.cfg.block]
    unfold Cfg.block
    rw [hgraph]
  have hempty : ∀ r, ¬ c₀.HasEdge r := by
    intro r ⟨e, he⟩
    unfold Cfg.edge at he
    rw [hgraph] at he
    exact absurd ((hlayout.edges e).symm.trans he) (by simp)
  have hconstructed : Constructed I instructions handlers options.calls edgePayload inspected
      leaders c := by
    refine ⟨hinspects, hleading, ?_, ?_, hlayout.instructions_eq hblock, fun r => ?_⟩
    · exact fun p x handler hx hhandler hstart hstop =>
        hvalidated.covered hinspects hx hhandler hstart hstop
    · exact fun q y handler hy hhandler hentry => hvalidated.entries hinspects hy hhandler hentry
    rw [hgrown.edge, hemitted.cfg.edge, or_iff_right (hempty r)]
    constructor
    · intro hr
      rcases hr with ⟨p, x, hx, hp, transfer, htransfer, q, y, hy, htarget, hr⟩ |
        ⟨index, handler, p, x, hhandler, hx, hprotects, x', q, y, hx', hy, hretains, hentry, hr⟩
      · exact ⟨p, q, x, y, transfer.role, hx, hy, hp, .transfer htransfer htarget, hr⟩
      · rw [hx] at hx'
        cases hx'
        have hcovered := hvalidated.covered hinspects hx (mem_of_getElem? hhandler)
          hprotects.1 hprotects.2
        exact ⟨p, q, x, y, .unwind index, hx, hy, hcovered.2,
          .unwind hhandler hprotects.1 hprotects.2 hretains hentry, hr⟩
    · intro ⟨p, q, x, y, role, hx, hy, hp, hstep, hr⟩
      cases hstep with
      | transfer htransfer htarget =>
        exact Or.inl ⟨p, x, hx, hp, _, htransfer, q, y, hy, htarget, hr⟩
      | unwind hhandler hstart hstop hretains hentry =>
        exact Or.inr ⟨_, _, p, x, hhandler, hx, ⟨hstart, hstop⟩, x, q, y, hx, hy, hretains, hentry,
          hr⟩
  have hregionsNil : c.regions = [] :=
    hgrown.frame.regions.trans (hemitted.cfg.frame.regions.trans hnone)
  obtain ⟨drafts, hregioned⟩ := addRegions_spec hregionsNil hregions
  refine ⟨inspected, leaders, handlerIndex, s.blocksByInstruction, drafts, c, hconstructed,
    ⟨_, hvalidated⟩, fun p b => hlaid.blocks_eq, hregioned, ⟨position, ?_, ?_⟩, fun u => ?_⟩
  · exact hgrown.frame.entry.trans (hemitted.cfg.frame.entry.trans hentry)
  · rcases entryPosition_spec hinspects hposition with hnone | ⟨p, x, hp, hx, hentry⟩
    · exact Or.inl hnone
    · refine Or.inr ⟨p, x, hp, hx, hentry, Or.inr ?_⟩
      refine hvalidated.extends_leaders.mono _ (hext.mono _ ?_)
      rw [hp]
      refine isLeader_set ?_
      simpa using (List.getElem?_eq_some_iff.mp hx).1
  · refine (hemitted.unresolved u).trans (or_iff_right ?_)
    exact not_mem_nil

/-! ## The simulation -/

namespace Stages

variable {handlerIndex : HandlerIndex} {blocksByInstruction : List Nat} {drafts : List (Draft A)}
  {graph : AddressGraph ι π A}
  (h : Stages I instructions handlers options edgePayload inspected leaders handlerIndex
    blocksByInstruction drafts c graph)

include h

theorem instructions_eq : graph.cfg.instructions = c.instructions := by
  funext b
  refine Cfg.instructions_congr ?_
  unfold Cfg.block
  rw [h.regioned.graph]

theorem hasEdge_iff (r : Store.EdgeRecord (Edge π)) : graph.cfg.HasEdge r ↔ c.HasEdge r := by
  unfold Cfg.HasEdge Cfg.edge
  rw [h.regioned.graph]

theorem blocks_eq : Builder.blocks graph.cfg = Builder.blocks c := by
  unfold Builder.blocks
  rw [h.instructions_eq]
  congr 1
  funext a b
  simp only [h.hasEdge_iff]

theorem head_entry (x : ι) :
    (c.instructions c.entry).head? = some x ↔ Starts I instructions options.entry x := by
  obtain ⟨position, hentry, hcases⟩ := h.entry
  rw [h.constructed.code, hentry]
  rcases hcases with ⟨hnone, rfl⟩ | ⟨p, first, rfl, hfirst, hsome, hlead⟩
  · rw [hnone]
    change _ ↔ instructions.head? = some x
    cases hi : instructions with
    | nil => exact Iff.rfl
    | cons first rest =>
      have hfirst : instructions[0]? = some first := by rw [hi]; rfl
      have hhead : (codeOf leaders instructions (blockOf leaders 0)).head? = some first :=
        head_codeOf hfirst (Or.inl rfl)
      rw [hi] at hhead
      rw [Option.getD_none, hhead]
      rfl
  · rw [hsome, Option.getD_some, head_codeOf hfirst hlead]
    constructor
    · intro heq
      cases heq
      exact ⟨mem_of_getElem? hfirst, rfl⟩
    · intro ⟨hmem, hsame⟩
      obtain ⟨q, hq⟩ := getElem?_of_mem hmem
      have hqp : q = p := h.constructed.inspects.position_eq hq hfirst hsame
      rw [hqp, hfirst] at hq
      exact hq

theorem runs (run : List ι) : IsRun I instructions handlers options run ↔ ∃ path,
      (Builder.blocks graph.cfg).IsPath graph.cfg.entry path ∧
        run <+: (Builder.blocks graph.cfg).trace path := by
  rw [h.blocks_eq, h.regioned.entry, ← h.constructed.covers.run_iff c.entry run]
  refine and_congr_left' (forall₂_congr fun x _ => ?_)
  exact (h.head_entry x).symm

variable {handler : AddressHandler A} {transfer : Transfer A K}

theorem terminal_of_lost {p : Nat} (hx : instructions[p]? = some x)
    (hmem : transfer ∈ machineTransfers I options.calls x)
    (hlost : ∀ y ∈ instructions, transfer.target ≠ some (I.address y)) :
    Terminal leaders instructions.length p := by
  by_contra hp
  obtain ⟨hends, hnext⟩ := h.constructed.inside hx hp
  obtain ⟨y, hy, hyEnd⟩ := h.constructed.inspects.exists_instruction hnext
  rw [machineTransfers_eq hends, mem_singleton] at hmem
  rw [hmem] at hlost
  exact hlost y (mem_of_getElem? hy) (congrArg some hyEnd.symm)

theorem unresolved_iff (u : UnresolvedTransfer A) :
    u ∈ graph.unresolvedTransfers ↔ ∃ x ∈ instructions,
      ∃ transfer ∈ machineTransfers I options.calls x,
        Lost I instructions (I.address x) transfer u := by
  rw [h.unresolved]
  constructor
  · intro ⟨p, x, hx, _, hrest⟩
    exact ⟨x, mem_of_getElem? hx, hrest⟩
  · intro ⟨x, hmem, transfer, htransfer, hlost⟩
    obtain ⟨p, hx⟩ := getElem?_of_mem hmem
    exact ⟨p, x, hx, h.terminal_of_lost hx htransfer hlost.1, transfer, htransfer, hlost⟩

theorem reported (hx : x ∈ instructions) (hmem : transfer ∈ machineTransfers I options.calls x)
    (hlost : ∀ y ∈ instructions, transfer.target ≠ some (I.address y)) :
    (∃ u ∈ graph.unresolvedTransfers, u.source = I.address x ∧ u.target = transfer.target) ∨
      transfer.target = some (I.endOf x) := by
  cases hrole : transfer.unresolvedRole with
  | some role =>
    refine Or.inl ⟨⟨I.address x, transfer.target, role⟩, ?_, rfl, rfl⟩
    exact (h.unresolved_iff _).mpr ⟨x, hx, transfer, hmem, hlost, role, hrole, rfl⟩
  | none =>
    refine Or.inr ?_
    unfold machineTransfers at hmem
    split at hmem
    · rw [mem_singleton.mp hmem]
    · exact Flow.unresolvedRole_eq_none hmem hrole

/-! ## The handlers of a build -/

variable {i : Nat}

theorem ref_iff {ref : HandlerRef} (hi : graph.handlerRefs[i]? = some ref) :
    ∃ draft, drafts[ref.region]? = some draft ∧ draft.handlerIndices[ref.handler]? = some i := by
  have hlt := (List.getElem?_eq_some_iff.mp hi).1
  rw [h.regioned.lengthRefs] at hlt
  obtain ⟨index, draft, j, hdraft, hj⟩ := h.regioned.drafted.exists_draft hlt
  rw [h.regioned.refs index draft j i hdraft hj] at hi
  cases hi
  exact ⟨draft, hdraft, hj⟩

theorem references : graph.handlerRefs.length = handlers.length ∧
    (∀ (i j : Nat) (ref : HandlerRef), graph.handlerRefs[i]? = some ref →
      graph.handlerRefs[j]? = some ref → i = j) ∧
    ∀ (index k : Nat) (region : Region) (built : Handler), graph.cfg.regions[index]? = some region →
      region.handlers[k]? = some built → ∃ i : Nat, graph.handlerRefs[i]? = some ⟨index, k⟩ := by
  refine ⟨h.regioned.lengthRefs, fun i j ref hi hj => ?_, fun index k region built hregion hk => ?_⟩
  · obtain ⟨draft, hdraft, hi⟩ := h.ref_iff hi
    obtain ⟨draft', hdraft', hj⟩ := h.ref_iff hj
    rw [hdraft] at hdraft'
    cases hdraft'
    rw [hi] at hj
    exact Option.some.inj hj
  · have hlt := (List.getElem?_eq_some_iff.mp hregion).1
    rw [h.regioned.length] at hlt
    have hdraft := getElem?_eq_getElem hlt
    obtain ⟨region', hregion', hof⟩ := h.regioned.regions index _ hdraft
    rw [hregion] at hregion'
    cases hregion'
    have hkLt := (List.getElem?_eq_some_iff.mp hk).1
    rw [hof.length] at hkLt
    exact ⟨_, h.regioned.refs index _ k _ hdraft (getElem?_eq_getElem hkLt)⟩

theorem positions {draft : Draft A} (hdraft : draft ∈ drafts) :
    draft.start < draft.stop ∧ ∀ p, p ∈ positionsOf draft.positions ↔ ∃ x : ι,
      instructions[p]? = some x ∧ draft.start ≤ I.address x ∧ I.address x < draft.stop := by
  obtain ⟨before, hvalidated⟩ := h.validated
  obtain ⟨i, hi, hpositions⟩ := h.regioned.drafted.positions draft hdraft
  obtain ⟨handler, hhandler, hstart, hstop⟩ := h.regioned.drafted.ranges draft hdraft i hi
  obtain ⟨first, last, hrange, hok, _, _⟩ := hvalidated.range i handler hhandler
  rw [hpositions] at hrange
  have hrange := Option.some.inj hrange
  obtain ⟨hlt, _, hbound, hin⟩ := rangePositions_spec h.constructed.inspects hok
  rw [← hstart, ← hstop, hrange]
  refine ⟨hlt, fun p => ?_⟩
  unfold positionsOf
  rw [mem_range'_1]
  constructor
  · intro hp
    have hx := getElem?_eq_getElem (show p < instructions.length by omega)
    exact ⟨_, hx, (hin p _ hx).mp (by omega)⟩
  · intro ⟨x, hx, hrange⟩
    have := (hin p x hx).mpr hrange
    omega

theorem exists_draft (hi : handlers[i]? = some handler) :
    ∃ (index : Nat) (draft : Draft A) (j : Nat),
      drafts[index]? = some draft ∧ draft.handlerIndices[j]? = some i ∧
        draft.start = handler.start ∧ draft.stop = handler.stop := by
  obtain ⟨index, draft, j, hdraft, hj⟩ :=
    h.regioned.drafted.exists_draft (List.getElem?_eq_some_iff.mp hi).1
  obtain ⟨handler', hhandler', hstart, hstop⟩ := h.regioned.drafted.ranges draft
    (mem_of_getElem? hdraft) i (mem_of_getElem? hj)
  rw [hi] at hhandler'
  cases hhandler'
  exact ⟨index, draft, j, hdraft, hj, hstart.symm, hstop.symm⟩

theorem isHandlerOf [LawfulAddressSpace A] (hi : handlers[i]? = some handler) :
    ∃ ref region, graph.handlerRefs[i]? = some ref ∧
      IsHandlerOf I handlers graph handler ref region := by
  obtain ⟨before, hvalidated⟩ := h.validated
  obtain ⟨index, draft, j, hdraft, hj, hstart, hstop⟩ := h.exists_draft hi
  obtain ⟨region, hregion, hof⟩ := h.regioned.regions index draft hdraft
  obtain ⟨hlt, hpositions⟩ := h.positions (mem_of_getElem? hdraft)
  have hinspects := h.constructed.inspects
  have hprotects : ∀ b, b ∈ region.protectedBlocks ↔
      ∃ (p : Nat) (x : ι), instructions[p]? = some x ∧ handler.Protects I x ∧
        b = blockOf leaders p := by
    intro b
    rw [hof.protects]
    unfold AddressHandler.Protects
    rw [← hstart, ← hstop]
    constructor
    · intro ⟨p, hp, hb⟩
      obtain ⟨x, hx, hrange⟩ := (hpositions p).mp hp
      exact ⟨p, x, hx, hrange, ((h.blocks p b).mp hb).2⟩
    · intro ⟨p, x, hx, hrange, hb⟩
      exact ⟨p, (hpositions p).mpr ⟨x, hx, hrange⟩,
        (h.blocks p b).mpr ⟨(List.getElem?_eq_some_iff.mp hx).1, hb⟩⟩
  -- ranges of drafts and of table entries enclose one another alike
  have hencloses : ∀ {outer : AddressHandler A} {outerDraft : Draft A},
      outerDraft.start = outer.start → outerDraft.stop = outer.stop →
      (Encloses outer handler ↔ strictlyContains outerDraft draft = true) := by
    intro outer outerDraft houterStart houterStop
    rw [strictlyContains_iff, houterStart, houterStop, hstart, hstop]
    exact Iff.rfl
  refine ⟨⟨index, j⟩, region, h.regioned.refs index draft j i hdraft hj, hregion, hof.id, ?_, ?_, ?_,
    ?_, ?_⟩
  · obtain ⟨built, hbuilt, hregionHandler⟩ := hof.handlers j i hj
    obtain ⟨handler', hhandler', hregionHandler⟩ := Option.bind_eq_some_iff.mp hregionHandler
    rw [hi] at hhandler'
    cases hhandler'
    obtain ⟨entry, hentry, hregionHandler⟩ := Option.bind_eq_some_iff.mp hregionHandler
    obtain ⟨entry', hentry', hat, hlead⟩ := hvalidated.entry i handler hi
    rw [hentry] at hentry'
    cases hentry'
    obtain ⟨b, hb, hregionHandler⟩ := Option.bind_eq_some_iff.mp hregionHandler
    cases hregionHandler
    obtain ⟨y, hy, hyEntry⟩ := hinspects.exists_instruction hat
    obtain ⟨_, rfl⟩ := (h.blocks entry b).mp hb
    refine ⟨_, y, hbuilt, rfl, ?_, hyEntry⟩
    rw [h.instructions_eq, h.constructed.code]
    exact head_codeOf hy (Or.inr hlead)
  · intro b
    rw [hprotects, h.instructions_eq, h.constructed.code]
    simp only [mem_codeOf]
    constructor
    · intro ⟨p, x, hx, hrange, hb⟩
      exact ⟨x, ⟨p, hx, hb⟩, hrange⟩
    · intro ⟨x, ⟨p, hx, hb⟩, hrange⟩
      exact ⟨p, x, hx, hrange, hb⟩
  · intro b hb x hx
    obtain ⟨p, x', hx', hrange, rfl⟩ := (hprotects b).mp hb
    have hcovered := h.constructed.covered p x' handler hx' (mem_of_getElem? hi) hrange.1
      hrange.2
    rw [h.instructions_eq, h.constructed.code, codeOf_singleton hx' hcovered.1 hcovered.2,
      mem_singleton] at hx
    rw [hx]
    exact hrange
  · intro hparent outer houter hout
    rw [hof.parent] at hparent
    obtain ⟨i', hi'⟩ := getElem?_of_mem houter
    obtain ⟨index', outerDraft, _, houterDraft, _, houterStart, houterStop⟩ := h.exists_draft hi'
    have hcontains := (hencloses houterStart houterStop).mp hout
    have hbefore := lt_of_strictlyContains h.regioned.sorted hdraft hlt houterDraft hcontains
    rw [parentOf_none hparent hbefore houterDraft] at hcontains
    cases hcontains
  · intro parent hparent
    rw [hof.parent] at hparent
    obtain ⟨_, outerDraft, houterDraft, hcontains, hleast⟩ := parentOf_some hparent
    -- the parent draft holds an entry of the table with its range
    obtain ⟨i', hi', _⟩ := h.regioned.drafted.positions outerDraft (mem_of_getElem? houterDraft)
    obtain ⟨k, hk⟩ := getElem?_of_mem hi'
    obtain ⟨outer, houter, houterStart, houterStop⟩ := h.regioned.drafted.ranges outerDraft
      (mem_of_getElem? houterDraft) i' hi'
    refine ⟨i', k, outer, houter, h.regioned.refs parent outerDraft k i' houterDraft hk,
      (hencloses houterStart.symm houterStop.symm).mpr hcontains, ?_⟩
    intro between hbetween hin hout
    obtain ⟨i'', hi''⟩ := getElem?_of_mem hbetween
    obtain ⟨index'', betweenDraft, _, hbetweenDraft, _, hbetweenStart, hbetweenStop⟩ :=
      h.exists_draft hi''
    have hcontains' := (hencloses hbetweenStart hbetweenStop).mp hin
    have hbefore := lt_of_strictlyContains h.regioned.sorted hdraft hlt hbetweenDraft hcontains'
    have hle := hleast index'' betweenDraft hbefore hbetweenDraft hcontains'
    -- but a range strictly inside the parent is shorter
    have hshorter : betweenDraft.span < outerDraft.span := by
      refine span_lt (h.positions (mem_of_getElem? hbetweenDraft)).1 ?_
      rw [strictlyContains_iff, hbetweenStart, hbetweenStop, ← houterStart, ← houterStop]
      exact hout
    omega

end Stages

theorem buildAddressCfg_simulates [LawfulAddressSpace A] {graph : AddressGraph ι π A}
    (hs : buildAddressCfg I instructions handlers options edgePayload = .ok graph) :
    Simulates I instructions handlers options edgePayload graph := by
  obtain ⟨inspected, leaders, handlerIndex, blocksByInstruction, drafts, c, h⟩ :=
    buildAddressCfg_stages hs
  refine ⟨h.runs, fun r hr => ?_, fun b i x hx hi => ?_, h.unresolved_iff,
    fun x hx transfer hmem hlost => h.reported hx hmem hlost, h.references,
    fun i handler hi => h.isHandlerOf hi⟩
  · rw [h.instructions_eq]
    exact h.constructed.edge_ends ((h.hasEdge_iff r).mp hr)
  · rw [h.instructions_eq] at hx hi
    exact h.constructed.endsBlock_eq_false hx hi

/-! ## A listing with an overlap -/

structure Line where
  address : Nat
  size : Nat
  flow : Flow Nat Nat
  throws : Bool

def listing : AddressInstruction Line Nat Nat where
  address line := line.address
  endAddress line := some (line.address + line.size)
  flow line := line.flow
  retainsExceptionEdge line := line.throws

/-- The second line lies inside the first, which continues behind both. -/
def overlapping : List Line :=
  [⟨0, 3, .next, true⟩, ⟨1, 2, .conditional 9, false⟩, ⟨3, 1, .call 0, true⟩, ⟨4, 1, .return, false⟩]

def overlappingHandlers : List (AddressHandler Nat) :=
  [⟨3, 4, 4, .catchAll⟩, ⟨0, 4, 4, .fault⟩, ⟨3, 4, 1, .finally⟩]

theorem buildAddressCfg_simulates_overlapping : ∃ graph : AddressGraph Line Unit Nat,
    buildAddressCfg listing overlapping overlappingHandlers ⟨some 1, .edges⟩ (fun _ => ()) =
      .ok graph ∧
    Simulates listing overlapping overlappingHandlers ⟨some 1, .edges⟩ (fun _ => ()) graph := by
  have hok : (buildAddressCfg listing overlapping overlappingHandlers ⟨some 1, .edges⟩
      (fun _ => ())).isOk = true := rfl
  cases hs : buildAddressCfg listing overlapping overlappingHandlers ⟨some 1, .edges⟩
      (fun _ => ()) with
  | error error =>
    rw [hs] at hok
    cases hok
  | ok graph => exact ⟨graph, rfl, buildAddressCfg_simulates hs⟩

end CfgLib.Builder
