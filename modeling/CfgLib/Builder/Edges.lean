import CfgLib.Builder.Layout
import CfgLib.Transform.SplitCover

/-!
# The edges

`builder/address/edges.rs`: every edge of the built graph is a transition of the
address machine out of the last instruction of a block, and every such transition
is an edge.
-/

namespace CfgLib.Builder

open CfgLib.Lib CfgLib.Cfg List

variable {ι A K π : Type}

/-! ## The machine -/

/-- The transfers the machine makes at an instruction: those of its flow, or only the
continuation for a flattened call. -/
def machineTransfers (I : AddressInstruction ι A K) (policy : CallPolicy) (x : ι) :
    List (Transfer A K) :=
  if policy = .flatten ∧ (I.flow x).isCall = true then [⟨some (I.endOf x), .sequential⟩]
  else (I.flow x).transfers (I.address x) (some (I.endOf x))

/-- One step of the machine, and why it is made. -/
inductive Transition [LE A] [LT A] (I : AddressInstruction ι A K)
    (handlers : List (AddressHandler A)) (policy : CallPolicy) (x y : ι) : EdgeRole A K → Prop where
  | transfer {transfer : Transfer A K} (h : transfer ∈ machineTransfers I policy x)
    (target : transfer.target = some (I.address y)) :
    Transition I handlers policy x y transfer.role
  | unwind {index : Nat} {handler : AddressHandler A} (h : handlers[index]? = some handler)
    (start : handler.start ≤ I.address x) (stop : I.address x < handler.stop)
    (retains : I.retainsExceptionEdge x = true) (entry : handler.entry = I.address y) :
    Transition I handlers policy x y (.unwind index)

/-- The block ends behind a position. -/
def Terminal (leaders : List Bool) (n p : Nat) : Prop := p + 1 = n ∨ IsLeader leaders (p + 1)

variable {p : Nat} {x : ι}

variable {I : AddressInstruction ι A K} {policy : CallPolicy} {c c' : Cfg ι π} {α : Type} {l : List α}

theorem machineTransfers_eq (h : endsBlock (I.flow x) policy = false) :
    machineTransfers I policy x = [⟨some (I.endOf x), .sequential⟩] := by
  unfold machineTransfers
  split
  · rfl
  · next hcall =>
    cases hflow : I.flow x with
    | next => rfl
    | call target =>
      rw [hflow] at h hcall
      cases policy with
      | edges => cases h
      | flatten => exact absurd ⟨rfl, rfl⟩ hcall
    | indirectCall =>
      rw [hflow] at h hcall
      cases policy with
      | edges => cases h
      | flatten => exact absurd ⟨rfl, rfl⟩ hcall
    | _ =>
      rw [hflow] at h
      cases policy <;> cases h

theorem machineTransfers_of_endsBlock (h : endsBlock (I.flow x) policy = true) :
    machineTransfers I policy x = (I.flow x).transfers (I.address x) (some (I.endOf x)) := by
  unfold machineTransfers
  rw [if_neg]
  intro ⟨hpolicy, hcall⟩
  unfold endsBlock at h
  rw [hpolicy, hcall] at h
  simp at h

variable [AddressSpace A] {I : AddressInstruction ι A K} {instructions : List ι}
  {inspected : Inspected A K} {leaders : List Bool}

theorem blockTransfers_eq (h : Inspects I instructions inspected)
    (hx : instructions[p]? = some x) (policy : CallPolicy) :
    blockTransfers policy (I.address x) (I.endOf x) (flowAt inspected.transfers p) =
      machineTransfers I policy x := by
  unfold blockTransfers
  rw [h.flowAt_eq hx]
  cases hends : endsBlock (I.flow x) policy with
  | false =>
    rw [machineTransfers_eq hends]
    split
    · next => rfl
    · next flow hflow =>
      obtain ⟨hsome, hflow⟩ := Option.filter_eq_some_iff.mp hflow
      split at hsome
      · cases hsome
        rw [hends] at hflow
        cases hflow
      · cases hsome
  | true =>
    have hblock : (I.flow x).endsBlock = true := by
      unfold endsBlock at hends
      exact (Bool.and_eq_true_iff.mp hends).1
    rw [machineTransfers_of_endsBlock hends, if_pos hblock, Option.filter_some, if_pos hends]

/-! ## The code of a block -/

def codeOf (leaders : List Bool) (instructions : List ι) (b : Nat) : List ι :=
  (positionsIn leaders instructions.length b).filterMap fun p => instructions[p]?

theorem filterMap_isSome {β : Type} {f : α → Option β} (h : ∀ a ∈ l, (f a).isSome = true) :
    (l.filterMap f).length = l.length ∧ ∀ i : Nat, (l.filterMap f)[i]? = l[i]?.bind f := by
  induction l with
  | nil => exact ⟨rfl, fun i => rfl⟩
  | cons a l ih =>
    obtain ⟨hlength, hget⟩ := ih fun a' ha' => h a' (mem_cons_of_mem _ ha')
    obtain ⟨b, hb⟩ := Option.isSome_iff_exists.mp (h a mem_cons_self)
    rw [filterMap_cons_some hb]
    refine ⟨by rw [length_cons, length_cons, hlength], fun i => ?_⟩
    cases i with
    | zero => simp [hb]
    | succ i => simp [hget]

omit [AddressSpace A] in
theorem isSome_positionsIn (b : Nat) :
    ∀ p ∈ positionsIn leaders instructions.length b, (instructions[p]?).isSome = true := by
  intro p hp
  rw [getElem?_eq_getElem (mem_positionsIn.mp hp).1]
  rfl

theorem length_codeOf (b : Nat) :
    (codeOf leaders instructions b).length = (positionsIn leaders instructions.length b).length :=
  (filterMap_isSome (isSome_positionsIn b)).1

theorem getElem?_codeOf {b i : Nat} : (codeOf leaders instructions b)[i]? = some x ↔
      ∃ p, (positionsIn leaders instructions.length b)[i]? = some p ∧ instructions[p]? = some x := by
  unfold codeOf
  rw [(filterMap_isSome (isSome_positionsIn b)).2, Option.bind_eq_some_iff]

variable (leaders) in
theorem exists_getElem?_codeOf (hx : instructions[p]? = some x) :
    ∃ i : Nat, (positionsIn leaders instructions.length (blockOf leaders p))[i]? = some p ∧
      (codeOf leaders instructions (blockOf leaders p))[i]? = some x := by
  have hmem : p ∈ positionsIn leaders instructions.length (blockOf leaders p) :=
    mem_positionsIn.mpr ⟨(List.getElem?_eq_some_iff.mp hx).1, rfl⟩
  obtain ⟨i, hi⟩ := getElem?_of_mem hmem
  exact ⟨i, hi, getElem?_codeOf.mpr ⟨p, hi, hx⟩⟩

theorem head_codeOf (hx : instructions[p]? = some x) (hlead : p = 0 ∨ IsLeader leaders p) :
    (codeOf leaders instructions (blockOf leaders p)).head? = some x := by
  have hhead := head_positionsIn (n := instructions.length)
    (List.getElem?_eq_some_iff.mp hx).1 hlead
  rw [head?_eq_getElem?] at hhead ⊢
  exact getElem?_codeOf.mpr ⟨p, hhead, hx⟩

theorem not_mem_of_terminal (h : Terminal leaders instructions.length p) :
    p + 1 ∉ positionsIn leaders instructions.length (blockOf leaders p) := by
  intro hmem
  obtain ⟨hlt, hblock⟩ := mem_positionsIn.mp hmem
  rcases h with h | h
  · omega
  · rw [blockOf_succ_ne h] at hblock
    omega

theorem last_codeOf (hx : instructions[p]? = some x) (h : Terminal leaders instructions.length p) :
    (codeOf leaders instructions (blockOf leaders p)).getLast? = some x := by
  obtain ⟨i, hi, hcode⟩ := exists_getElem?_codeOf leaders hx
  have hlast := last_positionsIn hi (not_mem_of_terminal h)
  rw [getLast?_eq_getElem?, length_codeOf, ← hlast, Nat.add_sub_cancel]
  exact hcode

/-! ## Emitting -/

/-- What a stretch of emission adds to the graph and to the report. -/
structure Emitted (s : Emitting ι π A) (new : Store.EdgeRecord (Edge π) → Prop)
    (lost : UnresolvedTransfer A → Prop) (s' : Emitting ι π A) : Prop where
  cfg : Grown s.cfg new s'.cfg
  unresolved : ∀ u, u ∈ s'.unresolved ↔ u ∈ s.unresolved ∨ lost u

section Emitted

variable {s s' : Emitting ι π A}

omit [AddressSpace A] in
theorem Emitted.refl (h : s.cfg.WF) : Emitted s (fun _ => False) (fun _ => False) s :=
  ⟨.refl h, fun _ => (or_iff_left id).symm⟩

omit [AddressSpace A] in
theorem Emitted.trans {s₁ : Emitting ι π A} {new new' : Store.EdgeRecord (Edge π) → Prop}
    {lost lost' : UnresolvedTransfer A → Prop} (h : Emitted s new lost s₁)
    (h' : Emitted s₁ new' lost' s') :
    Emitted s (fun r => new r ∨ new' r) (fun u => lost u ∨ lost' u) s' :=
  ⟨h.cfg.trans h'.cfg, fun u => (h'.unresolved u).trans ((or_congr_left (h.unresolved u)).trans
    or_assoc)⟩

omit [AddressSpace A] in
theorem Emitted.congr {new new' : Store.EdgeRecord (Edge π) → Prop}
    {lost lost' : UnresolvedTransfer A → Prop} (h : Emitted s new lost s')
    (hnew : ∀ r, new r ↔ new' r) (hlost : ∀ u, lost u ↔ lost' u) : Emitted s new' lost' s' :=
  ⟨h.cfg.congr hnew, fun u => (h.unresolved u).trans (or_congr_right (hlost u))⟩

omit [AddressSpace A] in
theorem foldlM_emitted {α : Type} {step : Emitting ι π A → α → Option (Emitting ι π A)}
    {N : α → Store.EdgeRecord (Edge π) → Prop} {L : α → UnresolvedTransfer A → Prop}
    {l : List α} (hwf : s.cfg.WF)
    (hstep : ∀ a ∈ l, ∀ s₁ s₂, s₁.cfg.WF → (∀ b, s₁.cfg.block b = s.cfg.block b) →
      step s₁ a = some s₂ → Emitted s₁ (N a) (L a) s₂) (hs : l.foldlM step s = some s') :
    Emitted s (fun r => ∃ a ∈ l, N a r) (fun u => ∃ a ∈ l, L a u) s' := by
  induction l generalizing s with
  | nil =>
    cases hs
    exact (Emitted.refl hwf).congr (fun r => by simp) (fun u => by simp)
  | cons a l ih =>
    rw [foldlM_cons] at hs
    obtain ⟨mid, hmid, hs⟩ := Option.bind_eq_some_iff.mp hs
    have hone := hstep a mem_cons_self s mid hwf (fun _ => rfl) hmid
    have hrest := ih hone.cfg.wf (fun a' ha' s₁ s₂ hwf₁ hblock => hstep a'
      (mem_cons_of_mem _ ha') s₁ s₂ hwf₁ fun b => (hblock b).trans (hone.cfg.block b)) hs
    exact (hone.trans hrest).congr (fun r => by simp) (fun u => by simp)

end Emitted

theorem foldlM_grown {step : Cfg ι π → α → Option (Cfg ι π)} {N : α → Store.EdgeRecord (Edge π) → Prop} (hwf : c.WF)
    (hstep : ∀ a ∈ l, ∀ c₁ c₂, c₁.WF → (∀ b, c₁.block b = c.block b) → step c₁ a = some c₂ → Grown c₁ (N a) c₂)
    (hs : l.foldlM step c = some c') : Grown c (fun r => ∃ a ∈ l, N a r) c' := by
  induction l generalizing c with
  | nil =>
    cases hs
    exact (Grown.refl hwf).congr fun r => by simp
  | cons a l ih =>
    rw [foldlM_cons] at hs
    obtain ⟨mid, hmid, hs⟩ := Option.bind_eq_some_iff.mp hs
    have hone := hstep a mem_cons_self c mid hwf (fun _ => rfl) hmid
    have hrest := ih hone.wf (fun a' ha' c₁ c₂ hwf₁ hblock => hstep a'
      (mem_cons_of_mem _ ha') c₁ c₂ hwf₁ fun b => (hblock b).trans (hone.block b)) hs
    exact (hone.trans hrest).congr fun r => by simp

theorem grown_addEdge (hwf : c.WF) {source target e : Nat} {kind : EdgeKind}
    {payload : π} (hs : c.addEdgeWithPayload source target kind payload = some (e, c')) :
    Grown c (fun r => r = ⟨source, target, ⟨kind, none, payload⟩⟩) c' := by
  obtain ⟨hwf', hframe, hblock, hbound, hedge⟩ := addWeightedEdge_spec hwf hs
  exact ⟨hwf', hframe, hblock, hbound, hedge⟩

/-- What the builder emits its edges over. -/
structure Laid (I : AddressInstruction ι A K) (instructions : List ι) (inspected : Inspected A K)
    (leaders : List Bool) (x : EmitContext A K π) (c : Cfg ι π) : Prop where
  inspects : Inspects I instructions inspected
  addresses : x.addresses = inspected.addresses
  blocks : x.blocksByInstruction = (List.range instructions.length).map (blockOf leaders)
  wf : c.WF
  code : ∀ p < instructions.length, c.block (blockOf leaders p) =
    some ⟨codeOf leaders instructions (blockOf leaders p), none⟩

/-- The edge between the blocks of two positions. -/
def edgeRecord (leaders : List Bool) (edgePayload : AddressEdgeInfo A K → π) (p q : Nat)
    (source target : A) (role : EdgeRole A K) : Store.EdgeRecord (Edge π) :=
  ⟨blockOf leaders p, blockOf leaders q,
    ⟨role.kind, none, edgePayload ⟨source, target, role.kind, role⟩⟩⟩

def Arrives (I : AddressInstruction ι A K) (instructions : List ι) (leaders : List Bool)
    (edgePayload : AddressEdgeInfo A K → π) (p : Nat) (source : A) (transfer : Transfer A K)
    (r : Store.EdgeRecord (Edge π)) : Prop :=
  ∃ q y, instructions[q]? = some y ∧ transfer.target = some (I.address y) ∧
    r = edgeRecord leaders edgePayload p q source (I.address y) transfer.role

def Lost (I : AddressInstruction ι A K) (instructions : List ι) (source : A)
    (transfer : Transfer A K) (u : UnresolvedTransfer A) : Prop :=
  (∀ y ∈ instructions, transfer.target ≠ some (I.address y)) ∧
    ∃ role, transfer.unresolvedRole = some role ∧ u = ⟨source, transfer.target, role⟩

omit [AddressSpace A] in
theorem report_spec {s : Emitting ι π A} (hwf : s.cfg.WF) (source : A) (transfer : Transfer A K) :
    Emitted s (fun _ => False)
      (fun u => ∃ role, transfer.unresolvedRole = some role ∧ u = ⟨source, transfer.target, role⟩)
      (report s source transfer) := by
  unfold report
  split
  · next hrole =>
    exact (Emitted.refl hwf).congr (fun _ => Iff.rfl) fun u => by simp [hrole]
  · next role hrole =>
    refine ⟨.refl hwf, fun u => ?_⟩
    rw [mem_append, mem_singleton]
    simp [hrole]

section Laid

variable {x : EmitContext A K π} {c : Cfg ι π}

variable {s' : Emitting ι π A} {p : Nat}

section

variable (h : Laid I instructions inspected leaders x c)
include h

theorem Laid.blocks_eq {b : Nat} :
    x.blocksByInstruction[p]? = some b ↔ p < instructions.length ∧ b = blockOf leaders p := by
  rw [h.blocks, getElem?_map, Option.map_eq_some_iff]
  constructor
  · intro ⟨q, hq, hb⟩
    obtain ⟨hlt, hq⟩ := List.getElem?_eq_some_iff.mp hq
    rw [getElem_range] at hq
    rw [length_range] at hlt
    exact ⟨hlt, by rw [hq, hb]⟩
  · intro ⟨hlt, hb⟩
    exact ⟨p, getElem?_range hlt, hb.symm⟩

theorem Laid.not_mem {target : A}
    (hs : binarySearch x.addresses target = none) : ∀ y ∈ instructions, I.address y ≠ target := by
  intro y hy heq
  obtain ⟨q, hq⟩ := getElem?_of_mem hy
  rw [h.addresses] at hs
  exact h.inspects.binarySearch_none hs q (heq ▸ h.inspects.address_eq hq)

variable {s : Emitting ι π A}

theorem addTransfer_spec (hwf : s.cfg.WF) {source : A} {transfer : Transfer A K}
    (hs : addTransfer x (blockOf leaders p) source s transfer = some s') :
    Emitted s (Arrives I instructions leaders x.edgePayload p source transfer)
      (Lost I instructions source transfer) s' := by
  unfold addTransfer at hs
  split at hs
  · next htarget =>
    cases hs
    refine (report_spec hwf source transfer).congr (fun r => ?_) (fun u => ?_)
    · refine ⟨False.elim, ?_⟩
      intro ⟨q, y, _, hy, _⟩
      rw [htarget] at hy
      cases hy
    · refine (and_iff_right ?_).symm
      intro y _ hy
      rw [htarget] at hy
      cases hy
  · next target htarget =>
    split at hs
    · next hsearch =>
      cases hs
      have hnone := h.not_mem hsearch
      refine (report_spec hwf source transfer).congr (fun r => ?_) (fun u => ?_)
      · refine ⟨False.elim, ?_⟩
        intro ⟨q, y, hq, hy, _⟩
        rw [htarget] at hy
        cases hy
        exact hnone y (mem_of_getElem? hq) rfl
      · refine (and_iff_right ?_).symm
        intro y hmem hy
        rw [htarget] at hy
        cases hy
        exact hnone y hmem rfl
    · next q hsearch =>
      rw [h.addresses, h.inspects.binarySearch_iff] at hsearch
      obtain ⟨y, hy, rfl⟩ := h.inspects.exists_instruction hsearch
      obtain ⟨b, hb, hs⟩ := Option.bind_eq_some_iff.mp hs
      obtain ⟨_, rfl⟩ := h.blocks_eq.mp hb
      obtain ⟨⟨e, c'⟩, hadd, hs⟩ := Option.bind_eq_some_iff.mp hs
      cases hs
      refine ⟨(grown_addEdge hwf hadd).congr fun r => ?_, fun u => ?_⟩
      · constructor
        · intro hr
          exact ⟨q, y, hy, htarget, hr⟩
        · intro ⟨q', y', hy', htarget', hr⟩
          rw [htarget] at htarget'
          have hsame := Option.some.inj htarget'
          have hq : q' = q := h.inspects.position_eq hy' hy hsame.symm
          rw [hr, ← hsame, hq]
          rfl
      · refine (or_iff_left ?_).symm
        intro ⟨hlost, _⟩
        exact hlost y (mem_of_getElem? hy) htarget

theorem emit_spec (hwf : s.cfg.WF) (hblock : ∀ b, s.cfg.block b = c.block b) {source : ι}
    (hsource : instructions[p]? = some source) (hp : Terminal leaders instructions.length p)
    (hs : emit I x inspected.transfers s (blockOf leaders p, p) = some s') : Emitted s
      (fun r => ∃ transfer ∈ machineTransfers I x.policy source,
        Arrives I instructions leaders x.edgePayload p (I.address source) transfer r)
      (fun u => ∃ transfer ∈ machineTransfers I x.policy source,
        Lost I instructions (I.address source) transfer u) s' := by
  obtain ⟨address, haddress, hs⟩ := Option.bind_eq_some_iff.mp hs
  rw [h.addresses, h.inspects.address_eq hsource] at haddress
  cases haddress
  obtain ⟨block, hb, hs⟩ := Option.bind_eq_some_iff.mp hs
  rw [hblock, h.code p (List.getElem?_eq_some_iff.mp hsource).1] at hb
  cases hb
  obtain ⟨last, hlast, hs⟩ := Option.bind_eq_some_iff.mp hs
  rw [last_codeOf hsource hp] at hlast
  cases hlast
  rw [blockTransfers_eq h.inspects hsource] at hs
  exact foldlM_emitted hwf (fun transfer _ s₁ s₂ hwf₁ _ hstep => addTransfer_spec h hwf₁ hstep) hs

theorem foldlM_emit {terminators : List (Nat × Nat)} (hterminators : ∀ b p, (b, p) ∈ terminators ↔
      p < instructions.length ∧ Terminal leaders instructions.length p ∧ b = blockOf leaders p)
    (hs : terminators.foldlM (emit I x inspected.transfers) ⟨c, []⟩ = some s') : Emitted ⟨c, []⟩
      (fun r => ∃ p source, instructions[p]? = some source ∧
        Terminal leaders instructions.length p ∧ ∃ transfer ∈ machineTransfers I x.policy source,
          Arrives I instructions leaders x.edgePayload p (I.address source) transfer r)
      (fun u => ∃ p source, instructions[p]? = some source ∧
        Terminal leaders instructions.length p ∧ ∃ transfer ∈ machineTransfers I x.policy source,
          Lost I instructions (I.address source) transfer u) s' := by
  have hfold := foldlM_emitted (s := (⟨c, []⟩ : Emitting ι π A))
    (N := fun terminator r => ∃ source, instructions[terminator.2]? = some source ∧
      ∃ transfer ∈ machineTransfers I x.policy source,
        Arrives I instructions leaders x.edgePayload terminator.2 (I.address source) transfer r)
    (L := fun terminator u => ∃ source, instructions[terminator.2]? = some source ∧
      ∃ transfer ∈ machineTransfers I x.policy source,
        Lost I instructions (I.address source) transfer u) h.wf ?_ hs
  · refine hfold.congr (fun r => ?_) (fun u => ?_)
    · constructor
      · intro ⟨⟨b, p⟩, hmem, source, hsource, hrest⟩
        exact ⟨p, source, hsource, ((hterminators b p).mp hmem).2.1, hrest⟩
      · intro ⟨p, source, hsource, hp, hrest⟩
        have hlt := (List.getElem?_eq_some_iff.mp hsource).1
        exact ⟨(blockOf leaders p, p), (hterminators _ p).mpr ⟨hlt, hp, rfl⟩, source, hsource, hrest⟩
    · constructor
      · intro ⟨⟨b, p⟩, hmem, source, hsource, hrest⟩
        exact ⟨p, source, hsource, ((hterminators b p).mp hmem).2.1, hrest⟩
      · intro ⟨p, source, hsource, hp, hrest⟩
        have hlt := (List.getElem?_eq_some_iff.mp hsource).1
        exact ⟨(blockOf leaders p, p), (hterminators _ p).mpr ⟨hlt, hp, rfl⟩, source, hsource, hrest⟩
  · intro ⟨b, p⟩ hmem s₁ s₂ hwf₁ hblock hstep
    obtain ⟨hlt, hp, rfl⟩ := (hterminators b p).mp hmem
    have hsource := getElem?_eq_getElem hlt
    refine (emit_spec h hwf₁ hblock hsource hp hstep).congr (fun r => ?_) (fun u => ?_)
    · simp [hsource]
    · simp [hsource]

end

def Unwinds (I : AddressInstruction ι A K) (instructions : List ι) (leaders : List Bool)
    (edgePayload : AddressEdgeInfo A K → π) (index : Nat) (handler : AddressHandler A) (p : Nat)
    (r : Store.EdgeRecord (Edge π)) : Prop :=
  ∃ source q y, instructions[p]? = some source ∧ instructions[q]? = some y ∧
    I.retainsExceptionEdge source = true ∧ handler.entry = I.address y ∧
    r = edgeRecord leaders edgePayload p q (I.address source) (I.address y) (.unwind index)

variable {handler : AddressHandler A} {c₁ c₂ : Cfg ι π} {index : Nat}

theorem addExceptionEdge_spec (h : Laid I instructions inspected leaders x c)
    (hwf : c₁.WF) (hblock : ∀ b, c₁.block b = c.block b) {q : Nat} {y : ι} (hlead : IsLeader leaders p)
    (hy : instructions[q]? = some y) (hentry : handler.entry = I.address y)
    (hs : addExceptionEdge I x index handler.entry (blockOf leaders q) c₁ p = some c₂) :
    Grown c₁ (Unwinds I instructions leaders x.edgePayload index handler p) c₂ := by
  obtain ⟨b, hb, hs⟩ := Option.bind_eq_some_iff.mp hs
  obtain ⟨hp, rfl⟩ := h.blocks_eq.mp hb
  have hsource := getElem?_eq_getElem hp
  obtain ⟨address, haddress, hs⟩ := Option.bind_eq_some_iff.mp hs
  rw [h.addresses, h.inspects.address_eq hsource] at haddress
  cases haddress
  obtain ⟨block, hb, hs⟩ := Option.bind_eq_some_iff.mp hs
  rw [hblock, h.code p hp] at hb
  cases hb
  obtain ⟨first, hfirst, hs⟩ := Option.bind_eq_some_iff.mp hs
  rw [head_codeOf hsource (Or.inr hlead)] at hfirst
  cases hfirst
  split at hs
  · next hretains =>
    obtain ⟨⟨e, c'⟩, hadd, hs⟩ := Option.bind_eq_some_iff.mp hs
    cases hs
    refine (grown_addEdge hwf hadd).congr fun r => ?_
    constructor
    · intro hr
      exact ⟨_, q, y, hsource, hy, hretains, hentry, by rw [hr, hentry]; rfl⟩
    · intro ⟨source, q', y', hsource', hy', _, hentry', hr⟩
      rw [hsource] at hsource'
      cases hsource'
      have hq : q' = q := h.inspects.position_eq hy' hy (hentry'.symm.trans hentry)
      rw [hr, hq, ← hentry']
      rfl
  · next hretains =>
    cases hs
    refine (Grown.refl hwf).congr fun r => ⟨False.elim, ?_⟩
    intro ⟨source, _, _, hsource', _, hretains', _⟩
    rw [hsource] at hsource'
    cases hsource'
    exact hretains hretains'

theorem addHandlerEdges_spec (h : Laid I instructions inspected leaders x c)
    (hwf : c₁.WF) (hblock : ∀ b, c₁.block b = c.block b) {before : List Bool}
    {handlers : List (AddressHandler A)} {handlerIndex : HandlerIndex}
    (hindex : Validated inspected before handlers handlerIndex leaders) (hhandler : handlers[index]? = some handler)
    (hs : addHandlerEdges I x handlerIndex c₁ (handler, index) = some c₂) :
    Grown c₁ (fun r => ∃ p source, instructions[p]? = some source ∧
      handler.start ≤ I.address source ∧ I.address source < handler.stop ∧
        Unwinds I instructions leaders x.edgePayload index handler p r) c₂ := by
  obtain ⟨q, hq, hentry, hentryLead⟩ := hindex.entry index handler hhandler
  obtain ⟨first, last, hrange, hpositions, _, hleads⟩ := hindex.range index handler hhandler
  obtain ⟨_, _, hbound, hin⟩ := rangePositions_spec h.inspects hpositions
  obtain ⟨y, hy, hyEntry⟩ := h.inspects.exists_instruction hentry
  obtain ⟨q', hq', hs⟩ := Option.bind_eq_some_iff.mp hs
  rw [hq] at hq'
  cases hq'
  obtain ⟨b, hb, hs⟩ := Option.bind_eq_some_iff.mp hs
  obtain ⟨_, rfl⟩ := h.blocks_eq.mp hb
  obtain ⟨range, hrange', hs⟩ := Option.bind_eq_some_iff.mp hs
  rw [hrange] at hrange'
  cases hrange'
  have hmem : ∀ p, p ∈ positionsOf (first, last) ↔ first ≤ p ∧ p < last := by
    intro p
    unfold positionsOf
    rw [mem_range'_1]
    simp only
    omega
  refine (foldlM_grown (N := Unwinds I instructions leaders x.edgePayload index handler) hwf
    (fun p hp d₁ d₂ hwf₁ hblock₁ hstep => ?_) hs).congr fun r => ?_
  · have hp := (hmem p).mp hp
    exact addExceptionEdge_spec h hwf₁ (fun b => (hblock₁ b).trans (hblock b))
      (hleads p hp.1 hp.2) hy hyEntry.symm hstep
  · constructor
    · intro ⟨p, hp, hr⟩
      have hp := (hmem p).mp hp
      have hsource := getElem?_eq_getElem (hp.2.trans_le hbound)
      obtain ⟨hstart, hstop⟩ := (hin p _ hsource).mp hp
      exact ⟨p, _, hsource, hstart, hstop, hr⟩
    · intro ⟨p, source, hsource, hstart, hstop, hr⟩
      exact ⟨p, (hmem p).mpr ((hin p source hsource).mpr ⟨hstart, hstop⟩), hr⟩

end Laid

end CfgLib.Builder
