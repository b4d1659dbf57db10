import CfgLib.Builder.Edges
import CfgLib.Lib.Blocks

/-!
# The built graph simulates the machine

The leaders are where the machine enters a block, so a path of the built graph
runs the instructions of the machine, and each run of the machine is on a path.
-/

namespace CfgLib.Builder

open CfgLib.Lib CfgLib.Cfg List

variable {ι A K π : Type} [AddressSpace A] {I : AddressInstruction ι A K} {instructions : List ι}
  {handlers : List (AddressHandler A)} {policy : CallPolicy}
  {edgePayload : AddressEdgeInfo A K → π} {inspected : Inspected A K} {leaders : List Bool}
  {c : Cfg ι π}

structure Leading (I : AddressInstruction ι A K) (instructions : List ι) (policy : CallPolicy)
    (inspected : Inspected A K) (leaders : List Bool) : Prop where
  length : leaders.length = instructions.length
  breaks : ∀ (p : Nat) (x : ι), instructions[p]? = some x →
    inspected.addresses[p + 1]? ≠ some (I.endOf x) →
    NextLeads inspected.addresses p leaders ∧ TargetLeads inspected.addresses (I.endOf x) leaders
  flows : ∀ (p : Nat) (x : ι), instructions[p]? = some x → endsBlock (I.flow x) policy = true →
    FlowLeads I inspected.addresses p x leaders

omit [AddressSpace A] in
theorem Leading.mono {before : List Bool} (h : Leading I instructions policy inspected before)
    (hext : Extends before leaders) : Leading I instructions policy inspected leaders where
  length := hext.length.trans h.length
  breaks p x hx hne :=
    ⟨fun hp => hext.mono _ ((h.breaks p x hx hne).1 hp),
      fun t ht => hext.mono _ ((h.breaks p x hx hne).2 t ht)⟩
  flows p x hx hends := (h.flows p x hx hends).mono hext

/-- What the builder establishes about the blocks and edges of its graph. -/
structure Constructed (I : AddressInstruction ι A K) (instructions : List ι)
    (handlers : List (AddressHandler A)) (policy : CallPolicy)
    (edgePayload : AddressEdgeInfo A K → π) (inspected : Inspected A K) (leaders : List Bool)
    (c : Cfg ι π) : Prop where
  inspects : Inspects I instructions inspected
  leading : Leading I instructions policy inspected leaders
  covered : ∀ (p : Nat) (x : ι) (handler : AddressHandler A), instructions[p]? = some x →
    handler ∈ handlers → handler.start ≤ I.address x → I.address x < handler.stop →
    IsLeader leaders p ∧ Terminal leaders instructions.length p
  entries : ∀ (q : Nat) (y : ι) (handler : AddressHandler A), instructions[q]? = some y →
    handler ∈ handlers → handler.entry = I.address y → IsLeader leaders q
  code : ∀ b, c.instructions b = codeOf leaders instructions b
  edges : ∀ r, c.HasEdge r ↔ ∃ (p q : Nat) (x y : ι) (role : EdgeRole A K),
    instructions[p]? = some x ∧ instructions[q]? = some y ∧
      Terminal leaders instructions.length p ∧ Transition I handlers policy x y role ∧
      r = edgeRecord leaders edgePayload p q (I.address x) (I.address y) role

def Steps (I : AddressInstruction ι A K) (instructions : List ι)
    (handlers : List (AddressHandler A)) (policy : CallPolicy) (x y : ι) : Prop :=
  x ∈ instructions ∧ y ∈ instructions ∧ ∃ role, Transition I handlers policy x y role

def blocks (c : Cfg ι π) : Blocks ι where
  code := c.instructions
  joins a b := ∃ r, c.HasEdge r ∧ r.source = a ∧ r.target = b

theorem not_terminal {b i p q : Nat} (hi : (positionsIn leaders instructions.length b)[i]? = some p)
    (hnext : (positionsIn leaders instructions.length b)[i + 1]? = some q) :
    ¬ Terminal leaders instructions.length p := by
  intro hp
  obtain rfl := eq_succ_of_positionsIn hi hnext
  have hb : b = blockOf leaders p := (mem_positionsIn.mp (mem_of_getElem? hi)).2.symm
  exact not_mem_of_terminal hp (hb ▸ mem_of_getElem? hnext)

namespace Constructed

variable {p q : Nat} {x y : ι} {role : EdgeRole A K}
  (h : Constructed I instructions handlers policy edgePayload inspected leaders c)

include h

theorem inside (hx : instructions[p]? = some x) (hp : ¬ Terminal leaders instructions.length p) :
    endsBlock (I.flow x) policy = false ∧ inspected.addresses[p + 1]? = some (I.endOf x) := by
  have hlt := (List.getElem?_eq_some_iff.mp hx).1
  have hlength := h.inspects.length_addresses
  have hnext : p + 1 < inspected.addresses.length := by
    by_contra hnot
    exact hp (Or.inl (by omega))
  constructor
  · cases hends : endsBlock (I.flow x) policy with
    | false => rfl
    | true => exact absurd (Or.inr ((h.leading.flows p x hx hends).1 hnext)) hp
  · by_contra hne
    exact hp (Or.inr ((h.leading.breaks p x hx hne).1 hnext))

theorem next_of_transition (hx : instructions[p]? = some x) (hy : instructions[q]? = some y)
    (hp : ¬ Terminal leaders instructions.length p) (hstep : Transition I handlers policy x y role) :
    q = p + 1 := by
  obtain ⟨hends, hnext⟩ := h.inside hx hp
  cases hstep with
  | transfer hmem htarget =>
    rw [machineTransfers_eq hends, mem_singleton] at hmem
    rw [hmem] at htarget
    obtain ⟨z, hz, hzEnd⟩ := h.inspects.exists_instruction hnext
    exact h.inspects.position_eq hy hz ((Option.some.inj htarget).symm.trans hzEnd.symm)
  | unwind hhandler hstart hstop _ _ =>
    exact absurd (h.covered p x _ hx (mem_of_getElem? hhandler) hstart hstop).2 hp

theorem leader_of_transition (hx : instructions[p]? = some x) (hy : instructions[q]? = some y)
    (hp : Terminal leaders instructions.length p) (hstep : Transition I handlers policy x y role) :
    IsLeader leaders q := by
  have hyAt := h.inspects.address_eq hy
  cases hstep with
  | transfer hmem htarget =>
    cases hends : endsBlock (I.flow x) policy with
    | true =>
      rw [machineTransfers_of_endsBlock hends] at hmem
      exact (h.leading.flows p x hx hends).2 _ hmem _ htarget q hyAt
    | false =>
      rw [machineTransfers_eq hends, mem_singleton] at hmem
      rw [hmem] at htarget
      have hend : I.endOf x = I.address y := Option.some.inj htarget
      by_cases hnext : inspected.addresses[p + 1]? = some (I.endOf x)
      · obtain ⟨z, hz, hzEnd⟩ := h.inspects.exists_instruction hnext
        have hq : q = p + 1 := h.inspects.position_eq hy hz (hend.symm.trans hzEnd.symm)
        have hlt := (List.getElem?_eq_some_iff.mp hy).1
        rw [hq]
        exact hp.resolve_left (by omega)
      · exact (h.leading.breaks p x hx hnext).2 q (hend ▸ hyAt)
  | unwind hhandler _ _ _ hentry =>
    exact h.entries q y _ hy (mem_of_getElem? hhandler) hentry

theorem transition_next (hx : instructions[p]? = some x) (hy : instructions[p + 1]? = some y)
    (hp : ¬ Terminal leaders instructions.length p) :
    Transition I handlers policy x y .sequential := by
  obtain ⟨hends, hnext⟩ := h.inside hx hp
  rw [h.inspects.address_eq hy] at hnext
  have hmem : (⟨some (I.endOf x), .sequential⟩ : Transfer A K) ∈ machineTransfers I policy x := by
    rw [machineTransfers_eq hends]
    exact mem_singleton_self _
  exact .transfer hmem hnext.symm

/-- The blocks and edges of the built graph take the steps of the machine and no others. -/
theorem covers : (blocks c).Covers (Steps I instructions handlers policy) where
  nonempty := by
    intro a b ⟨r, hr, hsource, htarget⟩
    obtain ⟨p, q, x, y, role, hx, hy, hp, hstep, rfl⟩ := (h.edges r).mp hr
    subst hsource htarget
    constructor
    · obtain ⟨i, _, hi⟩ := exists_getElem?_codeOf leaders hx
      rw [← h.code] at hi
      exact ne_nil_of_mem (mem_of_getElem? hi)
    · obtain ⟨i, _, hi⟩ := exists_getElem?_codeOf leaders hy
      rw [← h.code] at hi
      exact ne_nil_of_mem (mem_of_getElem? hi)
  inside := by
    intro b
    refine isChain_iff_getElem.mpr fun i hi => ?_
    have hfirst := getElem?_eq_getElem (Nat.lt_of_succ_lt hi)
    have hsecond := getElem?_eq_getElem hi
    simp only [blocks] at hfirst hsecond ⊢
    simp only [h.code] at hfirst hsecond ⊢
    obtain ⟨p, hp, hx⟩ := getElem?_codeOf.mp hfirst
    obtain ⟨q, hq, hy⟩ := getElem?_codeOf.mp hsecond
    obtain rfl := eq_succ_of_positionsIn hp hq
    exact ⟨mem_of_getElem? hx, mem_of_getElem? hy, _,
      h.transition_next hx hy (not_terminal hp hq)⟩
  joint := by
    intro a b ⟨r, hr, hsource, htarget⟩ x' hx' y' hy'
    obtain ⟨p, q, x, y, role, hx, hy, hp, hstep, rfl⟩ := (h.edges r).mp hr
    subst hsource htarget
    simp only [blocks, edgeRecord, h.code] at hx' hy'
    rw [last_codeOf hx hp] at hx'
    rw [head_codeOf hy (Or.inr (h.leader_of_transition hx hy hp hstep))] at hy'
    cases hx'
    cases hy'
    exact ⟨mem_of_getElem? hx, mem_of_getElem? hy, role, hstep⟩
  step := by
    intro b i x y hat ⟨_, hmem, role, hstep⟩
    simp only [blocks, h.code] at hat ⊢
    obtain ⟨p, hi, hx⟩ := getElem?_codeOf.mp hat
    obtain ⟨q, hy⟩ := getElem?_of_mem hmem
    have hb : b = blockOf leaders p := (mem_positionsIn.mp (mem_of_getElem? hi)).2.symm
    by_cases hp : Terminal leaders instructions.length p
    · refine Or.inr ⟨?_, blockOf leaders q, ⟨_, (h.edges _).mpr
        ⟨p, q, x, y, role, hx, hy, hp, hstep, rfl⟩, hb.symm, rfl⟩, ?_⟩
      · rw [length_codeOf]
        rw [hb] at hi ⊢
        exact last_positionsIn hi (not_mem_of_terminal hp)
      · exact head_codeOf hy (Or.inr (h.leader_of_transition hx hy hp hstep))
    · obtain rfl := h.next_of_transition hx hy hp hstep
      refine Or.inl (getElem?_codeOf.mpr ⟨p + 1, next_positionsIn hi ?_, hy⟩)
      rw [hb]
      refine mem_positionsIn.mpr ⟨(List.getElem?_eq_some_iff.mp hy).1, blockOf_succ_eq ?_⟩
      exact fun hlead => hp (Or.inr hlead)

theorem edge_ends {r : Store.EdgeRecord (Edge π)} (hr : c.HasEdge r) :
    ∃ x y role, (c.instructions r.source).getLast? = some x ∧
      (c.instructions r.target).head? = some y ∧ Transition I handlers policy x y role ∧
      r.payload = ⟨role.kind, none, edgePayload ⟨I.address x, I.address y, role.kind, role⟩⟩ := by
  obtain ⟨p, q, x, y, role, hx, hy, hp, hstep, rfl⟩ := (h.edges r).mp hr
  refine ⟨x, y, role, ?_, ?_, hstep, rfl⟩
  · rw [h.code]
    exact last_codeOf hx hp
  · rw [h.code]
    exact head_codeOf hy (Or.inr (h.leader_of_transition hx hy hp hstep))

theorem endsBlock_eq_false {b i : Nat}
    (hx : (c.instructions b)[i]? = some x) (hi : i + 1 < (c.instructions b).length) :
    endsBlock (I.flow x) policy = false := by
  rw [h.code] at hx hi
  have hnext := getElem?_eq_getElem hi
  obtain ⟨p, hp, hx⟩ := getElem?_codeOf.mp hx
  obtain ⟨q, hq, _⟩ := getElem?_codeOf.mp hnext
  exact (h.inside hx (not_terminal hp hq)).1

end Constructed

end CfgLib.Builder
