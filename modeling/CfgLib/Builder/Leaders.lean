import CfgLib.Builder.Stream
import Mathlib.Data.List.Count

/-!
# Leaders

`builder/address/leaders.rs`: which positions begin a block once the sequence of
the stream, the block-ending flows and the handler table have been read.
-/

namespace CfgLib.Builder

open CfgLib.Lib

variable {ι A K π : Type} [AddressSpace A] {I : AddressInstruction ι A K} {instructions : List ι}

def IsLeader (leaders : List Bool) (p : Nat) : Prop := leaders[p]? = some true

structure Extends (leaders leaders' : List Bool) : Prop where
  length : leaders'.length = leaders.length
  mono : ∀ p, IsLeader leaders p → IsLeader leaders' p

theorem Extends.refl (leaders : List Bool) : Extends leaders leaders := ⟨rfl, fun _ h => h⟩

theorem Extends.trans {l₁ l₂ l₃ : List Bool} (h : Extends l₁ l₂) (h' : Extends l₂ l₃) :
    Extends l₁ l₃ := ⟨h'.length.trans h.length, fun p hp => h'.mono p (h.mono p hp)⟩

theorem extends_set (leaders : List Bool) (p : Nat) : Extends leaders (leaders.set p true) := by
  refine ⟨List.length_set, fun q hq => ?_⟩
  unfold IsLeader at hq ⊢
  rw [List.getElem?_set]
  split
  · next heq =>
    have hlt := (List.getElem?_eq_some_iff.mp hq).1
    rw [if_pos (by omega)]
  · exact hq

variable {leaders : List Bool}

theorem isLeader_set {p : Nat} (h : p < leaders.length) : IsLeader (leaders.set p true) p := by
  unfold IsLeader
  rw [List.getElem?_set, if_pos rfl, if_pos h]

theorem foldl_marks {α : Type} {step : List Bool → α → List Bool} {P : α → List Bool → Prop}
    {n : Nat} (hextends : ∀ l a, Extends l (step l a))
    (hmono : ∀ a l l', Extends l l' → P a l → P a l')
    (hstep : ∀ l a, l.length = n → P a (step l a)) (xs : List α) {l : List Bool}
    (hl : l.length = n) : Extends l (xs.foldl step l) ∧ ∀ a ∈ xs, P a (xs.foldl step l) := by
  induction xs generalizing l with
  | nil => exact ⟨.refl l, fun a ha => by cases ha⟩
  | cons first rest ih =>
    obtain ⟨hext, hall⟩ := ih ((hextends l first).length.trans hl)
    refine ⟨(hextends l first).trans hext, fun a ha => ?_⟩
    rcases List.mem_cons.mp ha with rfl | ha
    · exact hmono a _ _ hext (hstep l a hl)
    · exact hall a ha

/-! ## Sequence and flows -/

theorem extends_markTarget (addresses : List A) (target : A) (leaders : List Bool) :
    Extends leaders (markTarget addresses target leaders) := by
  unfold markTarget
  split
  · exact .refl _
  · exact extends_set _ _

omit [AddressSpace A] in
theorem extends_markNext (addresses : List A) (p : Nat) (leaders : List Bool) :
    Extends leaders (markNext addresses p leaders) := by
  unfold markNext
  split
  · exact extends_set _ _
  · exact .refl _

omit [AddressSpace A] in
theorem isLeader_markNext {addresses : List A} {p : Nat} {leaders : List Bool}
    (hl : leaders.length = addresses.length) (hp : p + 1 < addresses.length) :
    IsLeader (markNext addresses p leaders) (p + 1) := by
  unfold markNext
  rw [if_pos hp]
  exact isLeader_set (by omega)

variable {s : Inspected A K}

theorem isLeader_markTarget (h : Inspects I instructions s) {target : A}
    (hl : leaders.length = s.addresses.length) {t : Nat} (ht : s.addresses[t]? = some target) :
    IsLeader (markTarget s.addresses target leaders) t := by
  unfold markTarget
  rw [h.binarySearch_iff.mpr ht]
  have hlt := (List.getElem?_eq_some_iff.mp ht).1
  exact isLeader_set (by omega)

def NextLeads (addresses : List A) (p : Nat) (leaders : List Bool) : Prop :=
  p + 1 < addresses.length → IsLeader leaders (p + 1)

/-- The position of an address, if any, begins a block. -/
def TargetLeads (addresses : List A) (target : A) (leaders : List Bool) : Prop :=
  ∀ t, addresses[t]? = some target → IsLeader leaders t

theorem extends_markSequence (I : AddressInstruction ι A K) (addresses : List A)
    (leaders : List Bool) (numbered : ι × Nat) :
    Extends leaders (markSequence I addresses leaders numbered) := by
  unfold markSequence
  split
  · exact .refl _
  · exact (extends_markNext addresses _ leaders).trans (extends_markTarget addresses _ _)

theorem collectSequenceLeaders_spec (h : Inspects I instructions s) (hl : leaders.length = s.addresses.length) :
    Extends leaders (collectSequenceLeaders I instructions s.addresses leaders) ∧
      ∀ p x, instructions[p]? = some x → s.addresses[p + 1]? ≠ some (I.endOf x) →
        NextLeads s.addresses p (collectSequenceLeaders I instructions s.addresses leaders) ∧
          TargetLeads s.addresses (I.endOf x)
            (collectSequenceLeaders I instructions s.addresses leaders) := by
  have hfold := foldl_marks
    (P := fun (numbered : ι × Nat) l => s.addresses[numbered.2 + 1]? ≠ some (I.endOf numbered.1) →
      NextLeads s.addresses numbered.2 l ∧ TargetLeads s.addresses (I.endOf numbered.1) l)
    (extends_markSequence I s.addresses) ?_ ?_ instructions.zipIdx hl
  · obtain ⟨hext, hall⟩ := hfold
    refine ⟨hext, fun p x hx hne => ?_⟩
    exact hall (x, p) (List.mem_zipIdx_iff_getElem?.mpr hx) hne
  · intro numbered l l' hext hP hne
    exact ⟨fun hp => hext.mono _ ((hP hne).1 hp), fun t ht => hext.mono _ ((hP hne).2 t ht)⟩
  · intro l numbered hl hne
    unfold markSequence
    rw [if_neg hne]
    have hnext := extends_markNext s.addresses numbered.2 l
    refine ⟨fun hp => ?_, fun t ht => ?_⟩
    · exact (extends_markTarget _ _ _).mono _ (isLeader_markNext hl hp)
    · exact isLeader_markTarget h (hnext.length.trans hl) ht

theorem markTransfers_spec (h : Inspects I instructions s) (transfers : List (Transfer A K))
    (hl : leaders.length = s.addresses.length) :
    Extends leaders (markTransfers s.addresses transfers leaders) ∧
      ∀ transfer ∈ transfers, ∀ target, transfer.target = some target →
        TargetLeads s.addresses target (markTransfers s.addresses transfers leaders) := by
  refine foldl_marks (P := fun (transfer : Transfer A K) l => ∀ target,
    transfer.target = some target → TargetLeads s.addresses target l) ?_ ?_ ?_ transfers hl
  · intro l transfer
    split
    · exact .refl _
    · exact extends_markTarget _ _ _
  · exact fun transfer l l' hext hP target htarget t ht => hext.mono _ (hP target htarget t ht)
  · intro l transfer hl target htarget t ht
    rw [htarget]
    exact isLeader_markTarget h hl ht

/-- What a block-ending flow asks of the leaders. -/
def FlowLeads (I : AddressInstruction ι A K) (addresses : List A) (p : Nat) (x : ι)
    (leaders : List Bool) : Prop :=
  NextLeads addresses p leaders ∧
    ∀ transfer ∈ (I.flow x).transfers (I.address x) (some (I.endOf x)), ∀ target,
      transfer.target = some target → TargetLeads addresses target leaders

omit [AddressSpace A] in
theorem FlowLeads.mono {addresses : List A} {p : Nat} {x : ι} {l l' : List Bool}
    (hext : Extends l l') (h : FlowLeads I addresses p x l) : FlowLeads I addresses p x l' :=
  ⟨fun hp => hext.mono _ (h.1 hp), fun transfer htransfer target htarget t ht =>
    hext.mono _ (h.2 transfer htransfer target htarget t ht)⟩

/-- Marking the instruction of an exceptional flow too. -/
def markSelf (p : Nat) (leaders : List Bool) : Flow A K → List Bool
  | .exceptional _ => leaders.set p true
  | _ => leaders

omit [AddressSpace A] in
theorem extends_markSelf (p : Nat) (leaders : List Bool) (flow : Flow A K) :
    Extends leaders (markSelf p leaders flow) := by
  unfold markSelf
  split
  · exact extends_set _ _
  · exact .refl _

theorem markFlow_eq {policy : CallPolicy} {p : Nat} {x : ι}
    {addresses : List A} (hx : instructions[p]? = some x) {flow : Flow A K} (hends : endsBlock flow policy = true) :
    markFlow I instructions addresses policy leaders (p, flow) =
      markNext addresses p (markSelf p (markTransfers addresses
        (flow.transfers (I.address x) (some (I.endOf x))) leaders) flow) := by
  unfold markFlow markSelf
  rw [if_pos hends]
  cases flow <;> simp only [hx]

theorem extends_markFlow (h : Inspects I instructions s) (policy : CallPolicy)
    (hl : leaders.length = s.addresses.length) (transfer : Nat × Flow A K) :
    Extends leaders (markFlow I instructions s.addresses policy leaders transfer) := by
  obtain ⟨p, flow⟩ := transfer
  by_cases hends : endsBlock flow policy = true
  · cases hx : instructions[p]? with
    | none =>
      unfold markFlow
      rw [if_pos hends]
      simp only [hx]
      exact .refl _
    | some x =>
      rw [markFlow_eq hx hends]
      have hmarked := (markTransfers_spec h
        (flow.transfers (I.address x) (some (I.endOf x))) hl).1
      exact hmarked.trans ((extends_markSelf p _ flow).trans (extends_markNext _ _ _))
  · unfold markFlow
    rw [if_neg hends]
    exact .refl _

theorem foldl_markFlow (h : Inspects I instructions s) (policy : CallPolicy) (transfers : List (Nat × Flow A K))
    (hl : leaders.length = s.addresses.length) :
    Extends leaders (transfers.foldl (markFlow I instructions s.addresses policy) leaders) ∧
      ∀ p x, (p, I.flow x) ∈ transfers → instructions[p]? = some x →
        endsBlock (I.flow x) policy = true → FlowLeads I s.addresses p x
          (transfers.foldl (markFlow I instructions s.addresses policy) leaders) := by
  induction transfers generalizing leaders with
  | nil => exact ⟨.refl _, fun p x hmem => by cases hmem⟩
  | cons first rest ih =>
    have hone := extends_markFlow h policy hl first
    obtain ⟨hext, hall⟩ := ih (hone.length.trans hl)
    refine ⟨hone.trans hext, fun p x hmem hx hends => ?_⟩
    rcases List.mem_cons.mp hmem with heq | hmem
    · refine FlowLeads.mono hext ?_
      rw [← heq, markFlow_eq hx hends]
      obtain ⟨hmarked, htargets⟩ := markTransfers_spec h
        ((I.flow x).transfers (I.address x) (some (I.endOf x))) hl
      have hself := extends_markSelf p (markTransfers s.addresses
        ((I.flow x).transfers (I.address x) (some (I.endOf x))) leaders) (I.flow x)
      refine ⟨fun hp => isLeader_markNext ?_ hp, ?_⟩
      · rw [hself.length, hmarked.length, hl]
      · intro transfer htransfer target htarget t ht
        exact (hself.trans (extends_markNext _ _ _)).mono _
          (htargets transfer htransfer target htarget t ht)
    · exact hall p x hmem hx hends

theorem collectFlowLeaders_spec (h : Inspects I instructions s) (policy : CallPolicy)
    (hl : leaders.length = s.addresses.length) :
    Extends leaders (collectFlowLeaders I instructions s.addresses s.transfers policy leaders) ∧
      (∀ p x, instructions[p]? = some x → s.addresses[p + 1]? ≠ some (I.endOf x) →
        NextLeads s.addresses p
            (collectFlowLeaders I instructions s.addresses s.transfers policy leaders) ∧
          TargetLeads s.addresses (I.endOf x)
            (collectFlowLeaders I instructions s.addresses s.transfers policy leaders)) ∧
      ∀ p x, instructions[p]? = some x → endsBlock (I.flow x) policy = true →
        FlowLeads I s.addresses p x
          (collectFlowLeaders I instructions s.addresses s.transfers policy leaders) := by
  obtain ⟨hseq, hbreaks⟩ := collectSequenceLeaders_spec h hl
  obtain ⟨hext, hflows⟩ := foldl_markFlow h policy s.transfers (hseq.length.trans hl)
  refine ⟨hseq.trans hext, ?_, ?_⟩
  · intro p x hx hne
    obtain ⟨hnext, htarget⟩ := hbreaks p x hx hne
    exact ⟨fun hp => hext.mono _ (hnext hp), fun t ht => hext.mono _ (htarget t ht)⟩
  · intro p x hx hends
    refine hflows p x ((h.transfers p _).mpr ⟨x, hx, rfl, ?_⟩) hx hends
    unfold endsBlock at hends
    exact (Bool.and_eq_true_iff.mp hends).1

end CfgLib.Builder
