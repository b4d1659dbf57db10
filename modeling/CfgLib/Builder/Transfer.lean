import CfgLib.Cfg.Basic

/-!
# Control transfers

`flow/transfer.rs`: how one operation leaves its position, and the transfers that
describes.
-/

namespace CfgLib.Builder

/-- One operation's control transfer. -/
inductive Flow (T K : Type) where
  | next
  | return
  | throw
  | indirect
  | conditionalIndirect
  | indirectCall
  | jump (target : T)
  | conditional (target : T)
  | call (target : T)
  | exceptional (target : T)
  | trap
  | conditionalTrap
  | switch (default : T) (cases : List (K × T))

inductive EdgeRole (T K : Type) where
  | sequential
  | conditionalTaken
  | conditionalFallThrough
  | jump
  | switchDefault
  | switchCase (index : Nat) (key : K)
  | call
  | callContinuation (callSite : T)
  | exceptional
  | unwind (handler : Nat)

def EdgeRole.kind {T K : Type} : EdgeRole T K → EdgeKind
  | .sequential => .fallthrough
  | .conditionalTaken => .conditionalTrue
  | .conditionalFallThrough => .conditionalFalse
  | .jump => .jump
  | .switchDefault => .switchCase
  | .switchCase _ _ => .switchCase
  | .call => .call
  | .callContinuation _ => .callReturn
  | .exceptional => .exceptionUnwind
  | .unwind _ => .exceptionUnwind

/-- One transfer a flow makes; a computed transfer has no target. -/
structure Transfer (T K : Type) where
  target : Option T
  role : EdgeRole T K

/-- Why one transfer could not be connected to a recovered operation. -/
inductive UnresolvedRole where
  | indirect
  | indirectCall
  | conditionalTaken
  | conditionalIndirect
  | jump
  | switchDefault
  | switchCase (index : Nat)
  | call
  | exceptional
  | trap
  deriving DecidableEq, Repr

structure UnresolvedTransfer (T : Type) where
  source : T
  target : Option T
  role : UnresolvedRole

namespace Flow

variable {T K : Type}

def endsBlock : Flow T K → Bool
  | .next => false
  | _ => true

def isCall : Flow T K → Bool
  | .call _ | .indirectCall => true
  | _ => false

/-- The single target the operation names directly. -/
def directTarget : Flow T K → Option T
  | .jump target | .conditional target | .call target | .exceptional target => some target
  | _ => none

def continuation (next : Option T) (role : EdgeRole T K) : List (Transfer T K) :=
  match next with
  | none => []
  | some target => [⟨some target, role⟩]

/-- Every transfer this flow makes from `source`, in dispatch order. -/
def transfers (flow : Flow T K) (source : T) (next : Option T) : List (Transfer T K) :=
  match flow with
  | .next => continuation next .sequential
  | .return | .throw => []
  | .indirect => [⟨none, .jump⟩]
  | .conditionalIndirect => ⟨none, .conditionalTaken⟩ :: continuation next .conditionalFallThrough
  | .indirectCall => ⟨none, .call⟩ :: continuation next (.callContinuation source)
  | .jump target => [⟨some target, .jump⟩]
  | .conditional target =>
    ⟨some target, .conditionalTaken⟩ :: continuation next .conditionalFallThrough
  | .call target => ⟨some target, .call⟩ :: continuation next (.callContinuation source)
  | .exceptional target => ⟨some target, .exceptional⟩ :: continuation next .sequential
  | .trap => [⟨none, .exceptional⟩]
  | .conditionalTrap => ⟨none, .exceptional⟩ :: continuation next .sequential
  | .switch default cases =>
    ⟨some default, .switchDefault⟩ ::
      cases.mapIdx fun index case => ⟨some case.2, .switchCase index case.1⟩

end Flow

def Transfer.unresolvedRole {T K : Type} (transfer : Transfer T K) : Option UnresolvedRole :=
  match transfer.role, transfer.target.isSome with
  | .jump, false => some .indirect
  | .call, false => some .indirectCall
  | .conditionalTaken, false => some .conditionalIndirect
  | .conditionalTaken, true => some .conditionalTaken
  | .jump, true => some .jump
  | .switchDefault, true => some .switchDefault
  | .switchCase index _, true => some (.switchCase index)
  | .call, true => some .call
  | .exceptional, true => some .exceptional
  | .exceptional, false => some .trap
  | _, _ => none

theorem Flow.unresolvedRole_eq_none {T K : Type} {flow : Flow T K} {source : T} {next : Option T}
    {transfer : Transfer T K} (h : transfer ∈ flow.transfers source next)
    (hrole : transfer.unresolvedRole = none) : transfer.target = next := by
  have hcontinuation : ∀ role, transfer ∈ Flow.continuation next role → transfer.target = next := by
    intro role hmem
    cases next with
    | none => cases hmem
    | some target =>
      rw [Flow.continuation, List.mem_singleton] at hmem
      rw [hmem]
  unfold Flow.transfers at h
  split at h
  · exact hcontinuation _ h
  · cases h
  · cases h
  · rw [List.mem_singleton] at h
    subst h
    cases hrole
  · rcases List.mem_cons.mp h with rfl | h
    · cases hrole
    · exact hcontinuation _ h
  · rcases List.mem_cons.mp h with rfl | h
    · cases hrole
    · exact hcontinuation _ h
  · rw [List.mem_singleton] at h
    subst h
    cases hrole
  · rcases List.mem_cons.mp h with rfl | h
    · cases hrole
    · exact hcontinuation _ h
  · rcases List.mem_cons.mp h with rfl | h
    · cases hrole
    · exact hcontinuation _ h
  · rcases List.mem_cons.mp h with rfl | h
    · cases hrole
    · exact hcontinuation _ h
  · rw [List.mem_singleton] at h
    subst h
    cases hrole
  · rcases List.mem_cons.mp h with rfl | h
    · cases hrole
    · exact hcontinuation _ h
  · rcases List.mem_cons.mp h with rfl | h
    · cases hrole
    · obtain ⟨index, hindex, rfl⟩ := List.mem_mapIdx.mp h
      cases hrole

end CfgLib.Builder
