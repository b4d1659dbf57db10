import CfgLib.Transform.Linearize

/-!
# What the stream follows

A block's piece of the stream takes exactly the block's edges, unless a jump stands before
the block's conditional branch or nothing stands after it.
-/

namespace CfgLib.Transform

open CfgLib.Lib Relation List

variable {ι π : Type}

/-! ## The pieces -/

section Pieces

variable {c : Cfg ι π} {emitter : Emitter ι} {id : Nat}

def emittedItem (c : Cfg ι π) (emitter : Emitter ι) (id e : Nat) : Option (LinearInst ι) :=
  match transfer (c.edgeView.edge e).data with
  | .branch => (c.instructions id).getLast?.map fun condition =>
    .synthetic (emitter.emitConditionalBranch condition (c.edgeView.edge e).target) id
  | .jump => some (.synthetic (emitter.emitJump (c.edgeView.edge e).target) id)
  | .layout | .implicit => none

/-- The first target that adjacency can reach. -/
def layoutTarget (c : Cfg ι π) (edges : List Nat) : Option Nat :=
  edges.findSome? fun e =>
    if transfer (c.edgeView.edge e).data = .layout then some (c.edgeView.edge e).target else none

/-- The jump to what would follow a block. -/
def layoutItem (emitter : Emitter ι) (id : Nat) (nextInLayout : Option Nat) : Option Nat → List (LinearInst ι)
  | none => []
  | some target => if nextInLayout ≠ some target then [.synthetic (emitter.emitJump target) id] else []

def HasConditions (c : Cfg ι π) (id : Nat) (edges : List Nat) : Prop :=
  ∀ e ∈ edges, transfer (c.edgeView.edge e).data = .branch → ((c.instructions id).getLast?).isSome

theorem foldlM_emitTransfer {edges : List Nat} : ∀ {target target' : Option Nat} {out out' : List (LinearInst ι)},
    edges.foldlM (emitTransfer c emitter id) (target, out) = .ok (target', out') →
      target' = (target <|> layoutTarget c edges) ∧ out' = out ++ edges.filterMap (emittedItem c emitter id) ∧
        HasConditions c id edges := by
  induction edges with
  | nil =>
    intro target target' out out' h
    cases h
    refine ⟨?_, (append_nil _).symm, fun e he => absurd he not_mem_nil⟩
    cases target <;> rfl
  | cons e edges ih =>
    intro target target' out out' h
    rw [foldlM_cons] at h
    obtain ⟨⟨mid, out₁⟩, hstep, h⟩ := bind_eq_ok.mp h
    obtain ⟨htarget, hout, hconditions⟩ := ih h
    unfold emitTransfer at hstep
    simp only [HasConditions, forall_mem_cons, layoutTarget, findSome?_cons, filterMap_cons, emittedItem]
    cases hkind : transfer (c.edgeView.edge e).data with
    | layout =>
      simp only [hkind] at hstep
      cases hstep
      refine ⟨?_, hout, by simp, hconditions⟩
      rw [htarget]
      cases target <;> simp
    | branch =>
      simp only [hkind] at hstep
      cases hlast : (c.instructions id).getLast? with
      | none =>
        rw [hlast] at hstep
        cases hstep
      | some condition =>
        rw [hlast] at hstep
        cases hstep
        exact ⟨htarget, by simpa using hout, by simp, by rwa [HasConditions, hlast] at hconditions⟩
    | jump =>
      simp only [hkind] at hstep
      cases hstep
      exact ⟨htarget, by simpa using hout, by simp, hconditions⟩
    | implicit =>
      simp only [hkind] at hstep
      cases hstep
      exact ⟨htarget, hout, by simp, hconditions⟩

def transferItems (c : Cfg ι π) (emitter : Emitter ι) (id : Nat) (nextInLayout : Option Nat) : List (LinearInst ι) :=
  (c.outgoing id).filterMap (emittedItem c emitter id) ++
    layoutItem emitter id nextInLayout (layoutTarget c (c.outgoing id))

variable {out : List (LinearInst ι)} {sorted : List Nat} {next : Option Nat}

theorem emitTransfers_spec {out' : List (LinearInst ι)} (h : emitTransfers c emitter id next out = .ok out') :
    out' = out ++ transferItems c emitter id next ∧ HasConditions c id (c.outgoing id) := by
  unfold emitTransfers at h
  cases hfold : (c.outgoing id).foldlM (emitTransfer c emitter id) (none, out) with
  | error e =>
    rw [hfold] at h
    cases h
  | ok state =>
    obtain ⟨target, mid⟩ := state
    obtain ⟨htarget, rfl, hconditions⟩ := foldlM_emitTransfer hfold
    have htarget : target = layoutTarget c (c.outgoing id) := htarget
    rw [hfold, htarget] at h
    refine ⟨?_, hconditions⟩
    rw [transferItems, ← append_assoc]
    cases hlayout : layoutTarget c (c.outgoing id) with
    | none =>
      rw [hlayout] at h
      cases h
      rw [layoutItem, append_nil]
    | some target =>
      rw [hlayout] at h
      by_cases hnext : next ≠ some target
      · simp only [Except.map, hnext, ne_eq, not_false_eq_true, if_true] at h
        cases h
        rw [layoutItem, if_pos hnext]
      · simp only [Except.map, hnext, if_false] at h
        cases h
        rw [layoutItem, if_neg hnext, append_nil]

/-- Everything a block puts into the stream. -/
def blockPiece (c : Cfg ι π) (emitter : Emitter ι) (id : Nat) (nextInLayout : Option Nat) : List (LinearInst ι) :=
  blockItems c emitter id ++ transferItems c emitter id nextInLayout

theorem block_of_mem_blockPiece {x : LinearInst ι} (h : x ∈ blockPiece c emitter id next) :
    x.block = id := by
  rcases mem_append.mp h with h | h
  · rcases mem_append.mp h with h | h
    · obtain ⟨marker, _, rfl⟩ := Option.map_eq_some_iff.mp (Option.mem_toList.mp h)
      rfl
    · obtain ⟨_, _, rfl⟩ := mem_map.mp h
      rfl
  · rcases mem_append.mp h with h | h
    · obtain ⟨e, _, h⟩ := mem_filterMap.mp h
      unfold emittedItem at h
      split at h
      · obtain ⟨_, _, rfl⟩ := Option.map_eq_some_iff.mp h
        rfl
      · cases h
        rfl
      · cases h
      · cases h
    · unfold layoutItem at h
      split at h
      · cases h
      · split at h
        · rw [mem_singleton.mp h]
          rfl
        · cases h

theorem linearizeBlocks_eq : ∀ {out out' : List (LinearInst ι)},
    linearizeBlocks c emitter sorted out = .ok out' → sorted.Nodup →
      out' = out ++ sorted.flatMap fun b => blockPiece c emitter b (layoutNext sorted b) := by
  induction sorted with
  | nil =>
    intro out out' h _
    cases h
    rw [flatMap_nil, append_nil]
  | cons id rest ih =>
    intro out out' h hnodup
    obtain ⟨hid, hrest⟩ := nodup_cons.mp hnodup
    obtain ⟨mid, hmid, h⟩ := bind_eq_ok.mp h
    obtain ⟨rfl, _⟩ := emitTransfers_spec hmid
    have hnext : ∀ b ∈ rest, layoutNext (id :: rest) b = layoutNext rest b := by
      intro b hb
      rw [layoutNext, if_neg]
      rintro rfl
      exact hid hb
    rw [ih h hrest, flatMap_cons, layoutNext, if_pos rfl, blockPiece, append_assoc, append_assoc,
      append_assoc, append_cancel_left_eq, append_cancel_left_eq, append_cancel_left_eq]
    refine flatMap_congr fun b hb => ?_
    rw [hnext b hb]

theorem hasConditions_of_linearizeBlocks : ∀ {out out' : List (LinearInst ι)},
    linearizeBlocks c emitter sorted out = .ok out' → ∀ b ∈ sorted, HasConditions c b (c.outgoing b) := by
  induction sorted with
  | nil => exact fun _ _ hb => absurd hb not_mem_nil
  | cons id rest ih =>
    intro out out' h b hb
    obtain ⟨mid, hmid, h⟩ := bind_eq_ok.mp h
    rcases mem_cons.mp hb with rfl | hb
    · exact (emitTransfers_spec hmid).2
    · exact ih h b hb

theorem piece_linearizeBlocks (hnodup : sorted.Nodup)
    (h : linearizeBlocks c emitter sorted [] = .ok out) {b : Nat} (hb : b ∈ sorted) :
    piece out b = blockPiece c emitter b (layoutNext sorted b) ∧ HasConditions c b (c.outgoing b) := by
  refine ⟨?_, hasConditions_of_linearizeBlocks h b hb⟩
  rw [linearizeBlocks_eq h hnodup, nil_append]
  exact filter_flatMap_of_nodup hnodup (fun b _ x hx => block_of_mem_blockPiece hx) hb

end Pieces

/-! ## What a piece enters -/

section Leaves

variable {act : ι → Action} {carried after : Nat → Prop} {t : Nat}

/-- What instructions enter first, with what their block's own instructions can enter and
what follows the last one. -/
def Leaves (act : ι → Action) (carried after : Nat → Prop) : List (LinearInst ι) → Nat → Prop
  | [], t => after t
  | x :: items, t => (act x.inst).target = some t ∨ ((act x.inst).carries = true ∧ carried t) ∨
    ((act x.inst).continues = true ∧ Leaves act carried after items t)

variable {c : Cfg ι π} {sorted : List Nat} {out : List (LinearInst ι)}

theorem lands_streamStep : Lands (StreamStep act c sorted out) fun b => (b, 0) := by
  intro p b q hs
  cases hs <;> rfl

theorem emits_iff_leaves {b i : Nat} (hi : i ≤ (piece out b).length) :
    Emits (StreamStep act c sorted out) (b, i) [t] ↔
      Leaves act (ImplicitEdge c b) (layoutNext sorted b = some ·) ((piece out b).drop i) t := by
  induction hi using Nat.decreasingInduction with
  | self =>
    rw [drop_length, emits_singleton_iff, Leaves]
    constructor
    · rintro ⟨o, q, hs, ho⟩
      generalize hp : (b, (piece out b).length) = p at hs
      cases hs with
      | next hx _ =>
        obtain ⟨rfl, rfl⟩ := Prod.mk.inj hp
        simp at hx
      | goto hx _ =>
        obtain ⟨rfl, rfl⟩ := Prod.mk.inj hp
        simp at hx
      | carry hx _ _ =>
        obtain ⟨rfl, rfl⟩ := Prod.mk.inj hp
        simp at hx
      | fall hnext =>
        obtain ⟨rfl, _⟩ := Prod.mk.inj hp
        rcases ho with ho | ⟨ho, _⟩
        · rw [hnext, Option.some.inj ho]
        · cases ho
    · exact fun hnext => ⟨_, _, .fall hnext, Or.inl rfl⟩
  | of_succ i hlt ih =>
    have hget : (piece out b)[i]? = some (piece out b)[i] := getElem?_eq_getElem hlt
    rw [drop_eq_getElem_cons hlt, emits_singleton_iff, Leaves, ← ih]
    constructor
    · rintro ⟨o, q, hs, ho⟩
      cases hs with
      | next hx hcontinues =>
        cases hget.symm.trans hx
        rcases ho with ho | ⟨_, hq⟩
        · cases ho
        · exact Or.inr (Or.inr ⟨hcontinues, hq⟩)
      | goto hx htarget =>
        cases hget.symm.trans hx
        rcases ho with ho | ⟨ho, _⟩
        · exact Or.inl (htarget.trans ho)
        · cases ho
      | carry hx hcarries hedge =>
        cases hget.symm.trans hx
        rcases ho with ho | ⟨ho, _⟩
        · exact Or.inr (Or.inl ⟨hcarries, Option.some.inj ho ▸ hedge⟩)
        · cases ho
      | fall _ => exact absurd hlt (Nat.lt_irrefl _)
    · rintro (htarget | ⟨hcarries, hedge⟩ | ⟨hcontinues, hq⟩)
      · exact ⟨_, _, .goto hget htarget, Or.inl rfl⟩
      · exact ⟨_, _, .carry hget hcarries hedge, Or.inl rfl⟩
      · exact ⟨_, _, .next hget hcontinues, Or.inr ⟨rfl, hq⟩⟩

variable {emitter : Emitter ι} {xs : List (LinearInst ι)} {id : Nat} {next : Option Nat}

theorem leaves_append {ys : List (LinearInst ι)} :
    Leaves act carried after (xs ++ ys) t ↔ Leaves act carried (Leaves act carried after ys) xs t := by
  induction xs with
  | nil => rfl
  | cons x xs ih => rw [cons_append, Leaves, Leaves, ih]

theorem leaves_of_continues (htarget : ∀ x ∈ xs, (act x.inst).target = none)
    (hcontinues : ∀ x ∈ xs, (act x.inst).continues = true) :
    Leaves act carried after xs t ↔ ((∃ x ∈ xs, (act x.inst).carries = true) ∧ carried t) ∨ after t := by
  induction xs with
  | nil => simp [Leaves]
  | cons x xs ih =>
    rw [Leaves, ih (fun y hy => htarget y (mem_cons_of_mem _ hy))
      (fun y hy => hcontinues y (mem_cons_of_mem _ hy)), htarget x mem_cons_self,
      hcontinues x mem_cons_self, exists_mem_cons_iff, or_and_right, or_assoc]
    simp

/-- What the branches and jumps of edges enter, with the first target that adjacency reaches. -/
def Departs (c : Cfg ι π) (next : Option Nat) : List Nat → Option Nat → Nat → Prop
  | [], none, t => next = some t
  | [], some target, t => target = t
  | e :: edges, target, t => match transfer (c.edgeView.edge e).data with
    | .layout => Departs c next edges (target <|> some (c.edgeView.edge e).target) t
    | .branch => (c.edgeView.edge e).target = t ∨ Departs c next edges target t
    | .jump => (c.edgeView.edge e).target = t
    | .implicit => Departs c next edges target t

/-- The emitter's instructions do what it says. -/
structure Emitter.Acts (emitter : Emitter ι) (act : ι → Action) : Prop where
  jump : ∀ t, act (emitter.emitJump t) = .jump t
  branch : ∀ a t, act (emitter.emitConditionalBranch a t) = .branch t
  marker : ∀ b m, emitter.emitBlockStart b = some m → act m = .next

theorem leaves_layoutItem (hemitter : emitter.Acts act) {target : Option Nat} :
    Leaves act carried (next = some ·) (layoutItem emitter id next target) t ↔ Departs c next [] target t := by
  cases target with
  | none => rfl
  | some target =>
    by_cases hnext : next ≠ some target
    · rw [layoutItem, if_pos hnext, Leaves, LinearInst.synthetic, hemitter.jump, Departs]
      simp [Action.target, Action.carries, Action.continues]
    · rw [layoutItem, if_neg hnext, Leaves, Departs, not_not.mp hnext, Option.some_inj]

theorem leaves_emittedItems (hemitter : emitter.Acts act)
    {edges : List Nat} : ∀ target : Option Nat, HasConditions c id edges →
      (Leaves act carried (next = some ·) (edges.filterMap (emittedItem c emitter id) ++
        layoutItem emitter id next (target <|> layoutTarget c edges)) t ↔ Departs c next edges target t) := by
  induction edges with
  | nil =>
    intro target _
    have htarget : (target <|> layoutTarget c []) = target := by cases target <;> rfl
    rw [htarget]
    exact leaves_layoutItem hemitter
  | cons e edges ih =>
    intro target hconditions
    obtain ⟨hcondition, hconditions⟩ := forall_mem_cons.mp hconditions
    simp only [layoutTarget, findSome?_cons, filterMap_cons, emittedItem, Departs]
    cases hkind : transfer (c.edgeView.edge e).data with
    | layout =>
      rw [← ih _ hconditions]
      simp only [if_true]
      cases target <;> rfl
    | branch =>
      obtain ⟨condition, hlast⟩ := Option.isSome_iff_exists.mp (hcondition hkind)
      simp only [hlast, Option.map_some, cons_append, Leaves, LinearInst.synthetic, hemitter.branch]
      rw [← ih _ hconditions]
      simp [Action.target, Action.carries, Action.continues, layoutTarget]
    | jump => simp [Leaves, LinearInst.synthetic, hemitter.jump, Action.target, Action.carries, Action.continues]
    | implicit => exact ih _ hconditions

end Leaves

/-! ## Blocks in normal form -/

section Blocks

variable {act : ι → Action} {c : Cfg ι π} {emitter : Emitter ι} {next : Option Nat} {b t : Nat}

def normalEdges (c : Cfg ι π) (b : Nat) : List Nat :=
  (c.outgoing b).filter fun e => transfer (c.edgeView.edge e).data ≠ .implicit

/-- The instruction goes on to the next one, whether it takes an implicit edge or not. -/
def GoesOn (act : ι → Action) (a : ι) : Prop := act a = .next ∨ act a = .transfer true

/-- A block leaves through no normal edge, one, or a conditional edge and another, and its
own instructions perform its implicit edges; without a normal edge the last one transfers
control itself. -/
structure InForm (act : ι → Action) (c : Cfg ι π) (b : Nat) : Prop where
  shape : normalEdges c b = [] ∨ (∃ e, normalEdges c b = [e]) ∨
    ∃ e f, (normalEdges c b = [e, f] ∨ normalEdges c b = [f, e]) ∧
      (c.edgeView.edge e).data = .conditionalTrue ∧ (c.edgeView.edge f).data ≠ .conditionalTrue
  goesOn : normalEdges c b ≠ [] → ∀ a ∈ c.instructions b, GoesOn act a
  ends : normalEdges c b = [] → ∃ init last, c.instructions b = init ++ [last] ∧ (∀ a ∈ init, GoesOn act a) ∧
    act last = .transfer false
  carries : ∀ t, ImplicitEdge c b t → ∃ a ∈ c.instructions b, (act a).carries = true

/-- The stream can follow a block: if its conditional edge is alone, what is laid out next
is a successor, and if a jump precedes the conditional edge, another edge has its target. -/
structure Followed (c : Cfg ι π) (next : Option Nat) (b : Nat) : Prop where
  alone : ∀ e t, normalEdges c b = [e] → (c.edgeView.edge e).data = .conditionalTrue → next = some t →
    t ∈ c.successors b
  jumpFirst : ∀ e f, normalEdges c b = [e, f] → transfer (c.edgeView.edge e).data = .jump →
    (c.edgeView.edge f).data = .conditionalTrue →
      ∃ g ∈ c.outgoing b, g ≠ f ∧ (c.edgeView.edge g).target = (c.edgeView.edge f).target

theorem transfer_eq_branch {kind : EdgeKind} : transfer kind = .branch ↔ kind = .conditionalTrue := by
  cases kind <;> decide

variable {a : ι}

theorem GoesOn.action (h : GoesOn act a) : (act a).target = none ∧ (act a).continues = true := by
  rcases h with h | h <;> rw [h] <;> exact ⟨rfl, rfl⟩

theorem mem_normalEdges {e : Nat} :
    e ∈ normalEdges c b ↔ e ∈ c.outgoing b ∧ transfer (c.edgeView.edge e).data ≠ .implicit := by
  simp [normalEdges]

theorem departs_normalEdges (edges : List Nat) : ∀ {target : Option Nat}, Departs c next edges target t ↔
    Departs c next (edges.filter fun e => transfer (c.edgeView.edge e).data ≠ .implicit) target t := by
  induction edges with
  | nil => exact Iff.rfl
  | cons e edges ih =>
    intro target
    cases hkind : transfer (c.edgeView.edge e).data with
    | layout =>
      rw [filter_cons_of_pos (by simp [hkind]), Departs, Departs, hkind]
      exact ih
    | branch =>
      rw [filter_cons_of_pos (by simp [hkind]), Departs, Departs, hkind]
      exact or_congr_right ih
    | jump =>
      rw [filter_cons_of_pos (by simp [hkind]), Departs, Departs, hkind]
    | implicit =>
      rw [filter_cons_of_neg (by simp [hkind]), Departs, hkind]
      exact ih

theorem mem_successors_iff_departs (hc : c.WF) :
    t ∈ c.successors b ↔ ImplicitEdge c b t ∨ ∃ e ∈ normalEdges c b, (c.edgeView.edge e).target = t := by
  rw [hc.mem_successors_iff]
  constructor
  · rintro ⟨e, he, ht⟩
    by_cases hkind : transfer (c.edgeView.edge e).data = .implicit
    · exact Or.inl ⟨e, he, hkind, ht⟩
    · exact Or.inr ⟨e, mem_normalEdges.mpr ⟨he, hkind⟩, ht⟩
  · rintro (⟨e, he, _, ht⟩ | ⟨e, he, ht⟩)
    · exact ⟨e, he, ht⟩
    · exact ⟨e, (mem_normalEdges.mp he).1, ht⟩

theorem forall_mem_blockItems {P : ι → Prop} (hmarker : ∀ m, emitter.emitBlockStart b = some m → P m)
    (hcode : ∀ a ∈ c.instructions b, P a) : ∀ x ∈ blockItems c emitter b, P x.inst := by
  intro x hx
  rcases mem_append.mp hx with hx | hx
  · obtain ⟨m, hm, rfl⟩ := Option.map_eq_some_iff.mp (Option.mem_toList.mp hx)
    exact hmarker m hm
  · obtain ⟨⟨a, i⟩, ha, rfl⟩ := mem_map.mp hx
    exact hcode a (fst_mem_of_mem_zipIdx ha)

theorem exists_mem_blockItems (emitter : Emitter ι) (ha : a ∈ c.instructions b) : ∃ x ∈ blockItems c emitter b, x.inst = a := by
  obtain ⟨i, hi⟩ := getElem?_of_mem ha
  refine ⟨⟨a, b, i⟩, mem_append_right _ (mem_map.mpr ⟨(a, i), ?_, rfl⟩), rfl⟩
  exact mk_mem_zipIdx_iff_getElem?.mpr hi

theorem leaves_blockPiece (hemitter : emitter.Acts act) (h : InForm act c b)
    (hconditions : HasConditions c b (c.outgoing b)) :
    Leaves act (ImplicitEdge c b) (next = some ·) (blockPiece c emitter b next) t ↔
      ImplicitEdge c b t ∨ (normalEdges c b ≠ [] ∧ Departs c next (normalEdges c b) none t) := by
  have hitems : ∀ t, Leaves act (ImplicitEdge c b) (next = some ·) (transferItems c emitter b next) t ↔
      Departs c next (normalEdges c b) none t := by
    intro t
    exact (leaves_emittedItems hemitter none hconditions).trans (departs_normalEdges _)
  have hmarker : ∀ m, emitter.emitBlockStart b = some m → GoesOn act m := fun m hm => Or.inl (hemitter.marker b m hm)
  have hcarried : (∃ x ∈ blockItems c emitter b, (act x.inst).carries = true) ∧ ImplicitEdge c b t ↔
      ImplicitEdge c b t := by
    refine and_iff_right_of_imp fun hedge => ?_
    obtain ⟨a, ha, hcarries⟩ := h.carries t hedge
    obtain ⟨x, hx, rfl⟩ := exists_mem_blockItems emitter ha
    exact ⟨x, hx, hcarries⟩
  by_cases hnormal : normalEdges c b = []
  · -- the last instruction goes nowhere else
    obtain ⟨init, last, hcode, hinit, hlast⟩ := h.ends hnormal
    rw [iff_false_intro (fun h : normalEdges c b ≠ [] ∧ _ => h.1 hnormal), or_false]
    let head := ((emitter.emitBlockStart b).map (LinearInst.synthetic · b)).toList ++
      init.zipIdx.map fun entry => (⟨entry.1, b, entry.2⟩ : LinearInst ι)
    have hsplit : blockPiece c emitter b next =
        head ++ ⟨last, b, init.length⟩ :: transferItems c emitter b next := by
      simp [blockPiece, blockItems, hcode, head, zipIdx_append]
    have hhead : ∀ x ∈ head, GoesOn act x.inst := by
      intro x hx
      rcases mem_append.mp hx with hx | hx
      · obtain ⟨m, hm, rfl⟩ := Option.map_eq_some_iff.mp (Option.mem_toList.mp hx)
        exact hmarker m hm
      · obtain ⟨⟨a, i⟩, ha, rfl⟩ := mem_map.mp hx
        exact hinit a (fst_mem_of_mem_zipIdx ha)
    rw [hsplit, leaves_append, leaves_of_continues (fun x hx => (hhead x hx).action.1)
      (fun x hx => (hhead x hx).action.2), Leaves, hlast]
    simp only [Action.target, Action.carries, Action.continues, reduceCtorEq, Bool.false_eq_true, true_and, false_and,
      false_or, or_false]
    exact ⟨fun h => h.elim And.right id, Or.inr⟩
  · have hgoes := forall_mem_blockItems hmarker (h.goesOn hnormal)
    rw [blockPiece, leaves_append, leaves_of_continues (fun x hx => (hgoes x hx).action.1)
      (fun x hx => (hgoes x hx).action.2), hcarried, hitems, and_iff_right hnormal]

/-- A block's piece enters the block's successors exactly when the stream can follow it. -/
theorem departs_iff_followed (hc : c.WF) (h : InForm act c b) :
    (∀ t, ImplicitEdge c b t ∨ (normalEdges c b ≠ [] ∧ Departs c next (normalEdges c b) none t) ↔
      t ∈ c.successors b) ↔ Followed c next b := by
  have hnodup : (normalEdges c b).Nodup := (hc.graph.nodup .outgoing b).filter _
  constructor
  · intro hall
    refine ⟨fun e t hedges hkind hnext => (hall t).mp (Or.inr ?_), fun e f hedges hjump hkind => ?_⟩
    · rw [hedges, Departs, transfer_eq_branch.mpr hkind]
      exact ⟨cons_ne_nil _ _, Or.inr hnext⟩
    · have hf : f ∈ normalEdges c b := by rw [hedges]; simp
      have hsuccessor : (c.edgeView.edge f).target ∈ c.successors b :=
        hc.mem_successors_iff.mpr ⟨f, (mem_normalEdges.mp hf).1, rfl⟩
      rcases (hall _).mpr hsuccessor with ⟨g, hg, himplicit, htarget⟩ | ⟨_, hdeparts⟩
      · refine ⟨g, hg, ?_, htarget⟩
        rintro rfl
        exact (mem_normalEdges.mp hf).2 himplicit
      · rw [hedges, Departs, hjump] at hdeparts
        have he : e ∈ normalEdges c b := by rw [hedges]; simp
        refine ⟨e, (mem_normalEdges.mp he).1, ?_, hdeparts⟩
        rintro rfl
        rw [hedges] at hnodup
        simp at hnodup
  · intro hfollowed t
    rw [mem_successors_iff_departs hc]
    have hkinds : ∀ e ∈ normalEdges c b, transfer (c.edgeView.edge e).data ≠ .implicit :=
      fun e he => (mem_normalEdges.mp he).2
    rcases h.shape with hnil | ⟨e, he⟩ | ⟨e, f, hef, he, hf⟩
    · simp [hnil]
    · rw [he]
      cases hkind : transfer (c.edgeView.edge e).data with
      | layout => simp [Departs, hkind]
      | branch =>
        have hnext : next = some t → ImplicitEdge c b t ∨ (c.edgeView.edge e).target = t := by
          intro hnext
          have hsuccessor := hfollowed.alone e t he (transfer_eq_branch.mp hkind) hnext
          rw [mem_successors_iff_departs hc, he] at hsuccessor
          simpa using hsuccessor
        simp only [Departs, hkind, mem_singleton, exists_eq_left, ne_eq, reduceCtorEq, not_false_eq_true, true_and]
        exact ⟨fun h => h.elim Or.inl fun h => h.elim Or.inr hnext, Or.imp_right Or.inl⟩
      | jump => simp [Departs, hkind]
      | implicit => exact absurd hkind (hkinds e (by rw [he]; simp))
    · have hbranch := transfer_eq_branch.mpr he
      have hmem : f ∈ normalEdges c b := by rcases hef with hef | hef <;> rw [hef] <;> simp
      rcases hef with hef | hef
      · rw [hef]
        cases hkind : transfer (c.edgeView.edge f).data with
        | layout => simp [Departs, hbranch, hkind]
        | branch => exact absurd (transfer_eq_branch.mp hkind) hf
        | jump => simp [Departs, hbranch, hkind]
        | implicit => exact absurd hkind (hkinds f hmem)
      · cases hkind : transfer (c.edgeView.edge f).data with
        | layout =>
          rw [hef]
          simp [Departs, hbranch, hkind, or_comm]
        | branch => exact absurd (transfer_eq_branch.mp hkind) hf
        | jump =>
          -- the conditional edge is dropped, and another edge has its target
          obtain ⟨g, hg, hne, htarget⟩ := hfollowed.jumpFirst f e hef hkind he
          have hother : (c.edgeView.edge e).target = t → ImplicitEdge c b t ∨ (c.edgeView.edge f).target = t := by
            intro ht
            by_cases hgkind : transfer (c.edgeView.edge g).data = .implicit
            · exact Or.inl ⟨g, hg, hgkind, htarget.trans ht⟩
            · have hgmem := mem_normalEdges.mpr ⟨hg, hgkind⟩
              rw [hef] at hgmem
              obtain rfl : g = f := by simpa [hne] using hgmem
              exact Or.inr (htarget.trans ht)
          rw [hef]
          simp only [Departs, hkind, mem_cons, not_mem_nil, or_false, exists_eq_or_imp, exists_eq_left, ne_eq,
            reduceCtorEq, not_false_eq_true, true_and]
          exact ⟨Or.imp_right Or.inl, fun h => h.elim Or.inl fun h => h.elim Or.inr hother⟩
        | implicit => exact absurd hkind (hkinds f hmem)

end Blocks

/-! ## Runs -/

section Runs

variable {act : ι → Action} {c : Cfg ι π} {emitter : Emitter ι} {sorted : List Nat} {out : List (LinearInst ι)}

/-- The order lists every block that the entry leads to once, the entry first. -/
structure Lays (c : Cfg ι π) (sorted : List Nat) : Prop where
  nodup : sorted.Nodup
  entryFirst : sorted.head? = some c.entry
  reached : ∀ b, ReflTransGen (fun a b => b ∈ c.successors a) c.entry b → b ∈ sorted

/-- The machine enters exactly the blocks of the paths from the entry when the stream can
follow every block that these reach. -/
theorem linearize_follows (hc : c.WF) (hemitter : emitter.Acts act) {order : BlockOrder}
    (hform : ∀ b, ReflTransGen (fun a b => b ∈ c.successors a) c.entry b → InForm act c b)
    (horder : order.blocks c = some sorted) (hlays : Lays c sorted)
    (hout : linearize c order emitter = some (.ok out)) :
    (∀ l, Emits (StreamStep act c sorted out) (c.entry, 0) l ↔
        (c.entry :: l).IsChain fun a b => b ∈ c.successors a) ↔
      ∀ b, ReflTransGen (fun a b => b ∈ c.successors a) c.entry b → Followed c (layoutNext sorted b) b := by
  rw [linearize, horder] at hout
  have hpieces : ∀ b ∈ sorted, _ := fun b hb => piece_linearizeBlocks hlays.nodup (Option.some.inj hout) hb
  have henters : ∀ b, ReflTransGen (fun a b => b ∈ c.successors a) c.entry b → ∀ t,
      Emits (StreamStep act c sorted out) (b, 0) [t] ↔ ImplicitEdge c b t ∨
        (normalEdges c b ≠ [] ∧ Departs c (layoutNext sorted b) (normalEdges c b) none t) := by
    intro b hb t
    obtain ⟨hpiece, hconditions⟩ := hpieces b (hlays.reached b hb)
    rw [emits_iff_leaves (Nat.zero_le _), drop_zero, hpiece]
    exact leaves_blockPiece hemitter (hform b hb) hconditions
  have hchains : ∀ l, Emits (StreamStep act c sorted out) (c.entry, 0) l ↔ (c.entry :: l).IsChain
      fun a b => Emits (StreamStep act c sorted out) (a, 0) [b] := fun l => lands_streamStep.emits_iff
  simp only [hchains]
  rw [isChain_eq_iff]
  refine forall_congr' fun b => forall_congr' fun hb => ?_
  simp only [henters b hb]
  exact departs_iff_followed hc (hform b hb)

end Runs

/-! ## Two arms -/

/-- A block that branches to one block or goes to another, with the jump before the branch
or after it. -/
def twoArms (jumpFirst : Bool) : Cfg Action Unit :=
  Cfg.ofParts [[.next], [.transfer false], [.transfer false]]
    (if jumpFirst then [(0, 1, .unconditional, ()), (0, 2, .conditionalTrue, ())]
      else [(0, 2, .conditionalTrue, ()), (0, 1, .unconditional, ())])

def plainEmitter : Emitter Action := ⟨.jump, fun _ target => .branch target, fun _ => none⟩

theorem acts_plainEmitter : plainEmitter.Acts id := ⟨fun _ => rfl, fun _ _ => rfl, nofun⟩

variable {jumpFirst : Bool} {b : Nat}

theorem reached_twoArms
    (h : ReflTransGen (fun a b => b ∈ (twoArms jumpFirst).successors a) 0 b) : b = 0 ∨ b = 1 ∨ b = 2 := by
  induction h with
  | refl => exact Or.inl rfl
  | @tail a b _ hs ih =>
    have hfirst : ∀ t ∈ (twoArms jumpFirst).successors 0, t = 1 ∨ t = 2 := by cases jumpFirst <;> decide
    have hlast : (twoArms jumpFirst).successors 1 = [] ∧ (twoArms jumpFirst).successors 2 = [] := by
      cases jumpFirst <;> decide
    rcases ih with rfl | rfl | rfl
    · exact Or.inr (hfirst b hs)
    · rw [hlast.1] at hs
      cases hs
    · rw [hlast.2] at hs
      cases hs

/-- What the blocks become, in the order of their identities. -/
def twoArmsStream (jumpFirst : Bool) : List (LinearInst Action) :=
  ⟨.next, 0, 0⟩ ::
    (if jumpFirst then [.synthetic (.jump 1) 0, .synthetic (.branch 2) 0]
      else [.synthetic (.branch 2) 0, .synthetic (.jump 1) 0]) ++
    [⟨.transfer false, 1, 0⟩, ⟨.transfer false, 2, 0⟩]

theorem linearize_twoArms (jumpFirst : Bool) : linearize (twoArms jumpFirst) (.custom [0, 1, 2]) plainEmitter =
    some (.ok (twoArmsStream jumpFirst)) := by
  cases jumpFirst <;> rfl

theorem inForm_twoArms
    (h : ReflTransGen (fun a b => b ∈ (twoArms jumpFirst).successors a) 0 b) : InForm id (twoArms jumpFirst) b := by
  have hcarries : (∀ e ∈ (twoArms jumpFirst).outgoing b, transfer ((twoArms jumpFirst).edgeView.edge e).data ≠ .implicit) →
      ∀ t, ImplicitEdge (twoArms jumpFirst) b t → ∃ a ∈ (twoArms jumpFirst).instructions b, a.carries = true :=
    fun hnone t ⟨e, he, hkind, _⟩ => absurd hkind (hnone e he)
  rcases reached_twoArms h with rfl | rfl | rfl
  · have hcode : (twoArms jumpFirst).instructions 0 = [.next] := by cases jumpFirst <;> rfl
    refine ⟨Or.inr (Or.inr ?_), fun _ a ha => Or.inl ?_, fun hnil => ?_, hcarries ?_⟩
    · cases jumpFirst with
      | false => exact ⟨0, 1, Or.inl (by decide), by decide, by decide⟩
      | true => exact ⟨1, 0, Or.inr (by decide), by decide, by decide⟩
    · rw [hcode] at ha
      exact mem_singleton.mp ha
    · cases jumpFirst with
      | false => exact absurd hnil (by decide)
      | true => exact absurd hnil (by decide)
    · cases jumpFirst <;> decide
  all_goals
    refine ⟨Or.inl (by cases jumpFirst <;> decide), fun hne => ?_, fun _ => ⟨[], .transfer false, ?_, ?_, rfl⟩,
      hcarries (by cases jumpFirst <;> decide)⟩
    · exact absurd (by cases jumpFirst <;> decide) hne
    · cases jumpFirst <;> rfl
    · exact fun a ha => absurd ha not_mem_nil

theorem lays_twoArms : Lays (twoArms jumpFirst) [0, 1, 2] := by
  refine ⟨by decide, by cases jumpFirst <;> rfl, fun b hb => ?_⟩
  rcases reached_twoArms hb with rfl | rfl | rfl <;> decide

/-- Behind the branch the jump drops nothing. -/
theorem linearize_follows_twoArms :
    (∀ l, Emits (StreamStep id (twoArms false) [0, 1, 2] (twoArmsStream false)) ((twoArms false).entry, 0) l ↔
        ((twoArms false).entry :: l).IsChain fun a b => b ∈ (twoArms false).successors a) ↔
      ∀ b, ReflTransGen (fun a b => b ∈ (twoArms false).successors a) (twoArms false).entry b →
        Followed (twoArms false) (layoutNext [0, 1, 2] b) b :=
  linearize_follows (Cfg.wf_ofParts rfl) acts_plainEmitter (fun _ hb => inForm_twoArms hb) rfl lays_twoArms
    (linearize_twoArms false)

/-- Before the branch it does: the machine never enters the block that the branch goes to. -/
theorem linearize_twoArms_jumpFirst : (twoArms true).WF ∧ plainEmitter.Acts id ∧ Lays (twoArms true) [0, 1, 2] ∧
    (∀ b, ReflTransGen (fun a b => b ∈ (twoArms true).successors a) (twoArms true).entry b →
      InForm id (twoArms true) b) ∧
    linearize (twoArms true) (.custom [0, 1, 2]) plainEmitter = some (.ok (twoArmsStream true)) ∧
      ¬ ∀ l, Emits (StreamStep id (twoArms true) [0, 1, 2] (twoArmsStream true)) ((twoArms true).entry, 0) l ↔
        ((twoArms true).entry :: l).IsChain fun a b => b ∈ (twoArms true).successors a := by
  refine ⟨Cfg.wf_ofParts rfl, acts_plainEmitter, lays_twoArms, fun _ hb => inForm_twoArms hb, linearize_twoArms true,
    fun hall => ?_⟩
  have henters := (hall [2]).mpr (by decide)
  rw [emits_iff_leaves (Nat.zero_le _)] at henters
  rcases henters with h | ⟨h, _⟩ | ⟨_, h | ⟨h, _⟩ | ⟨h, _⟩⟩
  all_goals cases h

end CfgLib.Transform
