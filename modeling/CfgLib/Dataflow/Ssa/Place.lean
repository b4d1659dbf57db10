import CfgLib.Dataflow.Ssa.Frontier

/-!
# Placing phis

`dataflow/ssa/place.rs`: the phis of one variable, by a worklist over the frontier
table.  The worklist, the table and the per-query search agree on the iterated
frontier.
-/

namespace CfgLib

open CfgLib.Lib Relation Dominator List

/-- The placement of one variable's phis; the head of the worklist is popped next. -/
structure PhiSearch where
  /-- Blocks that already carry a phi for the variable. -/
  hasPhi : EpochMarks
  /-- Blocks that have been on the worklist. -/
  placed : EpochMarks
  worklist : List Nat
  /-- The blocks that got a phi, in order. -/
  phis : List Nat

namespace PhiSearch

/-- Place a phi at `block`, and queue it unless it has been queued. -/
def offer (s : PhiSearch) (block : Nat) : PhiSearch :=
  if s.hasPhi.isMarked block then s
  else
    let s := { s with hasPhi := s.hasPhi.mark block, phis := s.phis ++ [block] }
    if s.placed.isMarked block then s
    else { s with placed := s.placed.mark block, worklist := block :: s.worklist }

def step (runs : FrontierRuns) (s : PhiSearch) : Option PhiSearch :=
  match s.worklist with
  | [] => none
  | block :: rest => some ((runs.frontier block).foldl offer { s with worklist := rest })

/-- Clear the marks for a graph of `bound` blocks and queue the definitions. -/
def start (s : PhiSearch) (bound : Nat) (definitions : List Nat) : PhiSearch where
  hasPhi := (s.hasPhi.growTo bound).reset
  placed := definitions.foldl EpochMarks.mark (s.placed.growTo bound).reset
  worklist := definitions.reverse
  phis := []

/-- Place the phis of a variable defined in `definitions`; `unwound` are the unwind successors
that a definition reaches only in part. -/
def place (s : PhiSearch) (runs : FrontierRuns) (bound : Nat) (definitions unwound : List Nat) : PhiSearch :=
  iterate (step runs) (definitions.length + bound) (unwound.foldl offer (s.start bound definitions))

/-- The blocks that the frontiers of `D` and of such blocks hold. -/
inductive Lands (runs : FrontierRuns) (D : Nat → Prop) : Nat → Prop
  | of_def {a b : Nat} : D a → b ∈ runs.frontier a → Lands runs D b
  | of_member {a b : Nat} : Lands runs D a → b ∈ runs.frontier a → Lands runs D b

variable {runs : FrontierRuns} {b : Nat} {D : Nat → Prop}

theorem Lands.closed {a : Nat} (ha : D a ∨ Lands runs D a) (hb : b ∈ runs.frontier a) : Lands runs D b :=
  ha.elim (fun hd => .of_def hd hb) fun hm => .of_member hm hb

/-- Where the frontiers of a table are dominance frontiers they iterate alike. -/
theorem lands_iff {E : Nat → Nat → Prop} {root : Nat} (hruns : ∀ a b, b ∈ runs.frontier a ↔ InFrontier E root a b) :
    Lands runs D b ↔ IteratedFrontier E root D (fun _ => True) b := by
  constructor
  · intro h
    induction h with
    | of_def hd hf => exact .of_def hd ((hruns _ _).mp hf) trivial
    | of_member _ hf ih => exact .of_member ih ((hruns _ _).mp hf) trivial
  · intro h
    induction h with
    | of_def hd hf _ => exact .of_def hd ((hruns _ _).mpr hf)
    | of_member _ hf _ ih => exact .of_member ih ((hruns _ _).mpr hf)

section Place

variable {E : Nat → Nat → Prop} {root bound : Nat} {runs : FrontierRuns} {definitions unwound : List Nat}

structure Placing (bound : Nat) (runs : FrontierRuns) (definitions unwound : List Nat)
    (hole : Option Nat) (s : PhiSearch) : Prop where
  hasPhi_room : bound ≤ s.hasPhi.capacity
  placed_room : bound ≤ s.placed.capacity
  hasPhi_iff : ∀ v, s.hasPhi.isMarked v ↔ v ∈ s.phis
  placed_iff : ∀ v, s.placed.isMarked v ↔ v ∈ definitions ∨ v ∈ s.phis
  phis_lt : ∀ v ∈ s.phis, v < bound
  nodup : s.phis.Nodup
  sound : ∀ v ∈ s.phis, v ∈ unwound ∨
    Lands runs (fun d => d ∈ definitions ∨ d ∈ unwound) v
  queued : ∀ v ∈ s.worklist, s.placed.isMarked v
  read : ∀ v, s.placed.isMarked v → some v ≠ hole → v ∈ s.worklist ∨ ∀ b ∈ runs.frontier v, b ∈ s.phis

/-- Blocks to read, and blocks that may still be queued. -/
def remaining (bound : Nat) (s : PhiSearch) : Nat :=
  s.worklist.length + (List.range bound).countP fun v => !s.placed.isMarked v

variable {hole : Option Nat} {s : PhiSearch}

theorem Placing.offer (h : Placing bound runs definitions unwound hole s) {block : Nat} (hlt : block < bound)
    (hsound : block ∈ unwound ∨ Lands runs (fun d => d ∈ definitions ∨ d ∈ unwound) block) :
    Placing bound runs definitions unwound hole (s.offer block) ∧ block ∈ (s.offer block).phis ∧
      (∀ v ∈ s.phis, v ∈ (s.offer block).phis) ∧ remaining bound (s.offer block) ≤ remaining bound s := by
  unfold PhiSearch.offer
  split
  · next hphi => exact ⟨h, (h.hasPhi_iff block).mp hphi, fun _ hv => hv, Nat.le_refl _⟩
  · next hphi =>
    have hout : block ∉ s.phis := fun hm => hphi ((h.hasPhi_iff block).mpr hm)
    have hmem : ∀ v, v ∈ s.phis ++ [block] ↔ v = block ∨ v ∈ s.phis := fun v => by
      rw [mem_append, mem_singleton, or_comm]
    have hkept : ∀ v ∈ s.phis, v ∈ s.phis ++ [block] := fun v hv => (hmem v).mpr (Or.inr hv)
    have hroom : bound ≤ (s.hasPhi.mark block).capacity := by
      rw [EpochMarks.capacity_mark]
      exact h.hasPhi_room
    have hhas : ∀ v, (s.hasPhi.mark block).isMarked v ↔ v ∈ s.phis ++ [block] := by
      intro v
      rw [s.hasPhi.isMarked_mark (Nat.lt_of_lt_of_le hlt h.hasPhi_room), Bool.or_eq_true,
        decide_eq_true_iff, h.hasPhi_iff, hmem]
    have hphis_lt : ∀ v ∈ s.phis ++ [block], v < bound := fun v hv =>
      ((hmem v).mp hv).elim (fun he => he ▸ hlt) (h.phis_lt v)
    have hnodup : (s.phis ++ [block]).Nodup := nodup_append.mpr ⟨h.nodup, nodup_singleton _,
      fun a ha c hc heq => hout (by rw [heq, mem_singleton.mp hc] at ha; exact ha)⟩
    have hsound' : ∀ v ∈ s.phis ++ [block], v ∈ unwound ∨
        Lands runs (fun d => d ∈ definitions ∨ d ∈ unwound) v := fun v hv =>
      ((hmem v).mp hv).elim (fun he => he ▸ hsound) (h.sound v)
    have hread : ∀ v, s.placed.isMarked v → some v ≠ hole →
        v ∈ s.worklist ∨ ∀ b ∈ runs.frontier v, b ∈ s.phis ++ [block] := fun v hv hne =>
      (h.read v hv hne).imp_right fun hr b hb => hkept b (hr b hb)
    dsimp only
    split
    · next hplaced =>
      refine ⟨⟨hroom, h.placed_room, hhas, fun v => ?_, hphis_lt, hnodup, hsound', h.queued, hread⟩,
        (hmem block).mpr (Or.inl rfl), hkept, Nat.le_refl _⟩
      rw [h.placed_iff, hmem]
      refine ⟨Or.imp_right Or.inr, ?_⟩
      rintro (hv | rfl | hv)
      · exact Or.inl hv
      · exact (h.placed_iff v).mp hplaced
      · exact Or.inr hv
    · next hplaced =>
      have hmark := s.placed.isMarked_mark (Nat.lt_of_lt_of_le hlt h.placed_room)
      have hmarked : ∀ v, (s.placed.mark block).isMarked v ↔ v = block ∨ s.placed.isMarked v := fun v => by
        rw [hmark, Bool.or_eq_true, decide_eq_true_iff]
      refine ⟨⟨hroom, ?_, hhas, fun v => ?_, hphis_lt, hnodup, hsound', fun v hv => ?_,
        fun v hv hne => ?_⟩, (hmem block).mpr (Or.inl rfl), hkept, ?_⟩
      · rw [EpochMarks.capacity_mark]
        exact h.placed_room
      · rw [hmarked, h.placed_iff, hmem, or_left_comm]
      · exact (hmarked v).mpr ((mem_cons.mp hv).imp_right (h.queued v))
      · rcases (hmarked v).mp hv with rfl | hv
        · exact Or.inl mem_cons_self
        · exact (hread v hv hne).imp_left (mem_cons_of_mem block)
      · have hcount := DominatorTree.countP_insert (l := List.range bound)
          (p := fun v => !(s.placed.mark block).isMarked v) (q := fun v => !s.placed.isMarked v)
          nodup_range (mem_range.mpr hlt) (by simp [hmark]) (fun v => by
            rw [Bool.not_eq_true', Bool.not_eq_true', hmark, Bool.or_eq_false_iff, decide_eq_false_iff_not]
            by_cases hv : v = block
            · subst hv
              simpa using hplaced
            · simp [hv])
        unfold remaining
        dsimp only
        rw [hcount, length_cons]
        omega

theorem Placing.offers {l : List Nat} (hl : ∀ block ∈ l, block < bound ∧ (block ∈ unwound ∨
      Lands runs (fun d => d ∈ definitions ∨ d ∈ unwound) block)) :
    ∀ {s : PhiSearch}, Placing bound runs definitions unwound hole s → ∃ s',
      l.foldl PhiSearch.offer s = s' ∧ Placing bound runs definitions unwound hole s' ∧
      (∀ block ∈ l, block ∈ s'.phis) ∧ (∀ v ∈ s.phis, v ∈ s'.phis) ∧
      remaining bound s' ≤ remaining bound s := by
  induction l with
  | nil => exact fun {s} h => ⟨s, rfl, h, fun _ hb => absurd hb not_mem_nil, fun _ hv => hv,
      Nat.le_refl _⟩
  | cons block l ih =>
    intro s h
    obtain ⟨hlt, hsound⟩ := hl block mem_cons_self
    obtain ⟨h₁, hplaced, hkept₁, hle₁⟩ := h.offer hlt hsound
    obtain ⟨s', hrun, h', hall, hkept, hle⟩ := ih (fun b hb => hl b (mem_cons_of_mem block hb)) h₁
    refine ⟨s', hrun, h', fun b hb => ?_, fun v hv => hkept v (hkept₁ v hv), hle.trans hle₁⟩
    rcases mem_cons.mp hb with rfl | hb
    · exact hkept b hplaced
    · exact hall b hb

theorem Placing.step (hlt : ∀ a b, b ∈ runs.frontier a → b < bound) {s' : PhiSearch}
    (h : Placing bound runs definitions unwound none s) (hs : s.step runs = some s') :
    Placing bound runs definitions unwound none s' ∧ (∀ v ∈ s.phis, v ∈ s'.phis) ∧
      remaining bound s' < remaining bound s := by
  unfold PhiSearch.step at hs
  split at hs
  · cases hs
  · next block rest hw =>
    cases hs
    have hblock : s.placed.isMarked block := h.queued block (by rw [hw]; exact mem_cons_self)
    have hroot : (block ∈ definitions ∨ block ∈ unwound) ∨
        Lands runs (fun d => d ∈ definitions ∨ d ∈ unwound) block := by
      rcases (h.placed_iff block).mp hblock with hd | hm
      · exact Or.inl (Or.inl hd)
      · exact (h.sound block hm).imp_left Or.inr
    have hstart : Placing bound runs definitions unwound (some block) { s with worklist := rest } := by
      refine ⟨h.hasPhi_room, h.placed_room, h.hasPhi_iff, h.placed_iff, h.phis_lt, h.nodup, h.sound,
        fun v hv => h.queued v (by rw [hw]; exact mem_cons_of_mem block hv), fun v hv hne => ?_⟩
      refine (h.read v hv (fun he => by cases he)).imp_left fun hmem => ?_
      rw [hw] at hmem
      exact (mem_cons.mp hmem).resolve_left fun he => hne (congrArg some he)
    obtain ⟨s', hrun, h', hall, hkept, hle⟩ := hstart.offers (l := runs.frontier block) fun b hb => by
      exact ⟨hlt block b hb, Or.inr (Lands.closed hroot hb)⟩
    rw [hrun]
    refine ⟨⟨h'.hasPhi_room, h'.placed_room, h'.hasPhi_iff, h'.placed_iff, h'.phis_lt, h'.nodup, h'.sound,
      h'.queued, fun v hv _ => ?_⟩, hkept, ?_⟩
    · by_cases hvb : v = block
      · exact Or.inr (hvb ▸ hall)
      · exact h'.read v hv fun he => hvb (Option.some.inj he)
    · refine Nat.lt_of_le_of_lt hle ?_
      unfold remaining
      dsimp only
      rw [hw, length_cons]
      omega

/-- The phis lie at the unwind successors and where the frontiers of these and the definitions lead. -/
theorem place_lands (hlt : ∀ a b, b ∈ runs.frontier a → b < bound) (hdefinitions : ∀ d ∈ definitions, d < bound)
    (hunwound : ∀ u ∈ unwound, u < bound) (s : PhiSearch) :
    (∀ b, b ∈ (s.place runs bound definitions unwound).phis ↔ b ∈ unwound ∨
      Lands runs (fun d => d ∈ definitions ∨ d ∈ unwound) b) ∧
    (s.place runs bound definitions unwound).phis.Nodup := by
  have hroom : ∀ m : EpochMarks, bound ≤ (m.growTo bound).reset.capacity := fun m => by
    rw [EpochMarks.capacity_reset, EpochMarks.capacity_growTo]
    exact Nat.le_max_right _ _
  obtain ⟨hcapacity, hmarked⟩ := EpochMarks.foldl_mark definitions (s.placed.growTo bound).reset
    fun d hd => Nat.lt_of_lt_of_le (hdefinitions d hd) (hroom _)
  have hplaced : ∀ v, (s.start bound definitions).placed.isMarked v ↔ v ∈ definitions := fun v => by
    refine (hmarked v).trans ⟨fun hv => hv.resolve_right fun hm => ?_, Or.inl⟩
    rw [EpochMarks.isMarked_reset] at hm
    cases hm
  have hstart : Placing bound runs definitions unwound none (s.start bound definitions) := by
    refine ⟨hroom _, hcapacity ▸ hroom _, fun v => ?_, fun v => ?_, fun _ hv => absurd hv not_mem_nil,
      nodup_nil, fun _ hv => absurd hv not_mem_nil,
      fun v hv => (hplaced v).mpr (mem_reverse.mp hv), fun v hv _ => Or.inl ?_⟩
    · refine ⟨fun hm => ?_, fun hv => absurd hv not_mem_nil⟩
      rw [show (s.start bound definitions).hasPhi.isMarked v = false from EpochMarks.isMarked_reset _ v]
        at hm
      cases hm
    · rw [hplaced]
      exact ⟨Or.inl, fun hv => hv.resolve_right not_mem_nil⟩
    · exact mem_reverse.mpr ((hplaced v).mp hv)
  have hsize : remaining bound (s.start bound definitions) ≤ definitions.length + bound := by
    unfold remaining
    refine Nat.add_le_add (le_of_eq length_reverse) ?_
    exact countP_le_length.trans (le_of_eq length_range)
  obtain ⟨s₁, hrun₁, h₁, hall₁, _, hle₁⟩ := hstart.offers fun u hu => ⟨hunwound u hu, Or.inl hu⟩
  obtain ⟨⟨h, hall⟩, hend⟩ := @iterate_spec _ (step runs)
    (fun s => Placing bound runs definitions unwound none s ∧ ∀ u ∈ unwound, u ∈ s.phis)
    (remaining bound) (fun s s' h hs => by
      obtain ⟨h', hkept, hlt⟩ := h.1.step hlt hs
      exact ⟨⟨h', fun u hu => hkept u (h.2 u hu)⟩, hlt⟩)
    (definitions.length + bound) s₁ ⟨h₁, hall₁⟩ (hle₁.trans hsize)
  unfold place
  rw [hrun₁]
  generalize iterate (PhiSearch.step runs) (definitions.length + bound) s₁ = s₂ at h hall hend
  have hempty : s₂.worklist = [] := by
    unfold PhiSearch.step at hend
    split at hend
    · next hw => exact hw
    · cases hend
  have hclosed : ∀ a b, (a ∈ definitions ∨ a ∈ unwound) ∨ a ∈ s₂.phis → b ∈ runs.frontier a →
      b ∈ s₂.phis := by
    intro a b ha hf
    have hq : s₂.placed.isMarked a := (h.placed_iff a).mpr (by
      rcases ha with (hd | hu) | hm
      · exact Or.inl hd
      · exact Or.inr (hall a hu)
      · exact Or.inr hm)
    have hread := (h.read a hq fun he => by cases he).resolve_left (by
      rw [hempty]
      exact not_mem_nil)
    exact hread b hf
  refine ⟨fun b => ⟨h.sound b, ?_⟩, h.nodup⟩
  rintro (hu | hf)
  · exact hall b hu
  · induction hf with
    | of_def hd hf => exact hclosed _ _ (Or.inl hd) hf
    | of_member _ hf ih => exact hclosed _ _ (Or.inr ih) hf

theorem place_spec (hruns : ∀ a b, b ∈ runs.frontier a ↔ InFrontier E root a b)
    (hreach : ∀ v, ReflTransGen E root v → v < bound) (hdefinitions : ∀ d ∈ definitions, d < bound)
    (hunwound : ∀ u ∈ unwound, u < bound) (s : PhiSearch) :
    (∀ b, b ∈ (s.place runs bound definitions unwound).phis ↔ b ∈ unwound ∨
      IteratedFrontier E root (fun d => d ∈ definitions ∨ d ∈ unwound) (fun _ => True) b) ∧
    (s.place runs bound definitions unwound).phis.Nodup := by
  have hlt : ∀ a b, b ∈ runs.frontier a → b < bound := fun a b hb => hreach b ((hruns a b).mp hb).1
  obtain ⟨hmem, hnodup⟩ := place_lands hlt hdefinitions hunwound s
  refine ⟨fun b => ?_, hnodup⟩
  rw [hmem, lands_iff hruns]

end Place

end PhiSearch

/-! ## The three computations -/

structure FrontiersCorrect (g : RootedView) (t : DominatorTree) : Prop where
  frontier : ∀ a b, b ∈ t.frontier g.toGraphView a ↔ InFrontier g.Edge g.root a b
  table : ∀ (old : FrontierRuns) a,
    (∀ b, b ∈ (old.rebuild g.toGraphView t).frontier a ↔ b ∈ t.frontier g.toGraphView a) ∧
      ((old.rebuild g.toGraphView t).frontier a).Pairwise (· < ·)
  closed : ∀ scratch defs a b, a ∈ defs ∨ a ∈ (t.iteratedFrontier g.toGraphView scratch defs none).2 →
    b ∈ t.frontier g.toGraphView a → b ∈ (t.iteratedFrontier g.toGraphView scratch defs none).2
  least : ∀ scratch defs (S : Nat → Prop),
    (∀ a b, a ∈ defs ∨ S a → b ∈ t.frontier g.toGraphView a → S b) →
    ∀ b ∈ (t.iteratedFrontier g.toGraphView scratch defs none).2, S b
  placed : ∀ scratch (old : FrontierRuns) (search : PhiSearch) defs, (∀ d ∈ defs, d ∈ g.nodeIds) → ∀ b,
    b ∈ (search.place (old.rebuild g.toGraphView t) g.nodeBound defs []).phis ↔
      b ∈ (t.iteratedFrontier g.toGraphView scratch defs none).2

/-- Frontiers per query, in the table and iterated all follow the definition. -/
theorem frontiers_correct {g : RootedView} (hg : g.Lawful) (hroot : g.root ∈ g.nodeIds) {t : DominatorTree}
    (h : DominatorTree.compute g = some t) : FrontiersCorrect g t := by
  have htree := DominatorTree.isTreeOf_of_compute hg h
  have hfacts := htree.facts hg
  have hdom := htree.isDominance
  have hfrontier : ∀ a b, b ∈ t.frontier g.toGraphView a ↔ InFrontier g.Edge g.root a b := fun a b =>
    DominatorTree.mem_frontier_iff hfacts
  have hiterated : ∀ scratch defs b, b ∈ (t.iteratedFrontier g.toGraphView scratch defs none).2 ↔
      IteratedFrontier g.Edge g.root (· ∈ defs) (DominatorTree.Accepts none) b := fun scratch defs b =>
    (DominatorTree.iteratedFrontier_spec hfacts scratch defs b).1
  have hall : ∀ v, DominatorTree.Accepts none v := fun v accepts ha => (by cases ha)
  refine ⟨hfrontier, fun old a => ?_, fun scratch defs a b ha hb => ?_,
    fun scratch defs S hS b hb => ?_, fun scratch old search defs hdefs b => ?_⟩
  · obtain ⟨hmem, hsorted⟩ := FrontierRuns.rebuild_spec hg hroot hfacts hdom old a
    exact ⟨fun b => (hmem b).trans (hfrontier a b).symm, hsorted⟩
  · rw [hiterated] at ha ⊢
    exact IteratedFrontier.closed ha ((hfrontier a b).mp hb) (hall b)
  · rw [hiterated] at hb
    exact IteratedFrontier.least (fun a b ha hf _ => hS a b ha ((hfrontier a b).mpr hf)) hb
  · have hruns := fun a => (FrontierRuns.rebuild_spec hg hroot hfacts hdom old a).1
    rw [(PhiSearch.place_spec hruns hfacts.lt (fun d hd => hg.nodeIds_lt d (hdefs d hd))
      (fun u hu => absurd hu not_mem_nil) search).1 b, hiterated]
    constructor
    · rintro (hu | hf)
      · exact absurd hu not_mem_nil
      · exact IteratedFrontier.least (fun a b ha hf _ => IteratedFrontier.closed
          (ha.imp_left fun hd => hd.resolve_right not_mem_nil) hf (hall b)) hf
    · exact fun hf => Or.inr (IteratedFrontier.least (fun a b ha hf _ => IteratedFrontier.closed
        (ha.imp_left Or.inl) hf trivial) hf)

theorem frontiers_correct_sampleView :
    ∃ t, DominatorTree.compute ⟨DominatorTree.sampleView, 0⟩ = some t ∧
      3 ∈ t.frontier DominatorTree.sampleView 3 := by
  obtain ⟨t, _, _, _, ht, _⟩ := DominatorTree.computeFromIn_isDominance
    DominatorTree.lawful_sampleView (by decide) (by decide : 0 < DominatorTree.sampleView.nodeBound) .new
  have h := frontiers_correct (g := ⟨DominatorTree.sampleView, 0⟩) DominatorTree.lawful_sampleView
    (by decide) ht
  have hentry : DominatorTree.sampleView.Edge 0 1 := ⟨by decide, by decide⟩
  have hloop : DominatorTree.sampleView.Edge 3 3 := ⟨by decide, by decide⟩
  have hreach : ReflTransGen DominatorTree.sampleView.Edge 0 3 :=
    (ReflTransGen.single hentry).tail ⟨by decide, by decide⟩
  exact ⟨t, ht, (h.frontier 3 3).mpr
    ⟨hreach, fun hs => hs.1 rfl, 3, hreach, hloop, Dominates.refl _ _ _⟩⟩

end CfgLib
