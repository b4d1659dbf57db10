import CfgLib.Lib.Simulation

/-!
# Block flow

Straight-line code in blocks, with two ways out of one: a normal edge from the
block's end and an unwind edge from before any throwing instruction.  Three
edits keep every trace: folding a block into the only block that leads to it,
bypassing an empty block, and forgetting blocks that control never enters.
-/

namespace CfgLib.Lib

/-- The code of each block and the blocks control can go to. -/
structure Flow (ι : Type) where
  code : Nat → Option (List ι)
  normal : Nat → Nat → Prop
  unwind : Nat → Nat → Prop

namespace Flow

variable {ι : Type} {throws : ι → Bool} {F F' : Flow ι}

/-- One step from a block and an index into its code.  An unwind leaves before
the throwing instruction takes effect. -/
inductive Step (F : Flow ι) (throws : ι → Bool) : Transition (Nat × Nat) ι
  | exec {b i : Nat} {l : List ι} {a : ι} :
    F.code b = some l → l[i]? = some a → Step F throws (b, i) (some a) (b, i + 1)
  | leave {b t : Nat} {l : List ι} :
    F.code b = some l → F.normal b t → Step F throws (b, l.length) none (t, 0)
  | raise {b t i : Nat} {l : List ι} {a : ι} :
    F.code b = some l → l[i]? = some a → throws a = true → F.unwind b t →
      Step F throws (b, i) none (t, 0)

variable {l : List ι} {a b entry i : Nat} {x : ι}

theorem Step.leave_at {t : Nat} (hc : F.code b = some l) (hi : i = l.length)
    (ht : F.normal b t) : Step F throws (b, i) none (t, 0) := by
  subst hi
  exact .leave hc ht

/-! ## Folding -/

/-- `F'` is `F` with block `t` folded into `s`, the only block that leads to it. -/
structure Folds (F F' : Flow ι) (s t : Nat) (x y : List ι) : Prop where
  ne : s ≠ t
  source : F.code s = some x
  target : F.code t = some y
  merged : F'.code s = some (x ++ y)
  code_other : ∀ b, b ≠ s → b ≠ t → F'.code b = F.code b
  normal_source : ∀ b, F.normal s b ↔ b = t
  unwind_source : ∀ b, ¬ F.unwind s b
  normal_target : ∀ a, F.normal a t → a = s
  unwind_target : ∀ a, ¬ F.unwind a t
  normal_merged : ∀ b, F'.normal s b ↔ F.normal t b
  unwind_merged : ∀ b, F'.unwind s b ↔ F.unwind t b
  normal_other : ∀ a b, a ≠ s → a ≠ t → (F'.normal a b ↔ F.normal a b)
  unwind_other : ∀ a b, a ≠ s → a ≠ t → (F'.unwind a b ↔ F.unwind a b)

namespace Folds

variable {s t : Nat} {x y : List ι}

/-- A position of the folded flow for each position of the original. -/
def Related (s t : Nat) (x : List ι) (p q : Nat × Nat) : Prop :=
  (p.1 = t ∧ q = (s, x.length + p.2)) ∨ (p.1 ≠ t ∧ q = p ∧ (p.1 = s → p.2 ≤ x.length))

variable {b j : Nat} {p : Nat × Nat}

theorem related_of_ne {i : Nat} (hb : b ≠ t) (hi : b = s → i ≤ x.length) :
    Related s t x (b, i) (b, i) :=
  Or.inr ⟨hb, rfl, hi⟩

theorem related_start (hb : b ≠ t) : Related s t x (b, 0) (b, 0) :=
  related_of_ne hb fun _ => Nat.zero_le _

/-- The one silent step that folding swallows. -/
def pending (s : Nat) (x : List ι) (p : Nat × Nat) : Nat :=
  if p = (s, x.length) then 1 else 0

theorem forward (h : Folds F F' s t x y) :
    Simulation (Step F throws) (Step F' throws) (Related s t x) (pending s x) := by
  constructor
  intro p q o p' hrel hstep
  cases hstep with
  | @exec b i l a hc ha =>
    rcases hrel with ⟨rfl, rfl⟩ | ⟨hb, rfl, hi⟩
    · -- inside the folded block
      rw [h.target] at hc
      cases hc
      refine Or.inl ⟨(s, x.length + (i + 1)), Plus.single (.exec h.merged ?_), Or.inl ⟨rfl, rfl⟩⟩
      rw [List.getElem?_append_right (by omega), Nat.add_sub_cancel_left]
      exact ha
    · refine Or.inl ⟨(b, i + 1), Plus.single ?_, related_of_ne hb ?_⟩
      · by_cases hs : b = s
        · subst hs
          rw [h.source] at hc
          cases hc
          refine .exec h.merged ?_
          rwa [List.getElem?_append_left (List.getElem?_eq_some_iff.mp ha).1]
        · exact .exec ((h.code_other b hs hb).trans hc) ha
      · rintro rfl
        rw [h.source] at hc
        cases hc
        exact (List.getElem?_eq_some_iff.mp ha).1
  | @leave b t' l hc hn =>
    rcases hrel with ⟨rfl, rfl⟩ | ⟨hb, rfl, hi⟩
    · rw [h.target] at hc
      cases hc
      have ht' : t' ≠ b := by
        rintro rfl
        exact h.ne (h.normal_target _ hn).symm
      refine Or.inl ⟨(t', 0), Plus.single ?_, related_start ht'⟩
      exact .leave_at h.merged (by simp) ((h.normal_merged t').mpr hn)
    · by_cases hs : b = s
      · -- the connecting edge is the silent step of the measure
        subst hs
        rw [h.source] at hc
        cases hc
        obtain rfl := (h.normal_source t').mp hn
        refine Or.inr ⟨rfl, Or.inl ⟨rfl, by simp⟩, ?_⟩
        have hne : (t', 0) ≠ (b, x.length) := fun he => hb (Prod.mk.inj he).1.symm
        simp [pending, hne]
      · have ht' : t' ≠ t := by
          rintro rfl
          exact hs (h.normal_target b hn)
        refine Or.inl ⟨(t', 0), Plus.single ?_, related_start ht'⟩
        exact .leave ((h.code_other b hs hb).trans hc) ((h.normal_other b t' hs hb).mpr hn)
  | @raise b t' i l a hc ha hthrow hu =>
    have ht' : t' ≠ t := by
      rintro rfl
      exact h.unwind_target b hu
    rcases hrel with ⟨rfl, rfl⟩ | ⟨hb, rfl, hi⟩
    · rw [h.target] at hc
      cases hc
      refine Or.inl ⟨(t', 0), Plus.single (.raise h.merged ?_ hthrow ((h.unwind_merged t').mpr hu)),
        related_start ht'⟩
      rw [List.getElem?_append_right (by omega), Nat.add_sub_cancel_left]
      exact ha
    · have hs : b ≠ s := by
        rintro rfl
        exact h.unwind_source t' hu
      refine Or.inl ⟨(t', 0), Plus.single ?_, related_start ht'⟩
      exact .raise ((h.code_other b hs hb).trans hc) ha hthrow ((h.unwind_other b t' hs hb).mpr hu)

/-- A step of the folded block at or after the seam is a step of the original
target, after the connecting edge where control has not taken it yet. -/
theorem plus_of_target (h : Folds F F' s t x y) {p' : Nat × Nat} {o : Option ι}
    (hrel : Related s t x p (s, j)) (hj : x.length ≤ j)
    (hstep : Step F throws (t, j - x.length) o p') : Plus (Step F throws) p o.toList p' := by
  obtain ⟨b, i⟩ := p
  rcases hrel with ⟨hb, heq⟩ | ⟨hb, heq, hi⟩
  · obtain rfl : b = t := hb
    obtain ⟨_, rfl⟩ := Prod.mk.inj heq
    rw [Nat.add_sub_cancel_left] at hstep
    exact Plus.single hstep
  · obtain ⟨rfl, rfl⟩ := Prod.mk.inj heq
    have hle : j ≤ x.length := hi rfl
    obtain rfl : j = x.length := by omega
    rw [Nat.sub_self] at hstep
    exact Plus.silent_single (.leave h.source ((h.normal_source t).mpr rfl)) hstep

theorem related_before (hrel : Related s t x p (s, j)) (hj : j < x.length) : p = (s, j) := by
  rcases hrel with ⟨_, heq⟩ | ⟨_, heq, _⟩
  · obtain ⟨_, rfl⟩ := Prod.mk.inj heq
    omega
  · exact heq.symm

theorem backward (h : Folds F F' s t x y)
    (hsafe : (∀ a ∈ x, throws a = false) ∨ ∀ b, ¬ F.unwind t b) :
    Simulation (Step F' throws) (Step F throws) (fun q p => Related s t x p q) (fun _ => 0) := by
  constructor
  intro q p o q' hrel hstep
  left
  -- a position in another block is related to itself only
  have hother : ∀ {b i}, b ≠ s → Related s t x p (b, i) → p = (b, i) ∧ b ≠ t := by
    rintro b i hb (⟨_, heq⟩ | ⟨hp, heq, _⟩)
    · exact absurd (Prod.mk.inj heq).1 hb
    · subst heq
      exact ⟨rfl, hp⟩
  have hstart : ∀ {b}, b ≠ t → Related s t x (b, 0) (b, 0) := fun hb => related_start hb
  cases hstep with
  | @exec b j l a hc ha =>
    by_cases hb : b = s
    · subst hb
      rw [h.merged] at hc
      cases hc
      by_cases hj : j < x.length
      · obtain rfl := related_before hrel hj
        rw [List.getElem?_append_left hj] at ha
        exact ⟨(b, j + 1), Plus.single (.exec h.source ha), related_of_ne h.ne fun _ => hj⟩
      · rw [List.getElem?_append_right (by omega)] at ha
        refine ⟨(t, j - x.length + 1), h.plus_of_target hrel (by omega) (.exec h.target ha), ?_⟩
        exact Or.inl ⟨rfl, by simp only [Prod.mk.injEq, true_and]; omega⟩
    · obtain ⟨rfl, hbt⟩ := hother hb hrel
      exact ⟨(b, j + 1), Plus.single (.exec ((h.code_other b hb hbt).symm.trans hc) ha),
        related_of_ne hbt fun he => absurd he hb⟩
  | @leave b t' l hc hn =>
    by_cases hb : b = s
    · subst hb
      rw [h.merged] at hc
      cases hc
      have hn' := (h.normal_merged t').mp hn
      have ht' : t' ≠ t := by
        rintro rfl
        exact h.ne (h.normal_target _ hn').symm
      exact ⟨(t', 0), h.plus_of_target hrel (by simp) (.leave_at h.target (by simp) hn'), hstart ht'⟩
    · obtain ⟨rfl, hbt⟩ := hother hb hrel
      have hn' := (h.normal_other b t' hb hbt).mp hn
      have ht' : t' ≠ t := by
        rintro rfl
        exact hb (h.normal_target b hn')
      exact ⟨(t', 0), Plus.single (.leave ((h.code_other b hb hbt).symm.trans hc) hn'), hstart ht'⟩
  | @raise b t' j l a hc ha hthrow hu =>
    by_cases hb : b = s
    · subst hb
      rw [h.merged] at hc
      cases hc
      have hu' := (h.unwind_merged t').mp hu
      have ht' : t' ≠ t := by
        rintro rfl
        exact h.unwind_target _ hu'
      -- the source's own instructions do not throw into the target's handlers
      have hj : x.length ≤ j := by
        rcases hsafe with hsafe | hsafe
        · by_contra hlt
          rw [List.getElem?_append_left (by omega)] at ha
          rw [hsafe a (List.mem_of_getElem? ha)] at hthrow
          cases hthrow
        · exact absurd hu' (hsafe t')
      rw [List.getElem?_append_right hj] at ha
      exact ⟨(t', 0), h.plus_of_target hrel hj (.raise h.target ha hthrow hu'), hstart ht'⟩
    · obtain ⟨rfl, hbt⟩ := hother hb hrel
      have hu' := (h.unwind_other b t' hb hbt).mp hu
      have ht' : t' ≠ t := by
        rintro rfl
        exact h.unwind_target b hu'
      exact ⟨(t', 0), Plus.single (.raise ((h.code_other b hb hbt).symm.trans hc) ha hthrow hu'),
        hstart ht'⟩

/-- Folding keeps every trace when no instruction of the source throws or no
unwind edge leaves the target. -/
theorem sameTraces (h : Folds F F' s t x y)
    (hsafe : (∀ a ∈ x, throws a = false) ∨ ∀ b, ¬ F.unwind t b) {entry : Nat} (he : entry ≠ t) :
    SameTraces (Step F throws) (entry, 0) (Step F' throws) (entry, 0) :=
  h.forward.sameTraces (h.backward hsafe) (related_start he)

end Folds

/-! ## Bypassing -/

/-- `F'` is `F` with every edge into the empty block `d` led on to `t`. -/
structure Bypasses (F F' : Flow ι) (d t : Nat) : Prop where
  ne : t ≠ d
  empty : F.code d = some []
  code_other : ∀ b, b ≠ d → F'.code b = F.code b
  normal_source : ∀ b, F.normal d b ↔ b = t
  normal_iff : ∀ a b, a ≠ d → (F'.normal a b ↔ F.normal a b ∧ b ≠ d ∨ F.normal a d ∧ b = t)
  unwind_iff : ∀ a b, a ≠ d → (F'.unwind a b ↔ F.unwind a b ∧ b ≠ d ∨ F.unwind a d ∧ b = t)

namespace Bypasses

variable {d t : Nat}

def Related (d t : Nat) (p q : Nat × Nat) : Prop :=
  (p = (d, 0) ∧ q = (t, 0)) ∨ (p.1 ≠ d ∧ q = p)

variable {a b : Nat} {E E' : Nat → Nat → Prop}

/-- Where an edge leads once `d` is bypassed. -/
theorem related_target (h : Bypasses F F' d t) (hiff : ∀ b, E' a b ↔ E a b ∧ b ≠ d ∨ E a d ∧ b = t) (he : E a b) :
    ∃ b', E' a b' ∧ Related d t (b, 0) (b', 0) := by
  by_cases hb : b = d
  · subst hb
    exact ⟨t, (hiff t).mpr (Or.inr ⟨he, rfl⟩), Or.inl ⟨rfl, rfl⟩⟩
  · exact ⟨b, (hiff b).mpr (Or.inl ⟨he, hb⟩), Or.inr ⟨hb, rfl⟩⟩

theorem forward (h : Bypasses F F' d t) : Simulation (Step F throws) (Step F' throws) (Related d t)
      (fun p => if p.1 = d then 1 else 0) := by
  constructor
  intro p q o p' hrel hstep
  rcases hrel with ⟨rfl, rfl⟩ | ⟨hp, rfl⟩
  · -- the only way out of the empty block is the bypassed edge
    right
    generalize hstart : ((d, 0) : Nat × Nat) = p at hstep
    cases hstep with
    | exec hc ha =>
      obtain ⟨rfl, rfl⟩ := Prod.mk.inj hstart
      rw [h.empty] at hc
      cases hc
      simp at ha
    | leave hc hn =>
      obtain ⟨rfl, _⟩ := Prod.mk.inj hstart
      obtain rfl := (h.normal_source _).mp hn
      exact ⟨rfl, Or.inr ⟨h.ne, rfl⟩, by simp [h.ne]⟩
    | raise hc ha =>
      obtain ⟨rfl, rfl⟩ := Prod.mk.inj hstart
      rw [h.empty] at hc
      cases hc
      simp at ha
  · left
    cases hstep with
    | exec hc ha =>
      exact ⟨_, Plus.single (.exec ((h.code_other _ hp).trans hc) ha), Or.inr ⟨hp, rfl⟩⟩
    | leave hc hn =>
      obtain ⟨b', hn', hrel'⟩ := h.related_target (fun b => h.normal_iff _ b hp) hn
      exact ⟨_, Plus.single (.leave ((h.code_other _ hp).trans hc) hn'), hrel'⟩
    | raise hc ha hthrow hu =>
      obtain ⟨b', hu', hrel'⟩ := h.related_target (fun b => h.unwind_iff _ b hp) hu
      exact ⟨_, Plus.single (.raise ((h.code_other _ hp).trans hc) ha hthrow hu'), hrel'⟩

/-- A step of the original from the related position, through the bypassed edge
where control stands before it. -/
theorem plus_of_related (h : Bypasses F F' d t) {p q r : Nat × Nat} {o : Option ι}
    (hrel : Related d t p q) (hstep : Step F throws q o r) : Plus (Step F throws) p o.toList r := by
  rcases hrel with ⟨rfl, rfl⟩ | ⟨_, rfl⟩
  · exact Plus.silent_single (.leave_at h.empty rfl ((h.normal_source t).mpr rfl)) hstep
  · exact Plus.single hstep

theorem source_of_target (hiff : ∀ b, E' a b ↔ E a b ∧ b ≠ d ∨ E a d ∧ b = t) (he : E' a b) :
    ∃ b', E a b' ∧ Related d t (b', 0) (b, 0) := by
  rcases (hiff b).mp he with ⟨he, hb⟩ | ⟨he, rfl⟩
  · exact ⟨b, he, Or.inr ⟨hb, rfl⟩⟩
  · exact ⟨d, he, Or.inl ⟨rfl, rfl⟩⟩

theorem backward (h : Bypasses F F' d t) :
    Simulation (Step F' throws) (Step F throws) (fun q p => Related d t p q) (fun _ => 0) := by
  constructor
  intro q p o q' hrel hstep
  left
  have hq : q.1 ≠ d := by
    rcases hrel with ⟨_, rfl⟩ | ⟨hp, rfl⟩
    · exact h.ne
    · exact hp
  cases hstep with
  | exec hc ha =>
    exact ⟨_, h.plus_of_related hrel (.exec ((h.code_other _ hq).symm.trans hc) ha),
      Or.inr ⟨hq, rfl⟩⟩
  | leave hc hn =>
    obtain ⟨b', hn', hrel'⟩ := source_of_target (fun b => h.normal_iff _ b hq) hn
    exact ⟨_, h.plus_of_related hrel (.leave ((h.code_other _ hq).symm.trans hc) hn'), hrel'⟩
  | raise hc ha hthrow hu =>
    obtain ⟨b', hu', hrel'⟩ := source_of_target (fun b => h.unwind_iff _ b hq) hu
    exact ⟨_, h.plus_of_related hrel (.raise ((h.code_other _ hq).symm.trans hc) ha hthrow hu'),
      hrel'⟩

theorem sameTraces (h : Bypasses F F' d t) {entry : Nat} (he : entry ≠ d) :
    SameTraces (Step F throws) (entry, 0) (Step F' throws) (entry, 0) :=
  h.forward.sameTraces h.backward (Or.inr ⟨he, rfl⟩)

end Bypasses

/-! ## Forgetting -/

/-- `F` and `F'` agree on a set of blocks that control does not leave. -/
structure Agrees (throws : ι → Bool) (F F' : Flow ι) (K : Nat → Prop) : Prop where
  code : ∀ b, K b → F'.code b = F.code b
  normal : ∀ a b, K a → (F'.normal a b ↔ F.normal a b)
  unwind : ∀ a b, K a → (F'.unwind a b ↔ F.unwind a b)
  normal_closed : ∀ a b l, K a → F.code a = some l → F.normal a b → K b
  unwind_closed : ∀ a b l x, K a → F.code a = some l → x ∈ l → throws x = true → F.unwind a b → K b

namespace Agrees

variable {K : Nat → Prop}

theorem symm (h : Agrees throws F F' K) : Agrees throws F' F K where
  code b hb := (h.code b hb).symm
  normal a b ha := (h.normal a b ha).symm
  unwind a b ha := (h.unwind a b ha).symm
  normal_closed a b l ha hl hn :=
    h.normal_closed a b l ha ((h.code a ha).symm.trans hl) ((h.normal a b ha).mp hn)
  unwind_closed a b l x ha hl hx ht hu :=
    h.unwind_closed a b l x ha ((h.code a ha).symm.trans hl) hx ht ((h.unwind a b ha).mp hu)

theorem forward (h : Agrees throws F F' K) :
    Simulation (Step F throws) (Step F' throws) (fun p q => p = q ∧ K p.1) (fun _ => 0) := by
  constructor
  rintro p q o p' ⟨rfl, hp⟩ hstep
  left
  cases hstep with
  | exec hc ha => exact ⟨_, Plus.single (.exec ((h.code _ hp).trans hc) ha), rfl, hp⟩
  | leave hc hn =>
    exact ⟨_, Plus.single (.leave ((h.code _ hp).trans hc) ((h.normal _ _ hp).mpr hn)), rfl,
      h.normal_closed _ _ _ hp hc hn⟩
  | raise hc ha hthrow hu =>
    exact ⟨_, Plus.single (.raise ((h.code _ hp).trans hc) ha hthrow ((h.unwind _ _ hp).mpr hu)),
      rfl, h.unwind_closed _ _ _ _ hp hc (List.mem_of_getElem? ha) hthrow hu⟩

theorem backward (h : Agrees throws F F' K) :
    Simulation (Step F' throws) (Step F throws) (fun q p => p = q ∧ K p.1) (fun _ => 0) := by
  constructor
  rintro q p o q' ⟨rfl, hp⟩ hstep
  rcases h.symm.forward.step p p o q' ⟨rfl, hp⟩ hstep with ⟨p', hplus, rfl, hp'⟩ | ⟨_, _, hlt⟩
  · exact Or.inl ⟨q', hplus, rfl, hp'⟩
  · exact absurd hlt (Nat.lt_irrefl 0)

theorem sameTraces (h : Agrees throws F F' K) {entry : Nat} (he : K entry) :
    SameTraces (Step F throws) (entry, 0) (Step F' throws) (entry, 0) :=
  h.forward.sameTraces h.backward ⟨rfl, he⟩

end Agrees

/-! ## Entered blocks -/

/-- Some path from the entry enters the block. -/
def Entered (F : Flow ι) (throws : ι → Bool) (entry b : Nat) : Prop :=
  ∃ l, Run (Step F throws) (entry, 0) l (b, 0)

theorem run_to (throws : ι → Bool) (hl : F.code b = some l) (hi : i ≤ l.length) :
    ∃ w, Run (Step F throws) (b, 0) w (b, i) := by
  induction i with
  | zero => exact ⟨[], .refl _⟩
  | succ i ih =>
    obtain ⟨w, hrun⟩ := ih (by omega)
    have hget : l[i]? = some l[i] := List.getElem?_eq_getElem (by omega)
    exact ⟨_, hrun.trans (Plus.single (.exec hl hget)).run⟩

theorem Entered.normal (h : F.Entered throws entry a)
    (hl : F.code a = some l) (hn : F.normal a b) : F.Entered throws entry b := by
  obtain ⟨w, hrun⟩ := h
  obtain ⟨w', hrun'⟩ := run_to throws hl (Nat.le_refl _)
  exact ⟨_, (hrun.trans hrun').trans (Plus.single (.leave hl hn)).run⟩

theorem Entered.unwind (h : F.Entered throws entry a)
    (hl : F.code a = some l) (hx : x ∈ l) (hthrow : throws x = true) (hu : F.unwind a b) :
    F.Entered throws entry b := by
  obtain ⟨w, hrun⟩ := h
  obtain ⟨i, hi, hget⟩ := List.getElem_of_mem hx
  obtain ⟨w', hrun'⟩ := run_to throws hl (Nat.le_of_lt hi)
  have hget' : l[i]? = some x := List.getElem?_eq_some_iff.mpr ⟨hi, hget⟩
  exact ⟨_, (hrun.trans hrun').trans (Plus.single (.raise hl hget' hthrow hu)).run⟩

theorem head_of_emits {a : ι} {xs : List ι} (hc : F.code b = some (x :: xs))
    (hno : ∀ t, ¬ F.unwind b t) (h : Emits (Step F throws) (b, 0) (a :: l)) : a = x := by
  obtain ⟨q, hrun⟩ := h
  generalize hp : ((b, 0) : Nat × Nat) = p at hrun
  generalize hw : a :: l = w at hrun
  cases hrun with
  | refl => cases hw
  | step hs hr =>
    cases hs with
    | exec hc' ha =>
      obtain ⟨rfl, rfl⟩ := Prod.mk.inj hp
      rw [hc] at hc'
      cases hc'
      cases ha
      exact (List.cons.inj hw).1
    | leave hc' hn =>
      obtain ⟨rfl, hlen⟩ := Prod.mk.inj hp
      rw [hc] at hc'
      cases hc'
      cases hlen
    | raise hc' ha hthrow hu =>
      obtain ⟨rfl, rfl⟩ := Prod.mk.inj hp
      exact absurd hu (hno _)

end Flow

end CfgLib.Lib
