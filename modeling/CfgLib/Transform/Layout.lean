import CfgLib.Lib.Moves
import Mathlib.Logic.Relation
import Mathlib.Order.Basic

/-!
# Width relaxation

`transform/layout.rs`: items are laid out, the caller prepares a context from the offsets,
and every item may widen under it, until a round widens nothing.  All items of a round
widen against the offsets of the round before.  `usize::MAX` is a parameter, and the
caller's three hooks are pure functions; `widen` returns the item it leaves behind beside
what it reports.
-/

namespace CfgLib.Layout

open CfgLib.Lib Relation

variable {ι κ ε : Type}

/-- Why one `relaxLayout` run failed. -/
inductive RelaxError (ε : Type) where
  | overflow
  | item (error : ε)

structure Hooks (ι κ ε : Type) where
  width : ι → Nat → Except ε Nat
  prepare : List Nat → Nat → Except ε κ
  widen : ι → Nat → κ → ι × Except ε Bool

def layOut (usizeMax : Nat) (width : ι → Nat → Except ε Nat) :
    List ι → Nat → Except (RelaxError ε) (List Nat × Nat)
  | [], total => .ok ([], total)
  | item :: items, total =>
    match width item total with
    | .error error => .error (.item error)
    | .ok itemWidth =>
      if total + itemWidth ≤ usizeMax then
        match layOut usizeMax width items (total + itemWidth) with
        | .error error => .error error
        | .ok (offsets, end') => .ok (total :: offsets, end')
      else .error .overflow

/-- Offer every item the chance to widen: the items afterwards, and whether one changed. -/
def widenAll (widen : ι → Nat → κ → ι × Except ε Bool) (context : κ) : List ι → List Nat → List ι × Except ε Bool
  | item :: items, offset :: offsets =>
    match widen item offset context with
    | (item', .error error) => (item' :: items, .error error)
    | (item', .ok changed) =>
      match widenAll widen context items offsets with
      | (items', .error error) => (item' :: items', .error error)
      | (items', .ok rest) => (item' :: items', .ok (changed || rest))
  | items, _ => (items, .ok false)

/-- How one iteration ends: with widened items to lay out again, or with the result. -/
inductive Round (ι κ ε : Type) where
  | again (items : List ι)
  | done (items : List ι) (result : Except (RelaxError ε) (List Nat × Nat × κ))

def relaxRound (usizeMax : Nat) (hooks : Hooks ι κ ε) (items : List ι) : Round ι κ ε :=
  match layOut usizeMax hooks.width items 0 with
  | .error error => .done items (.error error)
  | .ok (offsets, total) =>
    match hooks.prepare offsets total with
    | .error error => .done items (.error (.item error))
    | .ok context =>
      match widenAll hooks.widen context items offsets with
      | (items', .error error) => .done items' (.error (.item error))
      | (items', .ok false) => .done items' (.ok (offsets, total, context))
      | (items', .ok true) => .again items'

/-- Relax the items; `none` when the fuel runs out. -/
def relaxLayout (usizeMax : Nat) (hooks : Hooks ι κ ε) :
    Nat → List ι → Option (List ι × Except (RelaxError ε) (List Nat × Nat × κ))
  | 0, _ => none
  | fuel + 1, items =>
    match relaxRound usizeMax hooks items with
    | .again items' => relaxLayout usizeMax hooks fuel items'
    | .done items' result => some (items', result)

/-! ## What a layout is -/

/-- Items one after the other from a running total on, each as wide as it is where it lands. -/
inductive LaidOut (width : ι → Nat → Except ε Nat) : List ι → Nat → List Nat → Nat → Prop
  | nil (total : Nat) : LaidOut width [] total [] total
  | cons {item : ι} {items : List ι} {offset itemWidth total : Nat} {offsets : List Nat} :
      width item offset = .ok itemWidth → LaidOut width items (offset + itemWidth) offsets total →
      LaidOut width (item :: items) offset (offset :: offsets) total

structure IsLayout (usizeMax : Nat) (hooks : Hooks ι κ ε) (items : List ι) (offsets : List Nat) (total : Nat)
    (context : κ) : Prop where
  laid : LaidOut hooks.width items 0 offsets total
  fits : total ≤ usizeMax
  prepared : hooks.prepare offsets total = .ok context

def Steady (widen : ι → Nat → κ → ι × Except ε Bool) (context : κ) (items : List ι) (offsets : List Nat) : Prop :=
  List.Forall₂ (fun item offset => widen item offset context = (item, .ok false)) items offsets

/-- A running sum of the items exceeds `usize::MAX`. -/
def Exceeds (usizeMax : Nat) (width : ι → Nat → Except ε Nat) (items : List ι) (start : Nat) : Prop :=
  ∃ before after offsets total, items = before ++ after ∧ LaidOut width before start offsets total ∧ usizeMax < total

def Widens (hooks : Hooks ι κ ε) (item' item : ι) : Prop :=
  ∃ offset context, hooks.widen item offset context = (item', .ok true)

def Reports (hooks : Hooks ι κ ε) : Prop :=
  ∀ item offset context, (hooks.widen item offset context).2 = .ok false → (hooks.widen item offset context).1 = item

/-! ## One round -/

variable {usizeMax : Nat} {hooks : Hooks ι κ ε}

theorem layOut_ok {width : ι → Nat → Except ε Nat} : ∀ {items : List ι} {start : Nat} {offsets : List Nat}
    {total : Nat}, layOut usizeMax width items start = .ok (offsets, total) → start ≤ usizeMax →
      LaidOut width items start offsets total ∧ total ≤ usizeMax
  | [], start, offsets, total, h, hstart => by
    cases h
    exact ⟨.nil start, hstart⟩
  | item :: items, start, offsets, total, h, _ => by
    unfold layOut at h
    split at h
    · cases h
    · rename_i itemWidth hwidth
      split at h
      · rename_i hfits
        split at h
        · cases h
        · rename_i offsets' end' hrest
          cases h
          obtain ⟨hlaid, htotal⟩ := layOut_ok hrest hfits
          exact ⟨.cons hwidth hlaid, htotal⟩
      · cases h

theorem layOut_overflow (width : ι → Nat → Except ε Nat) : ∀ (items : List ι) {start : Nat}, start ≤ usizeMax →
    (layOut usizeMax width items start = .error .overflow ↔ Exceeds usizeMax width items start)
  | [], start, hstart => by
    constructor
    · intro h
      cases h
    · rintro ⟨before, after, offsets, total, hitems, hlaid, hlt⟩
      obtain ⟨rfl, rfl⟩ := List.append_eq_nil_iff.mp hitems.symm
      cases hlaid
      omega
  | item :: items, start, hstart => by
    -- a running sum too large is the one before the item, which is not, or one after it
    have hcons : Exceeds usizeMax width (item :: items) start ↔
        ∃ itemWidth, width item start = .ok itemWidth ∧ Exceeds usizeMax width items (start + itemWidth) := by
      constructor
      · rintro ⟨before, after, offsets, total, hitems, hlaid, hlt⟩
        cases hlaid with
        | nil => omega
        | cons hwidth hrest =>
          obtain ⟨rfl, rfl⟩ := List.cons.inj hitems
          exact ⟨_, hwidth, _, after, _, total, rfl, hrest, hlt⟩
      · rintro ⟨itemWidth, hwidth, before, after, offsets, total, rfl, hlaid, hlt⟩
        exact ⟨item :: before, after, _, total, rfl, .cons hwidth hlaid, hlt⟩
    rw [hcons]
    unfold layOut
    split
    · rename_i error herror
      constructor
      · intro h
        cases h
      · rintro ⟨itemWidth, hwidth, _⟩
        rw [herror] at hwidth
        cases hwidth
    · rename_i itemWidth hwidth
      split
      · rename_i hfits
        have ih := layOut_overflow width items hfits
        constructor
        · intro h
          refine ⟨itemWidth, hwidth, ih.mp ?_⟩
          split at h
          · rename_i error hrest
            rw [hrest]
            exact h
          · cases h
        · rintro ⟨itemWidth', hwidth', hexceeds⟩
          rw [hwidth] at hwidth'
          cases hwidth'
          rw [ih.mpr hexceeds]
      · rename_i hexceeds
        refine ⟨fun _ => ⟨itemWidth, hwidth, [], items, [], _, rfl, .nil _, ?_⟩, fun _ => rfl⟩
        omega

theorem widenAll_false {context : κ} (hreports : Reports hooks) : ∀ {items items' : List ι} {offsets : List Nat},
    widenAll hooks.widen context items offsets = (items', .ok false) → items.length = offsets.length →
      items' = items ∧ Steady hooks.widen context items offsets
  | [], items', offsets, h, hlen => by
    obtain rfl := List.length_eq_zero_iff.mp hlen.symm
    cases h
    exact ⟨rfl, .nil⟩
  | item :: items, items', [], h, hlen => by cases hlen
  | item :: items, items', offset :: offsets, h, hlen => by
    unfold widenAll at h
    split at h
    · cases h
    · rename_i item' changed hwiden
      split at h
      · cases h
      · rename_i rest' rest hrest
        simp only [Prod.mk.injEq, Except.ok.injEq, Bool.or_eq_false_iff] at h
        obtain ⟨rfl, rfl, rfl⟩ := h
        obtain ⟨rfl, hsteady⟩ := widenAll_false hreports hrest (Nat.succ.inj hlen)
        have hsame : item' = item := by
          have := hreports item offset context
          rw [hwiden] at this
          exact this rfl
        subst hsame
        exact ⟨rfl, .cons hwiden hsteady⟩

theorem widenAll_cases {context : κ} (hreports : Reports hooks) : ∀ {items items' : List ι} {offsets : List Nat}
    {changed : Bool}, widenAll hooks.widen context items offsets = (items', .ok changed) →
      (changed = false ∧ items' = items) ∨ (changed = true ∧ Moves (Widens hooks) items' items)
  | [], items', offsets, changed, h => by
    cases h
    exact Or.inl ⟨rfl, rfl⟩
  | item :: items, items', [], changed, h => by
    cases h
    exact Or.inl ⟨rfl, rfl⟩
  | item :: items, items', offset :: offsets, changed, h => by
    unfold widenAll at h
    split at h
    · cases h
    · rename_i item' first hwiden
      split at h
      · cases h
      · rename_i rest' rest hrest
        have ih := widenAll_cases hreports hrest
        cases h
        cases first with
        | true =>
          have hstep : Widens hooks item' item := ⟨offset, context, hwiden⟩
          rcases ih with ⟨rfl, rfl⟩ | ⟨rfl, hmoves⟩
          · exact Or.inr ⟨rfl, .head hstep⟩
          · exact Or.inr ⟨rfl, .both hstep hmoves⟩
        | false =>
          have hstay := hreports item offset context
          rw [hwiden] at hstay
          obtain rfl : item' = item := hstay rfl
          rcases ih with ⟨rfl, rfl⟩ | ⟨rfl, hmoves⟩
          · exact Or.inl ⟨rfl, rfl⟩
          · exact Or.inr ⟨rfl, .tail hmoves⟩

variable {offsets : List Nat} {items items' last : List ι} {total : Nat}

theorem LaidOut.length_eq {width : ι → Nat → Except ε Nat} {start : Nat}
    (h : LaidOut width items start offsets total) : items.length = offsets.length := by
  induction h with
  | nil => rfl
  | cons _ _ ih => exact congrArg Nat.succ ih

theorem relaxRound_again (hreports : Reports hooks) (h : relaxRound usizeMax hooks items = .again items') :
    ∃ offsets total context, IsLayout usizeMax hooks items offsets total context ∧
      widenAll hooks.widen context items offsets = (items', .ok true) ∧ Moves (Widens hooks) items' items := by
  unfold relaxRound at h
  split at h
  · cases h
  · rename_i offsets total hlay
    obtain ⟨hlaid, hfits⟩ := layOut_ok hlay (Nat.zero_le _)
    split at h
    · cases h
    · rename_i context hprepare
      split at h
      · cases h
      · cases h
      · rename_i rest hwiden
        cases h
        refine ⟨offsets, total, context, ⟨hlaid, hfits, hprepare⟩, hwiden, ?_⟩
        rcases widenAll_cases hreports hwiden with ⟨hc, _⟩ | ⟨_, hmoves⟩
        · cases hc
        · exact hmoves

/-- A round that ends well ends in a layout under which nothing widens. -/
theorem relaxRound_ok (hreports : Reports hooks)
    {context : κ} (h : relaxRound usizeMax hooks items = .done items' (.ok (offsets, total, context))) :
    items' = items ∧ IsLayout usizeMax hooks items offsets total context ∧
      Steady hooks.widen context items offsets := by
  unfold relaxRound at h
  split at h
  · cases h
  · rename_i hlay
    obtain ⟨hlaid, hfits⟩ := layOut_ok hlay (Nat.zero_le _)
    split at h
    · cases h
    · rename_i hprepare
      split at h
      · cases h
      · rename_i hwiden
        cases h
        obtain ⟨rfl, hsteady⟩ := widenAll_false hreports hwiden hlaid.length_eq
        exact ⟨rfl, ⟨hlaid, hfits, hprepare⟩, hsteady⟩
      · cases h

theorem relaxRound_error {error : RelaxError ε} (h : relaxRound usizeMax hooks items = .done items' (.error error)) :
    error = .overflow ↔ Exceeds usizeMax hooks.width items 0 := by
  have hiff := layOut_overflow hooks.width items (Nat.zero_le usizeMax)
  unfold relaxRound at h
  split at h
  · rename_i error' hlay
    cases h
    rw [← hiff, hlay]
    exact ⟨fun heq => by rw [heq], fun heq => by cases heq; rfl⟩
  · rename_i hlay
    rw [hlay] at hiff
    -- the layout fits, so what failed is a hook
    have hno : ¬ Exceeds usizeMax hooks.width items 0 := fun hexceeds => by cases hiff.mpr hexceeds
    refine ⟨fun heq => ?_, fun hexceeds => absurd hexceeds hno⟩
    subst heq
    split at h
    · cases h
    · split at h <;> cases h

/-! ## The run -/

def Consistent (usizeMax : Nat) (hooks : Hooks ι κ ε) (items : List ι) (offsets : List Nat) (total : Nat)
    (context : κ) : Prop :=
  IsLayout usizeMax hooks items offsets total context ∧ Steady hooks.widen context items offsets

/-- Widening leads to an item at least as wide. -/
def Grows [LE ι] (hooks : Hooks ι κ ε) : Prop := ∀ item item', Widens hooks item' item → item ≤ item'

/-- What must widen in some layout must also widen in every layout where all items are at
least as wide, unless it is as wide there already. -/
def Insists [LE ι] (usizeMax : Nat) (hooks : Hooks ι κ ε) : Prop :=
  ∀ items items' offsets offsets' total total' context context',
    IsLayout usizeMax hooks items offsets total context → IsLayout usizeMax hooks items' offsets' total' context' →
    List.Forall₂ (· ≤ ·) items items' →
    ∀ (k : Nat) item item' offset offset' wider, items[k]? = some item → items'[k]? = some item' →
      offsets[k]? = some offset → offsets'[k]? = some offset' → hooks.widen item offset context = (wider, .ok true) →
      wider ≤ item' ∨ ∃ wider', hooks.widen item' offset' context' = (wider', .ok true)

/-- Items below every consistent layout above the initial ones, and above these themselves. -/
def LeastAbove [LE ι] (usizeMax : Nat) (hooks : Hooks ι κ ε) (items final : List ι) : Prop :=
  List.Forall₂ (· ≤ ·) items final ∧
    ∀ items' offsets' total' context', Consistent usizeMax hooks items' offsets' total' context' →
      List.Forall₂ (· ≤ ·) items items' → List.Forall₂ (· ≤ ·) final items'

theorem widenAll_le [LE ι] {context context' : κ} (hreports : Reports hooks) :
    ∀ {items items' final : List ι} {offsets offsets' : List Nat} {changed : Bool},
      widenAll hooks.widen context items offsets = (final, .ok changed) → List.Forall₂ (· ≤ ·) items items' →
      Steady hooks.widen context' items' offsets' →
      (∀ (k : Nat) item item' offset offset' wider, items[k]? = some item → items'[k]? = some item' →
        offsets[k]? = some offset → offsets'[k]? = some offset' →
        hooks.widen item offset context = (wider, .ok true) →
        wider ≤ item' ∨ ∃ wider', hooks.widen item' offset' context' = (wider', .ok true)) →
      List.Forall₂ (· ≤ ·) final items'
  | [], items', final, offsets, offsets', changed, h, hle, _, _ => by
    cases h
    exact hle
  | item :: items, items', final, [], offsets', changed, h, hle, _, _ => by
    cases h
    exact hle
  | item :: items, item₁ :: items', final, offset :: offsets, offset' :: offsets', changed, h, .cons hfirst hle,
      .cons hstill hsteady, hinsist => by
    unfold widenAll at h
    split at h
    · cases h
    · rename_i wider first hwiden
      split at h
      · cases h
      · rename_i final' rest hrest
        cases h
        refine .cons ?_ (widenAll_le hreports hrest hle hsteady fun k => hinsist (k + 1))
        cases first with
        | false =>
          have hstay := hreports item offset context
          rw [hwiden] at hstay
          obtain rfl : wider = item := hstay rfl
          exact hfirst
        | true =>
          rcases hinsist 0 item item₁ offset offset' wider rfl rfl rfl rfl hwiden with hbelow | ⟨wider', hwiden'⟩
          · exact hbelow
          · rw [hstill] at hwiden'
            cases hwiden'

def Rounds (usizeMax : Nat) (hooks : Hooks ι κ ε) : List ι → List ι → Prop :=
  ReflTransGen fun items items' => relaxRound usizeMax hooks items = .again items'

theorem Rounds.relaxLayout {final : List ι} {result : Except (RelaxError ε) (List Nat × Nat × κ)}
    (h : Rounds usizeMax hooks items last) (hdone : relaxRound usizeMax hooks last = .done final result) :
    ∃ N, ∀ fuel, N ≤ fuel → relaxLayout usizeMax hooks fuel items = some (final, result) := by
  induction h using ReflTransGen.head_induction_on with
  | refl =>
    refine ⟨1, fun fuel hfuel => ?_⟩
    obtain ⟨k, rfl⟩ : ∃ k, fuel = k + 1 := ⟨fuel - 1, by omega⟩
    simp only [Layout.relaxLayout, hdone]
  | head hround _ ih =>
    obtain ⟨N, hrun⟩ := ih
    refine ⟨N + 1, fun fuel hfuel => ?_⟩
    obtain ⟨k, rfl⟩ : ∃ k, fuel = k + 1 := ⟨fuel - 1, by omega⟩
    simp only [Layout.relaxLayout, hround]
    exact hrun k (by omega)

theorem exists_lastRound (hreports : Reports hooks) (h : Acc (Moves (Widens hooks)) items) :
    ∃ last final result, Rounds usizeMax hooks items last ∧ relaxRound usizeMax hooks last = .done final result := by
  induction h with
  | intro items _ ih =>
    cases hround : relaxRound usizeMax hooks items with
    | done final result => exact ⟨items, final, result, .refl, hround⟩
    | again items' =>
      obtain ⟨_, _, _, _, _, hmoves⟩ := relaxRound_again hreports hround
      obtain ⟨last, final, result, hrounds, hdone⟩ := ih items' hmoves
      exact ⟨last, final, result, .head hround hrounds, hdone⟩

theorem Rounds.above [LE ι] [Std.IsPreorder ι] (hreports : Reports hooks) (hup : Grows hooks)
    (h : Rounds usizeMax hooks items last) : List.Forall₂ (· ≤ ·) items last := by
  induction h with
  | refl => exact List.forall₂_same.mpr fun item _ => Std.le_refl item
  | tail _ hround ih =>
    obtain ⟨_, _, _, _, _, hmoves⟩ := relaxRound_again hreports hround
    exact forall₂_trans (r := fun a b => a ≤ b) (fun _ _ _ => Std.le_trans) ih (hmoves.forall₂ Std.le_refl hup)

theorem Rounds.below [LE ι] (hreports : Reports hooks) (hinsists : Insists usizeMax hooks)
    {offsets' : List Nat} {total' : Nat} {context' : κ}
    (h : Rounds usizeMax hooks items last) (hcons : Consistent usizeMax hooks items' offsets' total' context')
    (hle : List.Forall₂ (· ≤ ·) items items') : List.Forall₂ (· ≤ ·) last items' := by
  induction h with
  | refl => exact hle
  | tail _ hround ih =>
    obtain ⟨offsets, total, context, hlayout, hwiden, _⟩ := relaxRound_again hreports hround
    exact widenAll_le hreports hwiden ih hcons.2
      (hinsists _ items' offsets offsets' total total' context context' hlayout hcons.1 ih)

/-- Relaxation ends; a success is a consistent layout of the final items, the least one above
the initial items where the rule is monotone, and an overflow is reported exactly when a
running sum of the last round is too large. -/
theorem relaxLayout_settles (usizeMax : Nat) (hooks : Hooks ι κ ε) (items : List ι) (hreports : Reports hooks)
    (hfinite : ∀ item ∈ items, FinitelyOften (Widens hooks) item) :
    ∃ last final result, Rounds usizeMax hooks items last ∧ relaxRound usizeMax hooks last = .done final result ∧
      (∃ N, ∀ fuel, N ≤ fuel → relaxLayout usizeMax hooks fuel items = some (final, result)) ∧
      (∀ offsets total context, result = .ok (offsets, total, context) →
        Consistent usizeMax hooks final offsets total context ∧
          ∀ (_ : LE ι) (_ : Std.IsPreorder ι), Grows hooks → Insists usizeMax hooks →
            LeastAbove usizeMax hooks items final) ∧
      ∀ error, result = .error error → (error = .overflow ↔ Exceeds usizeMax hooks.width last 0) := by
  have hacc : Acc (Moves (Widens hooks)) items := acc_moves fun item hitem => (hfinite item hitem).acc
  obtain ⟨last, final, result, hrounds, hdone⟩ : ∃ last final result, Rounds usizeMax hooks items last ∧
      relaxRound usizeMax hooks last = .done final result := exists_lastRound hreports hacc
  refine ⟨last, final, result, hrounds, hdone, hrounds.relaxLayout hdone, ?_, ?_⟩
  · rintro offsets total context rfl
    obtain ⟨rfl, hlayout, hsteady⟩ := relaxRound_ok hreports hdone
    refine ⟨⟨hlayout, hsteady⟩, fun _ _ hup hinsists => ⟨hrounds.above hreports hup, ?_⟩⟩
    intro items' offsets' total' context' hcons hle
    exact hrounds.below hreports hinsists hcons hle
  · rintro error rfl
    exact relaxRound_error hdone

/-- Branches of two or five bytes, wide where the code is longer than six bytes. -/
def branchHooks : Hooks Bool Nat Unit where
  width wide _ := .ok (if wide then 5 else 2)
  prepare _ total := .ok total
  widen wide _ total := if !wide && decide (6 < total) then (true, .ok true) else (wide, .ok false)

theorem reports_branchHooks : Reports branchHooks := by
  intro wide offset total h
  cases wide with
  | true => rfl
  | false =>
    by_cases hlong : 6 < total
    · simp [branchHooks, hlong] at h
    · simp [branchHooks, hlong]

theorem widens_branchHooks {wide wide' : Bool} (h : Widens branchHooks wide' wide) : wide = false ∧ wide' = true := by
  obtain ⟨offset, total, hwiden⟩ := h
  cases wide with
  | true => simp [branchHooks] at hwiden
  | false =>
    by_cases hlong : 6 < total
    · simp only [branchHooks, hlong] at hwiden
      exact ⟨rfl, (Prod.mk.inj hwiden).1.symm⟩
    · simp [branchHooks, hlong] at hwiden

theorem grows_branchHooks : Grows branchHooks := by
  intro wide wide' h
  obtain ⟨rfl, rfl⟩ := widens_branchHooks h
  decide

theorem LaidOut.total_mono {items items' : List Bool} {start start' total' : Nat} {offsets' : List Nat}
    (h : LaidOut branchHooks.width items start offsets total) (h' : LaidOut branchHooks.width items' start' offsets' total')
    (hle : List.Forall₂ (· ≤ ·) items items') (hstart : start ≤ start') : total ≤ total' := by
  induction h generalizing items' start' offsets' with
  | nil =>
    cases hle
    cases h'
    exact hstart
  | @cons wide _ _ _ _ _ hwidth _ ih =>
    cases hle with
    | @cons _ wide' _ _ hfirst hrest =>
      cases h' with
      | cons hwidth' hlaid' =>
        refine ih hlaid' hrest ?_
        cases hwidth
        cases hwidth'
        cases wide <;> cases wide' <;> first | (simp; omega) | exact absurd hfirst (by decide)

theorem insists_branchHooks : Insists 255 branchHooks := by
  intro items items' offsets offsets' total total' context context' hlayout hlayout' hle k wide wide' offset offset'
    wider _ hwide' _ _ hwiden
  have htotal : total ≤ total' := hlayout.laid.total_mono hlayout'.laid hle (Nat.le_refl 0)
  have hcontext := hlayout.prepared
  have hcontext' := hlayout'.prepared
  cases hcontext
  cases hcontext'
  obtain ⟨rfl, rfl⟩ := widens_branchHooks ⟨offset, total, hwiden⟩
  have hlong : 6 < total := by
    by_contra hc
    simp [branchHooks, hc] at hwiden
  cases wide' with
  | true => exact Or.inl (le_refl true)
  | false => exact Or.inr ⟨true, by simp [branchHooks, show 6 < total' by omega]⟩

/-- Four branches do not fit while they are narrow. -/
theorem relaxLayout_settles_branchHooks :
    ∃ last final result, Rounds 255 branchHooks [false, false, false, false] last ∧
      relaxRound 255 branchHooks last = .done final result ∧
      (∃ N, ∀ fuel, N ≤ fuel → relaxLayout 255 branchHooks fuel [false, false, false, false] = some (final, result)) ∧
      (∀ offsets total context, result = .ok (offsets, total, context) →
        Consistent 255 branchHooks final offsets total context ∧
          LeastAbove 255 branchHooks [false, false, false, false] final) ∧
      ∀ error, result = .error error → (error = .overflow ↔ Exceeds 255 branchHooks.width last 0) := by
  have hfinite : ∀ item ∈ [false, false, false, false], FinitelyOften (Widens branchHooks) item := by
    rintro item - ⟨f, -, hsteps⟩
    have hwide := (widens_branchHooks (hsteps 0)).2
    rw [(widens_branchHooks (hsteps 1)).1] at hwide
    cases hwide
  obtain ⟨last, final, result, hrounds, hdone, hrun, hok, herror⟩ :=
    relaxLayout_settles 255 branchHooks [false, false, false, false] reports_branchHooks hfinite
  refine ⟨last, final, result, hrounds, hdone, hrun, fun offsets total context hresult => ?_, herror⟩
  obtain ⟨hcons, hleast⟩ := hok offsets total context hresult
  exact ⟨hcons, hleast _ inferInstance grows_branchHooks insists_branchHooks⟩

example : relaxLayout 255 branchHooks 2 [false, false, false, false] =
    some ([true, true, true, true], .ok ([0, 5, 10, 15], 20, 20)) := rfl

end CfgLib.Layout
