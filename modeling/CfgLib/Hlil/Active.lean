import CfgLib.Lib.FiniteMap
import Mathlib.Data.Finset.Sort

/-!
# Open regions

`ir/hlil/recover/active.rs`: the regions under construction, each with the variables that
hold its entered object, and for every variable the positions of the regions it holds.  The
two tables are updated by different rules and describe one relation.
-/

namespace CfgLib.Hlil

open Lib List

variable {O V S : Type} [LinearOrder V]

structure ActiveRegion (O V S : Type) where
  enter : O
  aliases : Finset V
  exits : List S

/-- The open regions, the innermost last, and the positions of those that each variable holds. -/
structure ActiveRegions (O V S : Type) where
  regions : List (ActiveRegion O V S)
  holders : FiniteMap V (List Nat)

namespace ActiveRegions

def new : ActiveRegions O V S := ⟨[], .empty⟩

/-- An alias set in ascending order. -/
def members (aliases : Finset V) : List V := (aliases.sort (· ≥ ·)).reverse

/-- `holders.entry(variable).or_default().push(position)`. -/
def addHolder (position : Nat) (holders : FiniteMap V (List Nat)) (variable' : V) : FiniteMap V (List Nat) :=
  holders.insert variable' ((holders.get variable').getD [] ++ [position])

/-- Drop the last position of a variable, and the entry with it where none is left. -/
def dropHolder (holders : FiniteMap V (List Nat)) (variable' : V) : FiniteMap V (List Nat) :=
  match holders.get variable' with
  | none => holders
  | some positions =>
    if positions.dropLast = [] then holders.erase variable' else holders.insert variable' positions.dropLast

def push (a : ActiveRegions O V S) (enter : O) (entered released : V) : ActiveRegions O V S :=
  let aliases : Finset V := {entered, released}
  ⟨a.regions ++ [⟨enter, aliases, []⟩], (members aliases).foldl (addHolder a.regions.length) a.holders⟩

def pop (a : ActiveRegions O V S) : Option (ActiveRegion O V S × ActiveRegions O V S) :=
  a.regions.getLast?.map fun region =>
    (region, ⟨a.regions.dropLast, (members region.aliases).foldl dropHolder a.holders⟩)

/-- The innermost region with `released` among its aliases whose enter operation is accepted. -/
def innermostReleasing (a : ActiveRegions O V S) (released : V) (accepts : O → Bool) : Option Nat :=
  (a.holders.get released).bind fun positions =>
    positions.reverse.find? fun position => a.regions[position]?.any fun region => accepts region.enter

/-- `none` is the panic on a position past the open regions. -/
def addExit (a : ActiveRegions O V S) (position : Nat) (exit : S) : Option (ActiveRegions O V S) :=
  if position < a.regions.length then
    some { a with regions := a.regions.modify position fun region => { region with exits := region.exits ++ [exit] } }
  else none

def patch (change : Finset V → Finset V) (except positions : List Nat) (regions : List (ActiveRegion O V S)) :
    List (ActiveRegion O V S) :=
  positions.foldl (fun regions position =>
    if position ∈ except then regions
    else regions.modify position fun region => { region with aliases := change region.aliases }) regions

/-- An assignment of `target`; the searches in ascending positions are read as membership. -/
def assign (a : ActiveRegions O V S) (target : V) (source : Option V) : ActiveRegions O V S :=
  let gained := (source.bind a.holders.get).getD []
  let before := (a.holders.get target).getD []
  let holders := if gained = [] then a.holders.erase target else a.holders.insert target gained
  let after := (holders.get target).getD []
  ⟨patch (insert target) before after (patch (·.erase target) after before a.regions), holders⟩

/-! ## Runs -/

inductive Call (O V S : Type) where
  | push (enter : O) (entered released : V)
  | pop
  | assign (target : V) (source : Option V)
  | addExit (position : Nat) (exit : S)

def apply (a : ActiveRegions O V S) : Call O V S → Option (ActiveRegions O V S)
  | .push enter entered released => some (a.push enter entered released)
  | .pop => some ((a.pop.map (·.2)).getD a)
  | .assign target source => some (a.assign target source)
  | .addExit position exit => a.addExit position exit

/-- The aliases of a region that holds the source of an assignment gain the target, those of
every other lose it. -/
def follow (target : V) (source : Option V) (aliases : Finset V) : Finset V :=
  if (source.any fun v => v ∈ aliases) then insert target aliases else aliases.erase target

def naive (regions : List (ActiveRegion O V S)) : Call O V S → List (ActiveRegion O V S)
  | .push enter entered released => regions ++ [⟨enter, {entered, released}, []⟩]
  | .pop => regions.dropLast
  | .assign target source => regions.map fun region =>
    { region with aliases := follow target source region.aliases }
  | .addExit position exit => regions.modify position fun region => { region with exits := region.exits ++ [exit] }

/-- The positions of the regions that a variable is an alias of, ascending. -/
def held (regions : List (ActiveRegion O V S)) (v : V) : List Nat :=
  (List.range regions.length).filter fun position => regions[position]?.any fun region => v ∈ region.aliases

/-- The table lists what the regions say, and no variable without a region. -/
def Consistent (a : ActiveRegions O V S) : Prop :=
  ∀ v, a.holders.get v = if held a.regions v = [] then none else some (held a.regions v)

variable {a : ActiveRegions O V S}

theorem Consistent.getD (h : a.Consistent) (v : V) : (a.holders.get v).getD [] = held a.regions v := by
  rw [h v]
  split
  · next hnil => rw [hnil]; rfl
  · rfl

theorem mem_held {regions : List (ActiveRegion O V S)} {v : V} {p : Nat} :
    p ∈ held regions v ↔ ∃ region, regions[p]? = some region ∧ v ∈ region.aliases := by
  rw [held, mem_filter, mem_range, Option.any_eq_true_iff_get]
  constructor
  · rintro ⟨hp, hsome, hv⟩
    exact ⟨_, (Option.some_get hsome).symm, of_decide_eq_true hv⟩
  · rintro ⟨region, hget, hv⟩
    refine ⟨(List.getElem?_eq_some_iff.mp hget).1, by rw [hget]; rfl, ?_⟩
    simp only [hget, Option.get_some]
    exact decide_eq_true hv

theorem held_congr {regions regions' : List (ActiveRegion O V S)} {u v : V} (hlength : regions'.length = regions.length)
    (h : ∀ p, p ∈ held regions' u ↔ p ∈ held regions v) : held regions' u = held regions v := by
  unfold held at h ⊢
  rw [hlength] at h ⊢
  refine filter_congr fun p hp => ?_
  have := h p
  rwa [mem_filter, mem_filter, and_iff_right hp, and_iff_right hp, ← Bool.eq_iff_iff] at this

theorem held_append (regions : List (ActiveRegion O V S)) (region : ActiveRegion O V S) (v : V) :
    held (regions ++ [region]) v = held regions v ++ if v ∈ region.aliases then [regions.length] else [] := by
  rw [held, held, length_append, length_singleton, range_succ, filter_append]
  congr 1
  · refine filter_congr fun p hp => ?_
    rw [getElem?_append_left (mem_range.mp hp)]
  · by_cases hv : v ∈ region.aliases <;> simp [hv]

theorem mem_members {aliases : Finset V} {v : V} : v ∈ members aliases ↔ v ∈ aliases := by
  rw [members, mem_reverse, Finset.mem_sort]

theorem nodup_members (aliases : Finset V) : (members aliases).Nodup :=
  nodup_reverse.mpr (Finset.sort_nodup _ _)

theorem get_foldl {f : FiniteMap V (List Nat) → V → FiniteMap V (List Nat)} {g : Option (List Nat) → Option (List Nat)}
    (hf : ∀ m v u, (f m v).get u = if u = v then g (m.get v) else m.get u) {vars : List V} :
    ∀ {m : FiniteMap V (List Nat)}, vars.Nodup → ∀ u, (vars.foldl f m).get u = if u ∈ vars then g (m.get u) else m.get u := by
  induction vars with
  | nil => exact fun _ u => by rw [if_neg not_mem_nil]; rfl
  | cons v vars ih =>
    intro m hnodup u
    obtain ⟨hv, hvars⟩ := nodup_cons.mp hnodup
    rw [foldl_cons, ih hvars, hf]
    by_cases hu : u = v
    · subst hu
      rw [if_neg hv, if_pos rfl, if_pos mem_cons_self]
    · rw [if_neg hu]
      simp only [mem_cons, hu, false_or]

omit [LinearOrder V] in
theorem getElem?_patch (change : Finset V → Finset V) (except : List Nat) {positions : List Nat} :
    ∀ {regions : List (ActiveRegion O V S)}, positions.Nodup → ∀ p, (patch change except positions regions)[p]? =
      regions[p]?.map fun region =>
        if p ∈ positions ∧ p ∉ except then { region with aliases := change region.aliases } else region := by
  induction positions with
  | nil => exact fun _ p => by simp [patch]
  | cons q positions ih =>
    intro regions hnodup p
    obtain ⟨hq, hpositions⟩ := nodup_cons.mp hnodup
    refine (ih hpositions p).trans ?_
    dsimp only
    by_cases hexcept : q ∈ except
    · rw [if_pos hexcept]
      by_cases hp : p = q
      · simp [hp, hexcept]
      · simp [hp]
    · rw [if_neg hexcept, getElem?_modify]
      by_cases hp : q = p
      · subst hp
        simp [hq, hexcept, Function.comp_def]
      · simp [hp, Ne.symm hp]

theorem Consistent.push (h : a.Consistent) (enter : O) (entered released : V) :
    (a.push enter entered released).Consistent := by
  intro v
  rw [ActiveRegions.push]
  dsimp only
  rw [get_foldl (f := addHolder a.regions.length) (g := fun positions => some (positions.getD [] ++ [a.regions.length]))
    (fun m u w => rfl) (nodup_members _), held_append, h.getD]
  simp only [mem_members]
  split
  · rw [if_neg (by simp)]
  · rw [append_nil]
    exact h v

theorem Consistent.pop (h : a.Consistent) {region : ActiveRegion O V S} {a' : ActiveRegions O V S}
    (hpop : a.pop = some (region, a')) : a'.Consistent ∧ a.regions = a'.regions ++ [region] := by
  obtain ⟨last, hlast, heq⟩ := Option.map_eq_some_iff.mp hpop
  obtain ⟨rfl, rfl⟩ := Prod.mk.inj heq
  have hsplit : a.regions.dropLast ++ [last] = a.regions := dropLast_append_getLast? last hlast
  refine ⟨fun v => ?_, hsplit.symm⟩
  have hv := h v
  rw [← hsplit, held_append] at hv
  dsimp only
  rw [get_foldl (f := dropHolder) (g := fun positions => positions.bind fun positions =>
    if positions.dropLast = [] then none else some positions.dropLast) (fun m u w => ?_) (nodup_members _), hv]
  · simp only [mem_members]
    by_cases hmem : v ∈ last.aliases
    · rw [if_pos hmem, if_pos hmem, if_neg (by simp), Option.bind_some, dropLast_concat]
    · rw [if_neg hmem, if_neg hmem, append_nil]
  · unfold dropHolder
    by_cases hw : w = u
    · subst hw
      rw [if_pos rfl]
      split
      · next hnone => rw [hnone]; rfl
      · next positions hsome =>
        rw [hsome, Option.bind_some]
        split <;> simp
    · rw [if_neg hw]
      split
      · rfl
      · split <;> simp [hw]

theorem Consistent.assign (h : a.Consistent) (target : V) (source : Option V) :
    (a.assign target source).Consistent ∧ (a.assign target source).regions = naive a.regions (.assign target source) := by
  have hgained : ∀ p, p ∈ (source.bind a.holders.get).getD [] ↔
      ∃ region, a.regions[p]? = some region ∧ (source.any fun v => v ∈ region.aliases) = true := by
    intro p
    cases source with
    | none => simp
    | some v =>
      rw [Option.bind_some, h.getD, mem_held]
      simp
  have hnodup : ∀ v, ((a.holders.get v).getD []).Nodup := fun v => by
    rw [h.getD]
    exact nodup_range.filter _
  have hgainedNodup : ((source.bind a.holders.get).getD []).Nodup := by
    cases source with
    | none => exact nodup_nil
    | some v => exact hnodup v
  have hafter : ∀ gained : List Nat, ((if gained = [] then a.holders.erase target else
      a.holders.insert target gained).get target).getD [] = gained := by
    intro gained
    split
    · next hnil => simp [hnil]
    · simp
  have hregions : (a.assign target source).regions = naive a.regions (.assign target source) := by
    apply ext_getElem?
    intro p
    rw [ActiveRegions.assign, naive]
    dsimp only
    rw [hafter, getElem?_patch _ _ hgainedNodup, getElem?_patch _ _ (hnodup target), getElem?_map, Option.map_map]
    cases hget : a.regions[p]? with
    | none => rfl
    | some region =>
      have hin : p ∈ (source.bind a.holders.get).getD [] ↔ (source.any fun v => v ∈ region.aliases) = true := by
        rw [hgained, hget]
        simp
      have hbefore : p ∈ (a.holders.get target).getD [] ↔ target ∈ region.aliases := by
        rw [h.getD, mem_held, hget]
        simp
      simp only [Option.map_some, Function.comp_apply, hin, hbefore]
      by_cases hs : (source.any fun v => v ∈ region.aliases) = true <;> by_cases ht : target ∈ region.aliases <;>
        simp [follow, hs, ht]
  refine ⟨fun v => ?_, hregions⟩
  have hlength : (naive a.regions (.assign target source)).length = a.regions.length := length_map _
  rw [hregions]
  by_cases hv : v = target
  · subst hv
    have hheld : held (naive a.regions (.assign v source)) v = (source.bind a.holders.get).getD [] := by
      have hmem : ∀ p, p ∈ held (naive a.regions (.assign v source)) v ↔ p ∈ (source.bind a.holders.get).getD [] := by
        intro p
        rw [mem_held, hgained, naive, getElem?_map]
        cases a.regions[p]? with
        | none => simp
        | some region => by_cases hs : (source.any fun v => v ∈ region.aliases) = true <;> simp [follow, hs]
      cases source with
      | none => exact eq_nil_iff_forall_not_mem.mpr fun p hp => not_mem_nil ((hmem p).mp hp)
      | some u =>
        rw [Option.bind_some, h.getD] at hmem ⊢
        exact held_congr hlength hmem
    rw [hheld, ActiveRegions.assign]
    dsimp only
    split
    · simp
    · simp
  · have hheld : held (naive a.regions (.assign target source)) v = held a.regions v := by
      refine held_congr hlength fun p => ?_
      rw [mem_held, mem_held, naive, getElem?_map]
      cases a.regions[p]? with
      | none => simp
      | some region => by_cases hs : (source.any fun v => v ∈ region.aliases) = true <;> simp [follow, hs, hv]
    rw [hheld, ← h v, ActiveRegions.assign]
    dsimp only
    split <;> simp [hv]

theorem Consistent.apply (h : a.Consistent) {call : Call O V S} {a' : ActiveRegions O V S} (hcall : a.apply call = some a') :
    a'.Consistent ∧ a'.regions = naive a.regions call := by
  cases call with
  | push enter entered released =>
    obtain rfl := Option.some.inj hcall
    exact ⟨h.push enter entered released, rfl⟩
  | pop =>
    obtain rfl := Option.some.inj hcall
    cases hpop : a.pop with
    | none =>
      have hnil : a.regions = [] := getLast?_eq_none_iff.mp (Option.map_eq_none_iff.mp hpop)
      refine ⟨h, ?_⟩
      rw [naive, hnil]
      exact hnil
    | some popped =>
      obtain ⟨hkept, hsplit⟩ := h.pop hpop
      refine ⟨hkept, ?_⟩
      rw [naive, hsplit, dropLast_concat]
      rfl
  | assign target source =>
    obtain rfl := Option.some.inj hcall
    exact h.assign target source
  | addExit position exit =>
    rw [ActiveRegions.apply, addExit] at hcall
    split at hcall
    · obtain rfl := Option.some.inj hcall
      refine ⟨fun v => ?_, rfl⟩
      rw [h v, held_congr (length_modify ..) fun p => ?_]
      rw [mem_held, mem_held, getElem?_modify]
      cases a.regions[p]? with
      | none => simp
      | some region => by_cases hp : position = p <;> simp [hp]
    · cases hcall

def run (a : ActiveRegions O V S) (calls : List (Call O V S)) : Option (ActiveRegions O V S) := calls.foldlM apply a

theorem Consistent.run {calls : List (Call O V S)} : ∀ {a a' : ActiveRegions O V S}, a.Consistent → a.run calls = some a' →
    a'.Consistent ∧ a'.regions = calls.foldl naive a.regions := by
  induction calls with
  | nil =>
    intro a a' h hrun
    obtain rfl := Option.some.inj hrun
    exact ⟨h, rfl⟩
  | cons call calls ih =>
    intro a a' h hrun
    rw [ActiveRegions.run, foldlM_cons] at hrun
    obtain ⟨a₁, hcall, hrest⟩ := Option.bind_eq_some_iff.mp hrun
    obtain ⟨h₁, hregions⟩ := h.apply hcall
    rw [foldl_cons, ← hregions]
    exact ih h₁ hrest

/-- In every state that a run leads to, each variable lists the positions of the regions it is an
alias of, ascending, and has no empty entry; the regions are those of the naive rule; closing a
region takes its position alone out of the table; and the region found for a release is the
innermost one that has the variable as alias and is accepted. -/
theorem activeRegions_consistent {calls : List (Call O V S)} {a : ActiveRegions O V S} (h : run new calls = some a) :
    (∀ v, (a.holders.get v).getD [] = held a.regions v ∧ a.holders.get v ≠ some []) ∧
    a.regions = calls.foldl naive [] ∧
    (∀ region a', a.pop = some (region, a') → a.regions = a'.regions ++ [region] ∧
      ∀ v, (a.holders.get v).getD [] =
        (a'.holders.get v).getD [] ++ if v ∈ region.aliases then [a'.regions.length] else []) ∧
    ∀ released accepts, a.innermostReleasing released accepts =
      (List.range a.regions.length).reverse.find? fun position =>
        a.regions[position]?.any fun region => released ∈ region.aliases && accepts region.enter := by
  have hnew : (new : ActiveRegions O V S).Consistent := fun v => rfl
  obtain ⟨hconsistent, hregions⟩ := hnew.run h
  refine ⟨fun v => ⟨hconsistent.getD v, fun hempty => ?_⟩, hregions, fun region a' hpop => ?_, fun released accepts => ?_⟩
  · rw [hconsistent v] at hempty
    split at hempty
    · cases hempty
    · next hne => exact hne (Option.some.inj hempty)
  · obtain ⟨hkept, hsplit⟩ := hconsistent.pop hpop
    exact ⟨hsplit, fun v => by rw [hconsistent.getD, hkept.getD, hsplit, held_append]⟩
  · have hfind : a.innermostReleasing released accepts = (held a.regions released).reverse.find? fun position =>
        a.regions[position]?.any fun region => accepts region.enter := by
      rw [innermostReleasing, hconsistent released]
      split
      · next hnil => rw [hnil]; rfl
      · rfl
    rw [hfind, held, ← filter_reverse, find?_filter]
    congr 1
    funext position
    cases a.regions[position]? with
    | none => rfl
    | some region => simp

/-- A region entered and released under two names, another under one, and assignments between them. -/
theorem activeRegions_consistent_twoRegions : ∃ a : ActiveRegions Unit Nat Unit,
    run new [.push () 1 2, .push () 3 3, .addExit 0 (), .assign 4 (some 3), .assign 3 (some 3), .assign 2 none, .pop] = some a ∧
      ∀ v, (a.holders.get v).getD [] = held a.regions v := by
  have hrun : run (new : ActiveRegions Unit Nat Unit) [.push () 1 2, .push () 3 3, .addExit 0 (), .assign 4 (some 3),
      .assign 3 (some 3), .assign 2 none, .pop] = some _ := rfl
  exact ⟨_, hrun, fun v => ((activeRegions_consistent hrun).1 v).1⟩

end ActiveRegions

end CfgLib.Hlil
