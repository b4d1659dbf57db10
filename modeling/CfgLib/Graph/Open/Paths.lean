import CfgLib.Graph.Search
import CfgLib.Lib.Replay
import Mathlib.Data.List.Count
import Mathlib.Data.List.Nodup
import Mathlib.Data.List.Chain

/-!
# Simple routes, breadth first

`graph/open/paths.rs`: every frontier entry of the walk owns its route.  The
route popped from the frontier is extended in place, moved back into the
frontier with its last successor, and copied into a recycled buffer otherwise.
Seen from outside it is the plain enumeration by levels.
-/

namespace CfgLib

open CfgLib.Lib
open List (length_append length_pos_of_ne_nil length_singleton map_cons mem_filter mem_map
  mem_range)

inductive OpenPathsEvent (N : Type) where
  | route (route : List N)
  /-- The node is already on the route. -/
  | refused (route : List N) (node : N)
  deriving DecidableEq, Repr

/-- The state of a walk: `captured` is what the callback closes over, `broke` what it broke with. -/
structure OpenPaths (N σ β : Type) where
  frontier : List (List N)
  /-- Routes the frontier has finished with, kept for their buffers. -/
  spare : List (List N)
  captured : σ
  broke : Option β

namespace OpenPaths

variable {N σ β : Type} [DecidableEq N]

section Walk

variable (successors : N → List N) (maxDepth : Option Nat)
  (onEvent : OpenPathsEvent N → σ → Except β Visit × σ)

def cloneFrom (_buffer route : List N) : List N := route

def extend (route : List N) : List N → OpenPaths N σ β → OpenPaths N σ β
  | [], w => { w with spare := w.spare ++ [route] }
  | next :: extensions, w =>
    if next ∈ route then
      match onEvent (.refused route next) w.captured with
      | (.error value, s) => { w with captured := s, broke := some value }
      | (.ok _, s) => extend route extensions { w with captured := s }
    else
      let pushed := route ++ [next]
      match onEvent (.route pushed) w.captured with
      | (.error value, s) => { w with captured := s, broke := some value }
      | (.ok verdict, s) =>
        if verdict = .descend && mayExpand maxDepth (pushed.length - 1) then
          if extensions.isEmpty then
            -- the frontier takes the route itself instead of a copy
            { w with captured := s, frontier := w.frontier ++ [pushed] }
          else
            extend pushed.dropLast extensions
              { w with
                captured := s
                spare := w.spare.dropLast
                frontier := w.frontier ++ [cloneFrom (w.spare.getLast?.getD []) pushed] }
        else extend pushed.dropLast extensions { w with captured := s }

def successorsOf (route : List N) : List N :=
  match route.getLast? with
  | some current => successors current
  | none => []

def turn (w : OpenPaths N σ β) : Option (OpenPaths N σ β) :=
  if w.broke.isSome then none
  else
    match w.frontier with
    | [] => none
    | route :: frontier =>
      some (extend maxDepth onEvent route (successorsOf successors route) { w with frontier })

/-- Report the seeds and queue those to extend. -/
def seeded : List N → OpenPaths N σ β → OpenPaths N σ β
  | [], w => w
  | seed :: seeds, w =>
    match onEvent (.route [seed]) w.captured with
    | (.error value, s) => { w with captured := s, broke := some value }
    | (.ok verdict, s) =>
      if verdict = .descend && mayExpand maxDepth 0 then
        seeded seeds { w with captured := s, frontier := w.frontier ++ [[seed]] }
      else seeded seeds { w with captured := s }

end Walk

end OpenPaths

/-- Enumerate the simple routes from `seeds`, and report the value the callback broke with and what
it captured; the outer `none` is a walk that has not ended after `fuel` turns. -/
def openBreadthFirstPaths {N σ β : Type} [DecidableEq N] (fuel : Nat) (seeds : List N)
    (maxDepth : Option Nat) (successors : N → List N)
    (onEvent : OpenPathsEvent N → σ → Except β Visit × σ) (captured : σ) : Option (Option β × σ) :=
  let w := iterate (OpenPaths.turn successors maxDepth onEvent) fuel
    (OpenPaths.seeded maxDepth onEvent seeds ⟨[], [], captured, none⟩)
  if (OpenPaths.turn successors maxDepth onEvent w).isNone then some (w.broke, w.captured) else none

namespace OpenPaths

/-! ## The enumeration by levels -/

variable {N β : Type} [DecidableEq N]

/-- The callback that logs every event, seals by a predicate and breaks by another. -/
def watch (stop : OpenPathsEvent N → Option β) (sealed : List N → Bool) (event : OpenPathsEvent N)
    (log : List (OpenPathsEvent N)) : Except β Visit × List (OpenPathsEvent N) :=
  (match stop event with
    | some value => .error value
    | none =>
      match event with
      | .route route => .ok (if sealed route then .skip else .descend)
      | .refused _ _ => .ok .descend,
    log ++ [event])

section Levels

variable (seeds : List N) (successors : N → List N) (maxDepth : Option Nat) (sealed : List N → Bool)

/-- Whether a route is extended once reported. -/
def extended (route : List N) : Bool := !sealed route && mayExpand maxDepth (route.length - 1)

def report (route : List N) (node : N) : OpenPathsEvent N :=
  if node ∈ route then .refused route node else .route (route ++ [node])

def extensions (route nodes : List N) : List (List N) :=
  (nodes.filter (· ∉ route)).map fun node => route ++ [node]

def toExtend (routes : List (List N)) : List (List N) := routes.filter (extended maxDepth sealed)

/-- The routes of `depth` hops, in the order of the plain enumeration. -/
def routesAt : Nat → List (List N)
  | 0 => seeds.map fun seed => [seed]
  | depth + 1 =>
    (toExtend maxDepth sealed (routesAt depth)).flatMap fun route => extensions route (successorsOf successors route)

/-- The events of the plain enumeration, up to the routes of `depth` hops. -/
def enumeration (depth : Nat) : List (OpenPathsEvent N) :=
  seeds.map (fun seed => .route [seed]) ++
    (List.range depth).flatMap fun k =>
      (toExtend maxDepth sealed (routesAt seeds successors maxDepth sealed k)).flatMap fun route =>
        (successorsOf successors route).map (report route)

end Levels

/-! ## The walk is the enumeration -/

section Run

variable (seeds : List N) (successors : N → List N) (maxDepth : Option Nat) (sealed : List N → Bool)
  (stop : OpenPathsEvent N → Option β)

theorem extend_spec (route nodes : List N) : ∀ w : OpenPaths N (List (OpenPathsEvent N)) β, w.broke = none →
    let w' := extend maxDepth (watch stop sealed) route nodes w
    (w'.broke, w'.captured) = replay stop (nodes.map (report route)) w.captured ∧
      (w'.broke = none → w'.frontier = w.frontier ++ toExtend maxDepth sealed (extensions route nodes)) := by
  induction nodes with
  | nil =>
    intro w hw
    refine ⟨?_, fun _ => (List.append_nil _).symm⟩
    rw [extend, hw]
    rfl
  | cons next nodes ih =>
    intro w hw
    dsimp only
    rw [extend]
    by_cases hmem : next ∈ route
    · rw [if_pos hmem]
      have hreport : report route next = .refused route next := if_pos hmem
      have hextensions : extensions route (next :: nodes) = extensions route nodes := by
        simp [extensions, hmem]
      rw [map_cons, hreport, replay_event, hextensions]
      cases hs : stop (.refused route next) with
      | some value => simp [watch, hs]
      | none =>
        simp only [watch, hs]
        exact ih _ hw
    · rw [if_neg hmem]
      have hreport : report route next = .route (route ++ [next]) := if_neg hmem
      have hextensions : extensions route (next :: nodes) = (route ++ [next]) :: extensions route nodes := by
        simp [extensions, hmem]
      rw [map_cons, hreport, replay_event, hextensions]
      cases hs : stop (.route (route ++ [next])) with
      | some value => simp [watch, hs]
      | none =>
        have hverdict : (decide ((if sealed (route ++ [next]) then Visit.skip else Visit.descend) = .descend) &&
            mayExpand maxDepth ((route ++ [next]).length - 1)) = extended maxDepth sealed (route ++ [next]) := by
          unfold extended
          cases sealed (route ++ [next]) <;> simp
        simp only [watch, hs, hverdict]
        by_cases hextended : extended maxDepth sealed (route ++ [next]) = true
        · have hopen : toExtend maxDepth sealed ((route ++ [next]) :: extensions route nodes) =
              (route ++ [next]) :: toExtend maxDepth sealed (extensions route nodes) :=
            List.filter_cons_of_pos hextended
          rw [if_pos hextended, hopen, List.dropLast_concat]
          cases nodes with
          | nil => exact ⟨by simp [hw, replay], fun _ => rfl⟩
          | cons later nodes =>
            rw [if_neg (by simp)]
            obtain ⟨hlog, hfrontier⟩ := ih ⟨w.frontier ++ [route ++ [next]], w.spare.dropLast,
              w.captured ++ [.route (route ++ [next])], w.broke⟩ hw
            refine ⟨hlog, fun hnone => ?_⟩
            rw [cloneFrom, hfrontier hnone, List.append_assoc, List.singleton_append]
        · have hopen : toExtend maxDepth sealed ((route ++ [next]) :: extensions route nodes) =
              toExtend maxDepth sealed (extensions route nodes) := List.filter_cons_of_neg hextended
          rw [if_neg hextended, hopen, List.dropLast_concat]
          exact ih _ hw

omit [DecidableEq N] in
theorem seeded_spec : ∀ w : OpenPaths N (List (OpenPathsEvent N)) β, w.broke = none →
    let w' := seeded maxDepth (watch stop sealed) seeds w
    (w'.broke, w'.captured) = replay stop (seeds.map fun seed => .route [seed]) w.captured ∧
      (w'.broke = none → w'.frontier = w.frontier ++ toExtend maxDepth sealed (seeds.map fun seed => [seed])) := by
  induction seeds with
  | nil =>
    intro w hw
    refine ⟨?_, fun _ => (List.append_nil _).symm⟩
    rw [seeded, hw]
    rfl
  | cons seed seeds ih =>
    intro w hw
    dsimp only
    rw [seeded, map_cons, map_cons, replay_event]
    cases hs : stop (.route [seed]) with
    | some value => simp [watch, hs]
    | none =>
      have hverdict : (decide ((if sealed [seed] then Visit.skip else Visit.descend) = .descend) &&
          mayExpand maxDepth 0) = extended maxDepth sealed [seed] := by
        unfold extended
        cases sealed [seed] <;> rfl
      simp only [watch, hs, hverdict]
      by_cases hextended : extended maxDepth sealed [seed] = true
      · obtain ⟨hlog, hfrontier⟩ := ih ⟨w.frontier ++ [[seed]], w.spare, w.captured ++ [.route [seed]], w.broke⟩ hw
        rw [if_pos hextended]
        refine ⟨hlog, fun hnone => ?_⟩
        rw [hfrontier hnone, List.append_assoc, toExtend, toExtend, List.filter_cons_of_pos hextended,
          List.singleton_append]
      · obtain ⟨hlog, hfrontier⟩ := ih ⟨w.frontier, w.spare, w.captured ++ [.route [seed]], w.broke⟩ hw
        rw [if_neg hextended]
        refine ⟨hlog, fun hnone => ?_⟩
        rw [hfrontier hnone, toExtend, toExtend, List.filter_cons_of_neg hextended]

theorem drain (l : List (List N)) : ∀ (rest : List (List N)) (w : OpenPaths N (List (OpenPathsEvent N)) β),
    w.broke = none → w.frontier = l ++ rest →
    let w' := iterate (turn successors maxDepth (watch stop sealed)) l.length w
    (w'.broke, w'.captured) = replay stop
        (l.flatMap fun route => (successorsOf successors route).map (report route)) w.captured ∧
      (w'.broke = none → w'.frontier = rest ++
        toExtend maxDepth sealed (l.flatMap fun route => extensions route (successorsOf successors route))) := by
  induction l with
  | nil =>
    intro rest w hw hfrontier
    refine ⟨?_, fun _ => ?_⟩
    · rw [List.length_nil, iterate, hw]
      rfl
    · rw [List.length_nil, iterate, hfrontier]
      simp [toExtend]
  | cons route l ih =>
    intro rest w hw hfrontier
    have hturn : turn successors maxDepth (watch stop sealed) w = some
        (extend maxDepth (watch stop sealed) route (successorsOf successors route) { w with frontier := l ++ rest }) := by
      rw [turn, if_neg (by rw [hw]; simp), hfrontier]
      rfl
    obtain ⟨hlog, hqueued⟩ := extend_spec maxDepth sealed stop route (successorsOf successors route)
      { w with frontier := l ++ rest } hw
    rw [List.length_cons, iterate_of_some hturn, List.flatMap_cons, List.flatMap_cons, replay_append, ← hlog]
    generalize extend maxDepth (watch stop sealed) route (successorsOf successors route)
      { w with frontier := l ++ rest } = w₁ at hqueued
    dsimp only at hqueued ⊢
    cases hbroke : w₁.broke with
    | some value =>
      have hdone : turn successors maxDepth (watch stop sealed) w₁ = none := if_pos (by rw [hbroke]; rfl)
      rw [iterate_of_none hdone, if_pos (Option.isSome_some), hbroke]
      exact ⟨rfl, fun hnone => absurd hnone (Option.some_ne_none value)⟩
    | none =>
      rw [if_neg (by simp)]
      obtain ⟨hlog', hqueued'⟩ := ih (rest ++ toExtend maxDepth sealed
        (extensions route (successorsOf successors route))) w₁ hbroke
          (by rw [hqueued hbroke, List.append_assoc])
      refine ⟨hlog', fun hnone => ?_⟩
      rw [hqueued' hnone, List.append_assoc, toExtend, toExtend, toExtend, List.filter_append]

/-- The walk before its first turn, under the logging callback. -/
def watched : OpenPaths N (List (OpenPathsEvent N)) β :=
  seeded maxDepth (watch stop sealed) seeds ⟨[], [], [], none⟩

/-- The turns that take the walk past the routes of fewer than `depth` hops. -/
def turns : Nat → Nat
  | 0 => 0
  | depth + 1 => turns depth +
      (toExtend maxDepth sealed (routesAt seeds successors maxDepth sealed depth)).length

theorem levels (depth : Nat) :
    let w := iterate (turn successors maxDepth (watch stop sealed))
      (turns seeds successors maxDepth sealed depth) (watched seeds maxDepth sealed stop)
    (w.broke, w.captured) = replay stop (enumeration seeds successors maxDepth sealed depth) [] ∧
      (w.broke = none → w.frontier = toExtend maxDepth sealed (routesAt seeds successors maxDepth sealed depth)) := by
  induction depth with
  | zero =>
    have h := seeded_spec seeds maxDepth sealed stop ⟨[], [], [], none⟩ rfl
    simpa [turns, iterate, enumeration, routesAt, watched] using h
  | succ depth ih =>
    obtain ⟨hlog, hfrontier⟩ := ih
    have henum : enumeration seeds successors maxDepth sealed (depth + 1) =
        enumeration seeds successors maxDepth sealed depth ++
          (toExtend maxDepth sealed (routesAt seeds successors maxDepth sealed depth)).flatMap fun route =>
            (successorsOf successors route).map (report route) := by
      simp [enumeration, List.range_succ]
    rw [turns, iterate_add, henum, replay_append, ← hlog]
    generalize iterate (turn successors maxDepth (watch stop sealed))
      (turns seeds successors maxDepth sealed depth) (watched seeds maxDepth sealed stop) = w at hfrontier
    dsimp only at hfrontier ⊢
    cases hbroke : w.broke with
    | some value =>
      have hdone : turn successors maxDepth (watch stop sealed) w = none := if_pos (by rw [hbroke]; rfl)
      rw [iterate_of_none hdone, if_pos (Option.isSome_some), hbroke]
      exact ⟨rfl, fun hnone => absurd hnone (Option.some_ne_none value)⟩
    | none =>
      rw [if_neg (by simp)]
      have h := drain successors maxDepth sealed stop _ [] w hbroke (by rw [hfrontier hbroke, List.append_nil])
      rwa [List.nil_append] at h

/-- A walk that has no route left to extend, or has broken off, has ended. -/
theorem turn_levels {depth : Nat} (h : toExtend maxDepth sealed (routesAt seeds successors maxDepth sealed depth) = [] ∨
      ((enumeration seeds successors maxDepth sealed depth).findSome? stop).isSome) :
    turn successors maxDepth (watch stop sealed) (iterate (turn successors maxDepth (watch stop sealed))
      (turns seeds successors maxDepth sealed depth) (watched seeds maxDepth sealed stop)) = none := by
  obtain ⟨hlog, hfrontier⟩ := levels seeds successors maxDepth sealed stop depth
  rw [turn]
  split
  · rfl
  · next hbroke =>
    have hnone := Option.not_isSome_iff_eq_none.mp hbroke
    rcases h with h | h
    · rw [hfrontier hnone, h]
    · rw [← replay_fst _ [], ← hlog] at h
      exact absurd h hbroke

theorem captured_prefix (k : Nat) : ∀ w : OpenPaths N (List (OpenPathsEvent N)) β,
    w.captured <+: (iterate (turn successors maxDepth (watch stop sealed)) k w).captured := by
  intro w
  refine iterate_invariant (I := fun w' : OpenPaths N (List (OpenPathsEvent N)) β => w.captured <+: w'.captured)
    (fun w₁ w₂ hw hturn => ?_) k List.prefix_rfl
  have hbroke : w₁.broke = none := by
    rw [turn] at hturn
    split at hturn
    · cases hturn
    · next h => exact Option.not_isSome_iff_eq_none.mp h
  cases hfrontier : w₁.frontier with
  | nil =>
    rw [turn, if_neg (by rw [hbroke]; simp), hfrontier] at hturn
    cases hturn
  | cons route rest =>
    have hlog := (drain successors maxDepth sealed stop [route] rest w₁ hbroke hfrontier).1
    rw [length_singleton, iterate_of_some hturn, iterate] at hlog
    obtain ⟨reported, -, heq⟩ := @replay_snd _ _ stop
      ([route].flatMap fun route => (successorsOf successors route).map (report route)) w₁.captured
    rw [show w₂.captured = _ from congrArg Prod.snd hlog, heq]
    exact hw.trans (List.prefix_append _ _)

theorem reported_prefix (k : Nat) : ∃ depth,
    (iterate (turn successors maxDepth (watch stop sealed)) k (watched seeds maxDepth sealed stop)).captured <+:
      enumeration seeds successors maxDepth sealed depth := by
  have hlevel : ∀ depth, (iterate (turn successors maxDepth (watch stop sealed))
      (turns seeds successors maxDepth sealed depth) (watched seeds maxDepth sealed stop)).captured <+:
        enumeration seeds successors maxDepth sealed depth := by
    intro depth
    obtain ⟨reported, hpre, heq⟩ := @replay_snd _ _ stop (enumeration seeds successors maxDepth sealed depth) []
    have hlog := congrArg Prod.snd (levels seeds successors maxDepth sealed stop depth).1
    dsimp only at hlog
    rw [hlog, heq]
    exact hpre
  by_cases hlate : ∃ depth, k ≤ turns seeds successors maxDepth sealed depth
  · obtain ⟨depth, hdepth⟩ := hlate
    refine ⟨depth, List.IsPrefix.trans ?_ (hlevel depth)⟩
    rw [show turns seeds successors maxDepth sealed depth = k + (turns seeds successors maxDepth sealed depth - k) by
      omega, iterate_add]
    exact captured_prefix successors maxDepth sealed stop _ _
  · -- the turns stay below `k`, so some level is the last
    have hlast : ∃ depth, toExtend maxDepth sealed (routesAt seeds successors maxDepth sealed depth) = [] := by
      by_contra hnone
      have hgrow : ∀ depth, depth ≤ turns seeds successors maxDepth sealed depth := by
        intro depth
        induction depth with
        | zero => exact Nat.zero_le _
        | succ depth ih =>
          have hpos := length_pos_of_ne_nil fun h => hnone ⟨depth, h⟩
          rw [turns]
          omega
      exact hlate ⟨k, hgrow k⟩
    obtain ⟨depth, hdepth⟩ := hlast
    have hk : ¬ k ≤ turns seeds successors maxDepth sealed depth := fun h => hlate ⟨depth, h⟩
    refine ⟨depth, ?_⟩
    rw [show k = turns seeds successors maxDepth sealed depth + (k - turns seeds successors maxDepth sealed depth) by
      omega, iterate_add, iterate_of_none (turn_levels seeds successors maxDepth sealed stop (Or.inl hdepth))]
    exact hlevel depth

end Run

/-! ## What the enumeration holds -/

section Routes

variable (seeds : List N) (successors : N → List N) (maxDepth : Option Nat) (sealed : List N → Bool)

/-- A node-simple route from a seed within the depth bound, none of whose proper prefixes is sealed. -/
structure IsRoute (route : List N) : Prop where
  starts : ∃ seed ∈ seeds, route.head? = some seed
  follows : route.IsChain fun a b => b ∈ successors a
  nodup : route.Nodup
  unsealed : ∀ p, p ≠ [] → p <+: route → p ≠ route → sealed p = false
  bounded : ∀ limit, maxDepth = some limit → route.length ≤ limit + 1

def hops (a : N) : List N → Nat
  | [] => 1
  | b :: rest => (successors a).count b * hops b rest

def ways : List N → Nat
  | [] => 0
  | seed :: rest => seeds.count seed * hops successors seed rest

variable {seeds successors maxDepth sealed}

omit [DecidableEq N] in
theorem IsRoute.ne_nil {route : List N} (h : IsRoute seeds successors maxDepth sealed route) : route ≠ [] := by
  obtain ⟨seed, _, hseed⟩ := h.starts
  rintro rfl
  cases hseed

omit [DecidableEq N] in
theorem isRoute_singleton {x : N} : IsRoute seeds successors maxDepth sealed [x] ↔ x ∈ seeds := by
  constructor
  · intro h
    obtain ⟨seed, hseed, heq⟩ := h.starts
    cases heq
    exact hseed
  · intro hx
    refine ⟨⟨x, hx, rfl⟩, List.isChain_singleton x, List.nodup_singleton x, fun p hp hpre hne => ?_,
      fun limit _ => by simp⟩
    obtain ⟨rest, hrest⟩ := hpre
    cases p with
    | nil => exact absurd rfl hp
    | cons a p =>
      simp only [List.cons_append, List.cons.injEq, List.append_eq_nil_iff] at hrest
      exact absurd (by rw [hrest.1, hrest.2.1]) hne

variable {p route : List N} {node : N} {depth : Nat}

theorem isRoute_append (hp : p ≠ []) (x : N) : IsRoute seeds successors maxDepth sealed (p ++ [x]) ↔
    IsRoute seeds successors maxDepth sealed p ∧ extended maxDepth sealed p = true ∧ x ∉ p ∧
      x ∈ successorsOf successors p := by
  obtain ⟨current, hcurrent⟩ : ∃ current, p.getLast? = some current := ⟨_, List.getLast?_eq_getLast_of_ne_nil hp⟩
  have hsuccessors : successorsOf successors p = successors current := by rw [successorsOf, hcurrent]
  have hchain : (p ++ [x]).IsChain (fun a b => b ∈ successors a) ↔
      p.IsChain (fun a b => b ∈ successors a) ∧ x ∈ successors current := by
    rw [List.isChain_append]
    simp [hcurrent]
  have hnodup : (p ++ [x]).Nodup ↔ p.Nodup ∧ x ∉ p := by
    rw [List.nodup_append]
    constructor
    · rintro ⟨h, -, hdisjoint⟩
      exact ⟨h, fun hx => hdisjoint x hx x List.mem_cons_self rfl⟩
    · rintro ⟨h, hx⟩
      refine ⟨h, List.nodup_singleton x, fun a ha b hb heq => hx ?_⟩
      rwa [← List.mem_singleton.mp hb, ← heq]
  have hhead : (p ++ [x]).head? = p.head? := by
    cases p with
    | nil => exact absurd rfl hp
    | cons a p => rfl
  have hpos : 0 < p.length := length_pos_of_ne_nil hp
  have hproper : p ≠ p ++ [x] := fun h => by simpa using congrArg List.length h
  rw [hsuccessors]
  constructor
  · intro h
    have hunsealed := h.unsealed p hp (List.prefix_append p [x]) hproper
    have hbound : ∀ limit, maxDepth = some limit → p.length ≤ limit := fun limit hlimit => by
      have := h.bounded limit hlimit
      rw [length_append, length_singleton] at this
      omega
    refine ⟨⟨by rw [← hhead]; exact h.starts, (hchain.mp h.follows).1, (hnodup.mp h.nodup).1,
      fun q hq hpre hne => h.unsealed q hq (hpre.trans (List.prefix_append p [x])) ?_,
      fun limit hlimit => Nat.le_succ_of_le (hbound limit hlimit)⟩, ?_, (hnodup.mp h.nodup).2, (hchain.mp h.follows).2⟩
    · rintro rfl
      have := hpre.length_le
      rw [length_append, length_singleton] at this
      omega
    · rw [extended, hunsealed, Bool.not_false, Bool.true_and, mayExpand]
      cases hlimit : maxDepth with
      | none => rfl
      | some limit =>
        have := hbound limit hlimit
        rw [Option.all_some, decide_eq_true_iff]
        omega
  · rintro ⟨h, hextended, hx, hsucc⟩
    rw [extended, Bool.and_eq_true, Bool.not_eq_true'] at hextended
    refine ⟨by rw [hhead]; exact h.starts, hchain.mpr ⟨h.follows, hsucc⟩, hnodup.mpr ⟨h.nodup, hx⟩,
      fun q hq hpre hne => ?_, fun limit hlimit => ?_⟩
    · rcases List.prefix_concat_iff.mp hpre with heq | hpre
      · exact absurd heq hne
      · by_cases hqp : q = p
        · rw [hqp]
          exact hextended.1
        · exact h.unsealed q hq hpre hqp
    · have := hextended.2
      rw [mayExpand, hlimit, Option.all_some, decide_eq_true_iff] at this
      rw [length_append, length_singleton]
      omega

theorem mem_extensions {nodes : List N} {x : N} :
    p ++ [x] ∈ extensions route nodes ↔ p = route ∧ x ∉ route ∧ x ∈ nodes := by
  rw [extensions, mem_map]
  constructor
  · rintro ⟨node, hnode, heq⟩
    obtain ⟨rfl, hx⟩ := List.append_inj' heq rfl
    obtain rfl := List.singleton_inj.mp hx
    obtain ⟨hmem, hnew⟩ := mem_filter.mp hnode
    exact ⟨rfl, of_decide_eq_true hnew, hmem⟩
  · rintro ⟨rfl, hnew, hmem⟩
    exact ⟨x, mem_filter.mpr ⟨hmem, decide_eq_true hnew⟩, rfl⟩

theorem ne_nil_of_mem_extensions {nodes : List N} (h : p ∈ extensions route nodes) : p ≠ [] := by
  obtain ⟨node, -, rfl⟩ := mem_map.mp h
  exact List.append_ne_nil_of_right_ne_nil _ (List.cons_ne_nil _ _)

theorem mem_routesAt (depth : Nat) : ∀ route, route ∈ routesAt seeds successors maxDepth sealed depth ↔
    IsRoute seeds successors maxDepth sealed route ∧ route.length = depth + 1 := by
  induction depth with
  | zero =>
    intro route
    rw [routesAt, mem_map]
    constructor
    · rintro ⟨seed, hseed, rfl⟩
      exact ⟨isRoute_singleton.mpr hseed, rfl⟩
    · rintro ⟨hroute, hlength⟩
      obtain ⟨x, rfl⟩ := List.length_eq_one_iff.mp hlength
      exact ⟨x, isRoute_singleton.mp hroute, rfl⟩
  | succ depth ih =>
    intro route
    rw [routesAt, List.mem_flatMap]
    rcases List.eq_nil_or_concat route with rfl | ⟨p, x, rfl⟩
    · constructor
      · rintro ⟨_, _, hmem⟩
        exact absurd rfl (ne_nil_of_mem_extensions hmem)
      · rintro ⟨hroute, _⟩
        exact absurd rfl hroute.ne_nil
    · rw [List.concat_eq_append, length_append, length_singleton]
      constructor
      · rintro ⟨q, hq, hmem⟩
        obtain ⟨rfl, hnew, hsucc⟩ := mem_extensions.mp hmem
        obtain ⟨hq, hextended⟩ := mem_filter.mp hq
        obtain ⟨hroute, hlength⟩ := (ih p).mp hq
        exact ⟨(isRoute_append hroute.ne_nil x).mpr ⟨hroute, hextended, hnew, hsucc⟩, by rw [hlength]⟩
      · rintro ⟨hroute, hlength⟩
        have hp : p ≠ [] := List.ne_nil_of_length_pos (by omega)
        obtain ⟨hroute, hextended, hnew, hsucc⟩ := (isRoute_append hp x).mp hroute
        exact ⟨p, mem_filter.mpr ⟨(ih p).mpr ⟨hroute, by omega⟩, hextended⟩,
          mem_extensions.mpr ⟨rfl, hnew, hsucc⟩⟩

theorem hops_append (l : List N) (x : N) : ∀ a, hops successors a (l ++ [x]) =
    hops successors a l * (successorsOf successors (a :: l)).count x := by
  induction l with
  | nil => exact fun a => by simp [hops, successorsOf]
  | cons b l ih =>
    intro a
    have hlast : successorsOf successors (a :: b :: l) = successorsOf successors (b :: l) := by
      rw [successorsOf, successorsOf, List.getLast?_cons_cons]
    rw [List.cons_append, hops, hops, ih b, hlast, Nat.mul_assoc]

theorem ways_append (hp : p ≠ []) (x : N) : ways seeds successors (p ++ [x]) =
    ways seeds successors p * (successorsOf successors p).count x := by
  cases p with
  | nil => exact absurd rfl hp
  | cons a l => rw [List.cons_append, ways, ways, hops_append, Nat.mul_assoc]

theorem count_flatMap_block {α γ : Type} [BEq α] [LawfulBEq α] [BEq γ] [LawfulBEq γ] {f : α → List γ} {a : α} {c : γ}
    (h : ∀ b, b ≠ a → c ∉ f b) (l : List α) : (l.flatMap f).count c = l.count a * (f a).count c := by
  induction l with
  | nil => simp
  | cons b l ih =>
    rw [List.flatMap_cons, List.count_append, ih]
    by_cases hb : b = a
    · rw [hb, List.count_cons_self, Nat.succ_mul, Nat.add_comm]
    · rw [List.count_eq_zero_of_not_mem (h b hb), List.count_cons_of_ne hb, Nat.zero_add]

theorem count_routesAt (depth : Nat) : ∀ route, IsRoute seeds successors maxDepth sealed route →
    route.length = depth + 1 →
      (routesAt seeds successors maxDepth sealed depth).count route = ways seeds successors route := by
  induction depth with
  | zero =>
    intro route _ hlength
    obtain ⟨x, rfl⟩ := List.length_eq_one_iff.mp hlength
    rw [routesAt, List.count_map_of_injective _ _ (fun a b h => List.singleton_inj.mp h), ways, hops, Nat.mul_one]
  | succ depth ih =>
    intro route hroute hlength
    rcases List.eq_nil_or_concat route with rfl | ⟨p, x, rfl⟩
    · cases hlength
    · rw [List.concat_eq_append] at hroute hlength ⊢
      rw [length_append, length_singleton] at hlength
      have hp : p ≠ [] := List.ne_nil_of_length_pos (by omega)
      obtain ⟨hroute, hextended, hnew, hsucc⟩ := (isRoute_append hp x).mp hroute
      have hinner : (extensions p (successorsOf successors p)).count (p ++ [x]) =
          (successorsOf successors p).count x := by
        rw [extensions, List.count_map_of_injective _ (fun node => p ++ [node])
          (fun a b h => List.singleton_inj.mp (List.append_cancel_left h)), List.count_filter (p := fun y => decide (y ∉ p)) (decide_eq_true hnew)]
      rw [routesAt, count_flatMap_block (fun b hb hmem => hb (mem_extensions.mp hmem).1.symm), hinner, toExtend,
        List.count_filter hextended, ih p hroute (by omega), ways_append hp]

/-! ## Reading the log -/

def routesOf (log : List (OpenPathsEvent N)) : List (List N) :=
  log.filterMap fun
    | .route route => some route
    | .refused _ _ => none

def refusalsOf (log : List (OpenPathsEvent N)) : List (List N × N) :=
  log.filterMap fun
    | .route _ => none
    | .refused route node => some (route, node)

theorem routesOf_reports (route nodes : List N) :
    routesOf (nodes.map (report route)) = extensions route nodes := by
  induction nodes with
  | nil => rfl
  | cons node nodes ih =>
    unfold routesOf extensions at ih ⊢
    by_cases hmem : node ∈ route <;> simp [report, hmem, ih]

theorem refusalsOf_reports (route nodes : List N) :
    refusalsOf (nodes.map (report route)) = (nodes.filter (· ∈ route)).map fun node => (route, node) := by
  induction nodes with
  | nil => rfl
  | cons node nodes ih =>
    unfold refusalsOf at ih ⊢
    by_cases hmem : node ∈ route <;> simp [report, hmem, ih]

def refusalsAt (seeds : List N) (successors : N → List N) (maxDepth : Option Nat) (sealed : List N → Bool)
    (depth : Nat) : List (List N × N) :=
  (toExtend maxDepth sealed (routesAt seeds successors maxDepth sealed depth)).flatMap fun route =>
    ((successorsOf successors route).filter (· ∈ route)).map fun node => (route, node)

theorem routesOf_enumeration (depth : Nat) : routesOf (enumeration seeds successors maxDepth sealed depth) =
    (List.range (depth + 1)).flatMap (routesAt seeds successors maxDepth sealed) := by
  have hseeds : routesOf (seeds.map fun seed => OpenPathsEvent.route [seed]) =
      routesAt seeds successors maxDepth sealed 0 := by
    rw [routesOf, routesAt, List.filterMap_map, ← List.filterMap_eq_map]
    rfl
  have hlevel : ∀ k, routesOf ((toExtend maxDepth sealed (routesAt seeds successors maxDepth sealed k)).flatMap
      fun route => (successorsOf successors route).map (report route)) =
        routesAt seeds successors maxDepth sealed (k + 1) := by
    intro k
    rw [routesOf, List.filterMap_flatMap, routesAt]
    congr 1
    funext route
    exact routesOf_reports route _
  rw [List.range_succ_eq_map, List.flatMap_cons, List.flatMap_map, enumeration, routesOf, List.filterMap_append,
    List.filterMap_flatMap]
  exact congrArg₂ _ hseeds (congrArg (List.flatMap · (List.range depth)) (funext hlevel))

theorem refusalsOf_enumeration (depth : Nat) : refusalsOf (enumeration seeds successors maxDepth sealed depth) =
    (List.range depth).flatMap (refusalsAt seeds successors maxDepth sealed) := by
  have hseeds : refusalsOf (seeds.map fun seed => OpenPathsEvent.route [seed]) = [] := by
    rw [refusalsOf, List.filterMap_map]
    exact List.filterMap_eq_nil_iff.mpr fun _ _ => rfl
  have hlevel : ∀ k, refusalsOf ((toExtend maxDepth sealed (routesAt seeds successors maxDepth sealed k)).flatMap
      fun route => (successorsOf successors route).map (report route)) =
        refusalsAt seeds successors maxDepth sealed k := by
    intro k
    rw [refusalsOf, List.filterMap_flatMap, refusalsAt]
    congr 1
    funext route
    exact refusalsOf_reports route _
  rw [enumeration, refusalsOf, List.filterMap_append, List.filterMap_flatMap]
  exact congrArg₂ _ hseeds (congrArg (List.flatMap · (List.range depth)) (funext hlevel))

theorem mem_routesOf : route ∈ routesOf (enumeration seeds successors maxDepth sealed depth) ↔
      IsRoute seeds successors maxDepth sealed route ∧ route.length ≤ depth + 1 := by
  rw [routesOf_enumeration, List.mem_flatMap]
  constructor
  · rintro ⟨k, hk, hmem⟩
    obtain ⟨hroute, hlength⟩ := (mem_routesAt k route).mp hmem
    exact ⟨hroute, by rw [hlength]; exact mem_range.mp hk⟩
  · rintro ⟨hroute, hlength⟩
    have hpos : 0 < route.length := length_pos_of_ne_nil hroute.ne_nil
    exact ⟨route.length - 1, mem_range.mpr (by omega), (mem_routesAt _ route).mpr ⟨hroute, by omega⟩⟩

theorem count_routesOf (hroute : IsRoute seeds successors maxDepth sealed route) (hlength : route.length ≤ depth + 1) :
    (routesOf (enumeration seeds successors maxDepth sealed depth)).count route = ways seeds successors route := by
  have hpos : 0 < route.length := length_pos_of_ne_nil hroute.ne_nil
  have hblock : ∀ k, k ≠ route.length - 1 → route ∉ routesAt seeds successors maxDepth sealed k := by
    intro k hk hmem
    have := ((mem_routesAt k route).mp hmem).2
    omega
  have hrange : (List.range (depth + 1)).count (route.length - 1) = 1 :=
    List.count_eq_one_of_mem List.nodup_range (mem_range.mpr (by omega))
  rw [routesOf_enumeration, count_flatMap_block hblock, hrange, Nat.one_mul, count_routesAt _ route hroute (by omega)]

theorem pairwise_routesOf (depth : Nat) : (routesOf (enumeration seeds successors maxDepth sealed depth)).Pairwise
    fun p q => p.length ≤ q.length := by
  have hlength : ∀ k, ∀ p ∈ routesAt seeds successors maxDepth sealed k, p.length = k + 1 :=
    fun k p hp => ((mem_routesAt k p).mp hp).2
  rw [routesOf_enumeration, List.pairwise_flatMap]
  refine ⟨fun k _ => List.pairwise_of_forall_mem_list fun p hp q hq => ?_,
    List.pairwise_lt_range.imp fun {j k} hjk p hp q hq => ?_⟩
  · rw [hlength k p hp, hlength k q hq]
  · rw [hlength j p hp, hlength k q hq]
    exact Nat.succ_le_succ hjk.le

theorem shortest_of_find {goal : List N → Bool} {other : List N}
    (hfind : (routesOf (enumeration seeds successors maxDepth sealed depth)).find? goal = some route)
    (hother : IsRoute seeds successors maxDepth sealed other) (hgoal : goal other = true) :
    route.length ≤ other.length := by
  have hroute := (mem_routesOf.mp (List.mem_of_find?_eq_some hfind)).2
  by_cases hlength : other.length ≤ depth + 1
  · obtain ⟨-, before, later, hsplit, hbefore⟩ := List.find?_eq_some_iff_append.mp hfind
    have hmem := mem_routesOf.mpr ⟨hother, hlength⟩
    have hpairwise : (routesOf (enumeration seeds successors maxDepth sealed depth)).Pairwise
        fun p q => p.length ≤ q.length := pairwise_routesOf depth
    rw [hsplit] at hpairwise hmem
    rcases List.mem_append.mp hmem with hmem | hmem
    · have := hbefore other hmem
      rw [hgoal] at this
      cases this
    · rcases List.mem_cons.mp hmem with rfl | hmem
      · exact Nat.le_refl _
      · exact (List.pairwise_cons.mp (List.pairwise_append.mp hpairwise).2.1).1 other hmem
  · omega

theorem mem_refusalsAt : (route, node) ∈ refusalsAt seeds successors maxDepth sealed depth ↔
      route ∈ toExtend maxDepth sealed (routesAt seeds successors maxDepth sealed depth) ∧
        node ∈ successorsOf successors route ∧ node ∈ route := by
  rw [refusalsAt, List.mem_flatMap]
  constructor
  · rintro ⟨p, hp, hmem⟩
    obtain ⟨x, hx, heq⟩ := mem_map.mp hmem
    cases heq
    obtain ⟨hsucc, hon⟩ := mem_filter.mp hx
    exact ⟨hp, hsucc, of_decide_eq_true hon⟩
  · rintro ⟨hp, hsucc, hon⟩
    exact ⟨route, hp, mem_map.mpr ⟨node, mem_filter.mpr ⟨hsucc, decide_eq_true hon⟩, rfl⟩⟩

theorem mem_toExtend :
    route ∈ toExtend maxDepth sealed (routesAt seeds successors maxDepth sealed depth) ↔
      (IsRoute seeds successors maxDepth sealed route ∧ route.length = depth + 1) ∧
        extended maxDepth sealed route = true := by
  rw [toExtend, mem_filter, mem_routesAt]

theorem count_refusalsOf
    (hroute : IsRoute seeds successors maxDepth sealed route) (hextended : extended maxDepth sealed route = true)
    (hon : node ∈ route) (hlength : route.length ≤ depth) :
    (refusalsOf (enumeration seeds successors maxDepth sealed depth)).count (route, node) =
      ways seeds successors route * (successorsOf successors route).count node := by
  have hpos : 0 < route.length := length_pos_of_ne_nil hroute.ne_nil
  have hblock : ∀ k, k ≠ route.length - 1 → (route, node) ∉ refusalsAt seeds successors maxDepth sealed k := by
    intro k hk hmem
    rw [mem_refusalsAt, mem_toExtend] at hmem
    have := hmem.1.1.2
    omega
  have hrange : (List.range depth).count (route.length - 1) = 1 :=
    List.count_eq_one_of_mem List.nodup_range (mem_range.mpr (by omega))
  have hroutes : ∀ p, p ≠ route → (route, node) ∉
      ((successorsOf successors p).filter (· ∈ p)).map fun x => (p, x) := by
    intro p hp hmem
    obtain ⟨x, -, heq⟩ := mem_map.mp hmem
    exact hp (Prod.mk.inj heq).1
  rw [refusalsOf_enumeration, count_flatMap_block hblock, hrange, Nat.one_mul, refusalsAt, count_flatMap_block hroutes,
    toExtend, List.count_filter hextended, count_routesAt _ route hroute (by omega),
    List.count_map_of_injective _ _ (fun a b h => (Prod.mk.inj h).2), List.count_filter (p := fun y => decide (y ∈ route)) (decide_eq_true hon)]

theorem mem_refusalsOf :
    (route, node) ∈ refusalsOf (enumeration seeds successors maxDepth sealed depth) ↔
      (IsRoute seeds successors maxDepth sealed route ∧ route.length ≤ depth) ∧
        extended maxDepth sealed route = true ∧ node ∈ successorsOf successors route ∧ node ∈ route := by
  simp only [refusalsOf_enumeration, List.mem_flatMap, mem_refusalsAt, mem_toExtend]
  constructor
  · rintro ⟨k, hk, ⟨⟨hroute, hlength⟩, hextended⟩, hsucc, hon⟩
    exact ⟨⟨hroute, by rw [hlength]; exact mem_range.mp hk⟩, hextended, hsucc, hon⟩
  · rintro ⟨⟨hroute, hlength⟩, hextended, hsucc, hon⟩
    have hpos : 0 < route.length := length_pos_of_ne_nil hroute.ne_nil
    exact ⟨route.length - 1, mem_range.mpr (by omega), ⟨⟨hroute, by omega⟩, hextended⟩, hsucc, hon⟩

theorem toExtend_at_bound {limit : Nat} (h : maxDepth = some limit) :
    toExtend maxDepth sealed (routesAt seeds successors maxDepth sealed limit) = [] := by
  refine List.filter_eq_nil_iff.mpr fun route hroute hextended => ?_
  have hlength := ((mem_routesAt limit route).mp hroute).2
  rw [extended, Bool.and_eq_true, mayExpand, h, Option.all_some, decide_eq_true_iff] at hextended
  omega

end Routes

end OpenPaths

open OpenPaths in
/-- The walk reports the plain enumeration level by level and nothing else, ends where no route is
left to extend or the callback breaks, and what it reports are the routes and the refusals, once for
each way they are spelled, the shortest routes first. -/
theorem openBreadthFirstPaths_exact {N β : Type} [DecidableEq N] (seeds : List N) (successors : N → List N)
    (maxDepth : Option Nat) (sealed : List N → Bool) (stop : OpenPathsEvent N → Option β) :
    (∀ depth, ∃ count,
      let w := iterate (OpenPaths.turn successors maxDepth (watch stop sealed)) count
        (seeded maxDepth (watch stop sealed) seeds ⟨[], [], [], none⟩)
      (w.broke, w.captured) = replay stop (enumeration seeds successors maxDepth sealed depth) []) ∧
    (∀ count, ∃ depth, (iterate (OpenPaths.turn successors maxDepth (watch stop sealed)) count
        (seeded maxDepth (watch stop sealed) seeds ⟨[], [], [], none⟩)).captured <+:
          enumeration seeds successors maxDepth sealed depth) ∧
    (∀ depth, toExtend maxDepth sealed (routesAt seeds successors maxDepth sealed depth) = [] ∨
        ((enumeration seeds successors maxDepth sealed depth).findSome? stop).isSome →
      ∃ least, ∀ fuel, least ≤ fuel →
        openBreadthFirstPaths fuel seeds maxDepth successors (watch stop sealed) [] =
          some (replay stop (enumeration seeds successors maxDepth sealed depth) [])) ∧
    (∀ limit, maxDepth = some limit →
      toExtend maxDepth sealed (routesAt seeds successors maxDepth sealed limit) = []) ∧ ∀ depth,
      let reported := enumeration seeds successors maxDepth sealed depth
      (∀ route, route ∈ routesOf reported ↔
        IsRoute seeds successors maxDepth sealed route ∧ route.length ≤ depth + 1) ∧
      (∀ route ∈ routesOf reported, (routesOf reported).count route = ways seeds successors route) ∧
      (routesOf reported).Pairwise (fun p q => p.length ≤ q.length) ∧
      (∀ goal route other, (routesOf reported).find? goal = some route →
        IsRoute seeds successors maxDepth sealed other → goal other = true → route.length ≤ other.length) ∧
      (∀ route node, (route, node) ∈ refusalsOf reported ↔
        (IsRoute seeds successors maxDepth sealed route ∧ route.length ≤ depth) ∧
          extended maxDepth sealed route = true ∧ node ∈ successorsOf successors route ∧ node ∈ route) ∧
      ∀ route node, (route, node) ∈ refusalsOf reported →
        (refusalsOf reported).count (route, node) =
          ways seeds successors route * (successorsOf successors route).count node := by
  refine ⟨fun depth => ⟨_, (levels seeds successors maxDepth sealed stop depth).1⟩,
    reported_prefix seeds successors maxDepth sealed stop, fun depth hend => ?_, fun limit => toExtend_at_bound,
    fun depth => ⟨fun route => mem_routesOf, fun route hroute => ?_, pairwise_routesOf depth,
      fun goal route other => shortest_of_find, fun route node => mem_refusalsOf, fun route node hmem => ?_⟩⟩
  · have hexit := turn_levels seeds successors maxDepth sealed stop hend
    have hlog := (levels seeds successors maxDepth sealed stop depth).1
    dsimp only [watched] at hexit hlog
    refine ⟨turns seeds successors maxDepth sealed depth, fun fuel hfuel => ?_⟩
    obtain ⟨more, rfl⟩ := Nat.exists_eq_add_of_le hfuel
    rw [openBreadthFirstPaths, iterate_add, iterate_of_none hexit, hexit, ← hlog]
    rfl
  · obtain ⟨hroute, hlength⟩ := mem_routesOf.mp hroute
    exact count_routesOf hroute hlength
  · obtain ⟨⟨hroute, hlength⟩, hextended, -, hon⟩ := mem_refusalsOf.mp hmem
    exact count_refusalsOf hroute hextended hon hlength

end CfgLib
