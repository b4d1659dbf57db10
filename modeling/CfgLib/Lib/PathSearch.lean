import CfgLib.Lib.Loop
import Mathlib.Data.List.Basic
import Mathlib.Logic.Relation
import Mathlib.Tactic.Linarith

/-!
# Enumerating paths

A tree of prefixes explored through a frontier.  `drain` pops a prefix, expands it
and pushes its successors until the frontier is empty or an expansion stops the
search.  Where every successor has a smaller rank and no prefix has more than `B`
successors, enough fuel drains the frontier (`drain_terminates`).  Where expansion
never stops, each prefix below the seed is visited (`drain_visits`), and a
first-in-first-out frontier visits them level by level (`drain_levels`).  Where
each expansion finds at most one successor, the search is a walk along a single
path (`drain_follow`).
-/

namespace CfgLib.Lib

open Relation List

variable {π σ : Type}

/-- Which end of the frontier the next prefix comes from. -/
inductive SearchOrder
  | breadthFirst
  | depthFirst
  deriving DecidableEq, Repr

/-- Prefixes that wait to be expanded; `pending` of them, at the back, were pushed
since the last pop. -/
structure PathFrontier (π : Type) where
  order : SearchOrder
  queue : List π
  pending : Nat

namespace PathFrontier

def new (order : SearchOrder) : PathFrontier π := ⟨order, [], 0⟩

def push (f : PathFrontier π) (p : π) : PathFrontier π :=
  { f with queue := f.queue ++ [p], pending := f.pending + 1 }

def pop (f : PathFrontier π) : Option (π × PathFrontier π) :=
  match f.order with
  | .breadthFirst =>
    match f.queue with
    | [] => none
    | p :: queue => some (p, { f with queue := queue, pending := 0 })
  | .depthFirst =>
    let settled := f.queue.length - f.pending
    let queue := f.queue.take settled ++ (f.queue.drop settled).reverse
    match queue.getLast? with
    | none => none
    | some p => some (p, { f with queue := queue.dropLast, pending := 0 })

def pushAll (f : PathFrontier π) (successors : List π) : PathFrontier π :=
  successors.foldl push f

theorem pushAll_eq (f : PathFrontier π) (successors : List π) : f.pushAll successors =
      ⟨f.order, f.queue ++ successors, f.pending + successors.length⟩ := by
  induction successors generalizing f with
  | nil => simp [pushAll]
  | cons p successors ih =>
    show (f.push p).pushAll successors = _
    rw [ih]
    simp [push, Nat.add_comm, Nat.add_left_comm]

variable {f : PathFrontier π}

theorem pop_eq_none : f.pop = none ↔ f.queue = [] := by
  obtain ⟨order, queue, pending⟩ := f
  cases order with
  | breadthFirst => cases queue <;> simp [pop]
  | depthFirst =>
    simp only [pop]
    split
    · next h =>
      have hnil := getLast?_eq_none_iff.mp h
      have hlen := congrArg List.length hnil
      simp only [length_append, length_take, length_reverse, length_drop,
        length_nil] at hlen
      simp only [true_iff]
      exact length_eq_zero_iff.mp (by omega)
    · next p h =>
      simp only [reduceCtorEq, false_iff]
      rintro rfl
      simp at h

theorem pop_perm {f' : PathFrontier π} {p : π} (h : f.pop = some (p, f')) :
    f.queue.Perm (p :: f'.queue) ∧ f'.order = f.order ∧ f'.pending = 0 := by
  obtain ⟨order, queue, pending⟩ := f
  cases order with
  | breadthFirst =>
    cases queue with
    | nil => simp [pop] at h
    | cons q queue =>
      simp only [pop, Option.some.injEq, Prod.mk.injEq] at h
      obtain ⟨rfl, rfl⟩ := h
      exact ⟨List.Perm.refl _, rfl, rfl⟩
  | depthFirst =>
    simp only [pop] at h
    split at h
    · cases h
    · next q hlast =>
      simp only [Option.some.injEq, Prod.mk.injEq] at h
      obtain ⟨rfl, rfl⟩ := h
      refine ⟨?_, rfl, rfl⟩
      set settled := queue.length - pending
      set turned := queue.take settled ++ (queue.drop settled).reverse with hturned
      have hperm : turned.Perm queue := by
        calc turned
            |>.Perm (queue.take settled ++ queue.drop settled) :=
              List.Perm.append_left _ (reverse_perm _)
          _ = queue := take_append_drop _ _
      have hsplit : turned.dropLast ++ [q] = turned := dropLast_append_getLast? q hlast
      calc queue
          |>.Perm turned := hperm.symm
        _ = turned.dropLast ++ [q] := hsplit.symm
        _ |>.Perm (q :: turned.dropLast) := perm_append_singleton _ _

theorem pop_new (order : SearchOrder) : (new order : PathFrontier π).pop = none :=
  pop_eq_none.mpr rfl

theorem pop_singleton (order : SearchOrder) (p : π) (pending : Nat) :
    (⟨order, [p], pending⟩ : PathFrontier π).pop = some (p, new order) := by
  cases order with
  | breadthFirst => rfl
  | depthFirst => cases pending <;> simp [pop, new]

end PathFrontier

/-! ## Draining a frontier -/

inductive Expansion (σ π : Type)
  | stop (s : σ)
  | extend (s : σ) (successors : List π)

/-- Expand the prefixes of the frontier until none is left or one stops the search;
`none` when the fuel runs out. -/
def drain (expand : σ → π → Expansion σ π) : Nat → PathFrontier π → σ → Option σ
  | 0, _, _ => none
  | fuel + 1, f, s =>
    match f.pop with
    | none => some s
    | some (p, f) =>
      match expand s p with
      | .stop s => some s
      | .extend s successors => drain expand fuel (f.pushAll successors) s

inductive Expands (expand : σ → π → Expansion σ π) : PathFrontier π → σ → π → Prop
  | here {f f' : PathFrontier π} {s s' : σ} {p : π} {l : List π} :
      f.pop = some (p, f') → expand s p = .extend s' l → Expands expand f s p
  | later {f f' : PathFrontier π} {s s' : σ} {p q : π} {l : List π} :
      f.pop = some (p, f') → expand s p = .extend s' l → Expands expand (f'.pushAll l) s' q →
        Expands expand f s q

variable {expand : σ → π → Expansion σ π}

variable {l : List π}

theorem total_perm {w : π → Nat} {l' : List π} (h : l.Perm l') : total w l = total w l' := by
  induction h with
  | nil => rfl
  | cons a _ ih => simp only [total, ih]
  | swap a b l => simp only [total]; omega
  | trans _ _ ih ih' => rw [ih, ih']

theorem total_pow_lt {rank : π → Nat} {B k : Nat} (hlen : l.length ≤ B)
    (hrank : ∀ q ∈ l, rank q < k) : total (fun q => (B + 1) ^ rank q) l < (B + 1) ^ k := by
  cases k with
  | zero =>
    obtain rfl : l = [] := eq_nil_iff_forall_not_mem.mpr fun q hq => absurd (hrank q hq) (by omega)
    simp [total]
  | succ k =>
    have hle : total (fun q => (B + 1) ^ rank q) l ≤ total (fun _ => (B + 1) ^ k) l :=
      total_le fun q hq => Nat.pow_le_pow_right (by omega) (Nat.le_of_lt_succ (hrank q hq))
    have hpos : 0 < (B + 1) ^ k := Nat.pow_pos (by omega)
    calc total (fun q => (B + 1) ^ rank q) l
        ≤ (B + 1) ^ k * l.length := by rwa [total_const] at hle
      _ ≤ (B + 1) ^ k * B := Nat.mul_le_mul_left _ hlen
      _ < (B + 1) ^ k * (B + 1) := Nat.mul_lt_mul_of_pos_left (by omega) hpos
      _ = (B + 1) ^ (k + 1) := (pow_succ _ _).symm

/-- A search whose prefixes fall in rank and branch boundedly comes to an end. -/
theorem drain_terminates {rank : π → Nat} {B : Nat} {P : π → Prop}
    (hexpand : ∀ s p s' l, P p → expand s p = .extend s' l → l.length ≤ B ∧ ∀ q ∈ l, P q ∧ rank q < rank p)
    {fuel : Nat} {f : PathFrontier π} (hP : ∀ p ∈ f.queue, P p)
    (hfuel : total (fun q => (B + 1) ^ rank q) f.queue < fuel) (s : σ) :
    ∃ r, drain expand fuel f s = some r := by
  induction fuel generalizing f s with
  | zero => omega
  | succ fuel ih =>
    simp only [drain]
    cases hpop : f.pop with
    | none => exact ⟨s, rfl⟩
    | some popped =>
      obtain ⟨p, f'⟩ := popped
      have hperm := (PathFrontier.pop_perm hpop).1
      cases hexp : expand s p with
      | stop s' => exact ⟨s', by simp only [hexp]⟩
      | extend s' l =>
        simp only [hexp]
        have hp : P p := hP p (hperm.mem_iff.mpr mem_cons_self)
        obtain ⟨hlen, hl⟩ := hexpand s p s' l hp hexp
        refine ih ?_ ?_ s'
        · intro q hq
          rw [PathFrontier.pushAll_eq, mem_append] at hq
          obtain hq | hq := hq
          · exact hP q (hperm.mem_iff.mpr (mem_cons_of_mem p hq))
          · exact (hl q hq).1
        · have hless := total_pow_lt hlen fun q hq => (hl q hq).2
          rw [total_perm hperm] at hfuel
          rw [PathFrontier.pushAll_eq, total_append]
          simp only [total] at hfuel
          omega

/-! ## A search that is never stopped -/

section Unstopped

variable {I : σ → Prop} {visit : σ → π → σ} {children : π → List π}

variable {level : List π} {depth fuel : Nat} {rank : π → Nat} {r s : σ}

theorem drain_visits (hexpand : ∀ s p, I s → expand s p = .extend (visit s p) (children p) ∧ I (visit s p))
    {f : PathFrontier π} (hs : I s) (h : drain expand fuel f s = some r) :
    ∃ visited : List π, r = visited.foldl visit s ∧
      ∀ q, q ∈ visited ↔ ∃ p ∈ f.queue, ReflTransGen (fun a b => b ∈ children a) p q := by
  induction fuel generalizing f s with
  | zero => cases h
  | succ fuel ih =>
    simp only [drain] at h
    cases hpop : f.pop with
    | none =>
      simp only [hpop, Option.some.injEq] at h
      refine ⟨[], h.symm, fun q => ?_⟩
      simp [PathFrontier.pop_eq_none.mp hpop]
    | some popped =>
      obtain ⟨p, f'⟩ := popped
      obtain ⟨hexp, hs'⟩ := hexpand s p hs
      simp only [hpop, hexp] at h
      obtain ⟨visited, hr, hvisited⟩ := ih hs' h
      refine ⟨p :: visited, hr, fun q => ?_⟩
      have hperm := (PathFrontier.pop_perm hpop).1
      rw [mem_cons, hvisited, PathFrontier.pushAll_eq]
      constructor
      · rintro (rfl | ⟨a, ha, haq⟩)
        · exact ⟨q, hperm.mem_iff.mpr mem_cons_self, .refl⟩
        · obtain ha | ha := mem_append.mp ha
          · exact ⟨a, hperm.mem_iff.mpr (mem_cons_of_mem p ha), haq⟩
          · exact ⟨p, hperm.mem_iff.mpr mem_cons_self, .head ha haq⟩
      · rintro ⟨a, ha, haq⟩
        obtain rfl | ha := mem_cons.mp (hperm.mem_iff.mp ha)
        · obtain rfl | ⟨b, hab, hbq⟩ := haq.cases_head
          · exact Or.inl rfl
          · exact Or.inr ⟨b, mem_append_right _ hab, hbq⟩
        · exact Or.inr ⟨a, mem_append_left _ ha, haq⟩

/-- The prefixes of a tree level by level, down to a depth. -/
def levels (children : π → List π) : Nat → List π → List π
  | 0, _ => []
  | depth + 1, level => level ++ levels children depth (level.flatMap children)

theorem levels_nil (depth : Nat) : levels children depth [] = [] := by
  induction depth with
  | zero => rfl
  | succ depth ih => simp [levels, ih]

theorem rank_next_lt {rank : π → Nat} (hrank : ∀ p, ∀ q ∈ children p, rank q < rank p) {depth : Nat}
    {level : List π} (hlevel : ∀ p ∈ level, rank p < depth + 1) :
    ∀ q ∈ level.flatMap children, rank q < depth := by
  intro q hq
  obtain ⟨p, hp, hpq⟩ := mem_flatMap.mp hq
  have := hlevel p hp
  have := hrank p q hpq
  omega

theorem mem_levels (hrank : ∀ p, ∀ q ∈ children p, rank q < rank p) (hlevel : ∀ p ∈ level, rank p < depth) {q : π} :
    q ∈ levels children depth level ↔ ∃ p ∈ level, ReflTransGen (fun a b => b ∈ children a) p q := by
  induction depth generalizing level with
  | zero =>
    obtain rfl : level = [] := eq_nil_iff_forall_not_mem.mpr fun p hp => absurd (hlevel p hp) (by omega)
    simp [levels]
  | succ depth ih =>
    rw [levels, mem_append, ih (rank_next_lt hrank hlevel)]
    constructor
    · rintro (hq | ⟨b, hb, hbq⟩)
      · exact ⟨q, hq, .refl⟩
      · obtain ⟨a, ha, hab⟩ := mem_flatMap.mp hb
        exact ⟨a, ha, .head hab hbq⟩
    · rintro ⟨a, ha, haq⟩
      obtain rfl | ⟨b, hab, hbq⟩ := haq.cases_head
      · exact Or.inl ha
      · exact Or.inr ⟨b, mem_flatMap.mpr ⟨a, ha, hab⟩, hbq⟩

theorem drain_levels (hexpand : ∀ s p, I s → expand s p = .extend (visit s p) (children p) ∧ I (visit s p))
    (hrank : ∀ p, ∀ q ∈ children p, rank q < rank p) {pending : Nat} (hlevel : ∀ p ∈ level, rank p < depth) (hs : I s)
    (h : drain expand fuel ⟨.breadthFirst, level, pending⟩ s = some r) :
    r = (levels children depth level).foldl visit s := by
  -- The queue is the rest of one level and a first part of the next one.
  have hqueue : ∀ (fuel depth : Nat) (rest next : List π) (pending : Nat) (s : σ), I s →
      (∀ p ∈ next ++ rest.flatMap children, rank p < depth) →
      drain expand fuel ⟨.breadthFirst, rest ++ next, pending⟩ s = some r →
        r = (rest ++ levels children depth (next ++ rest.flatMap children)).foldl visit s := by
    intro fuel
    induction fuel with
    | zero => intro _ _ _ _ _ _ _ h; cases h
    | succ fuel ih =>
      have hcons : ∀ (depth : Nat) (p : π) (rest next : List π) (pending : Nat) (s : σ), I s →
          (∀ q ∈ next ++ (p :: rest).flatMap children, rank q < depth) →
          drain expand (fuel + 1) ⟨.breadthFirst, p :: rest ++ next, pending⟩ s = some r →
            r = (p :: rest ++ levels children depth (next ++ (p :: rest).flatMap children)).foldl visit s := by
        intro depth p rest next pending s hs hless h
        obtain ⟨hexp, hs'⟩ := hexpand s p hs
        simp only [drain, PathFrontier.pop, cons_append, hexp, PathFrontier.pushAll_eq] at h
        rw [append_assoc] at h
        have hless' : ∀ q ∈ (next ++ children p) ++ rest.flatMap children, rank q < depth := by
          simpa [flatMap_cons, append_assoc] using hless
        have := ih depth rest (next ++ children p) _ _ hs' hless' h
        simpa [flatMap_cons, append_assoc] using this
      intro depth rest next pending s hs hless h
      cases rest with
      | cons p rest => exact hcons depth p rest next pending s hs hless h
      | nil =>
        cases next with
        | nil =>
          simp only [drain, PathFrontier.pop, nil_append, Option.some.injEq] at h
          simp [levels_nil, h]
        | cons p next =>
          -- The next level begins.
          have hp : rank p < depth := hless p (by simp)
          obtain ⟨depth, rfl⟩ : ∃ d, depth = d + 1 := ⟨depth - 1, by omega⟩
          have hbelow := @rank_next_lt _ _ _ hrank depth (p :: next) fun q hq => hless q (by simpa using hq)
          have := hcons depth p next [] pending s hs (by simpa using hbelow) (by simpa using h)
          simpa [levels] using this
  cases depth with
  | zero =>
    obtain rfl : level = [] := eq_nil_iff_forall_not_mem.mpr fun p hp => absurd (hlevel p hp) (by omega)
    simpa [levels] using hqueue fuel 0 [] [] pending s hs (by simp) (by simpa using h)
  | succ depth =>
    simpa [levels] using hqueue fuel depth level [] pending s hs
      (by simpa using rank_next_lt hrank hlevel) (by simpa using h)

end Unstopped

/-! ## A search along one path -/

inductive Turn (ε σ π : Type)
  | fail (e : ε)
  | stop (s : σ)
  | on (s : σ) (p : π)

/-- Take turns until one fails or stops; `none` when the fuel runs out. -/
def follow {ε : Type} (advance : σ → π → Turn ε σ π) : Nat → σ → π → Option (Except ε σ)
  | 0, _, _ => none
  | fuel + 1, s, p =>
    match advance s p with
    | .fail e => some (.error e)
    | .stop s => some (.ok s)
    | .on s p => follow advance fuel s p

/-- A loop that collects successors, and its form that holds one and fails at the second: they
agree over a list when they do over each item. -/
theorem foldlM_single {α ε : Type} {extend : σ × List π → α → σ × List π}
    {advance : σ × Option π → α → Except ε (σ × Option π)} (hgrow : ∀ s l a, l.length ≤ (extend (s, l) a).2.length)
    (hone : ∀ s l a, l.length ≤ 1 → ((extend (s, l) a).2.length ≤ 1 →
          advance (s, l.head?) a = .ok ((extend (s, l) a).1, (extend (s, l) a).2.head?)) ∧
        (2 ≤ (extend (s, l) a).2.length → ∃ e, advance (s, l.head?) a = .error e))
    (as : List α) (s : σ) (hl : l.length ≤ 1) : ((as.foldl extend (s, l)).2.length ≤ 1 →
        as.foldlM advance (s, l.head?) = .ok ((as.foldl extend (s, l)).1, (as.foldl extend (s, l)).2.head?)) ∧
      (2 ≤ (as.foldl extend (s, l)).2.length → ∃ e, as.foldlM advance (s, l.head?) = .error e) := by
  have hgrows : ∀ (as : List α) (s : σ) (l : List π), l.length ≤ (as.foldl extend (s, l)).2.length := by
    intro as
    induction as with
    | nil => intro s l; exact Nat.le_refl _
    | cons a as ih => intro s l; exact (hgrow s l a).trans (ih _ _)
  induction as generalizing s l with
  | nil =>
    refine ⟨fun _ => rfl, fun hlen => ?_⟩
    have : 2 ≤ l.length := hlen
    omega
  | cons a as ih =>
    obtain ⟨hok, hfail⟩ := hone s l a hl
    rw [foldl_cons, foldlM_cons]
    generalize extend (s, l) a = found at *
    obtain ⟨s₁, l₁⟩ := found
    have hle := hgrows as s₁ l₁
    by_cases hlen : l₁.length ≤ 1
    · rw [hok hlen]
      exact ih s₁ hlen
    · obtain ⟨e, he⟩ := hfail (by simp only; omega)
      rw [he]
      refine ⟨fun hle' => ?_, fun _ => ⟨e, rfl⟩⟩
      omega

/-- A walk that fails where a prefix branches, and elsewhere does what the search does,
ends like the search, or fails and the search expands a prefix that branches. -/
theorem drain_follow {ε : Type} {advance : σ → π → Turn ε σ π} {I : σ → Prop} {Branches : π → Prop}
    (hstop : ∀ s p s', I s → expand s p = .stop s' → advance s p = .stop s')
    (hkeep : ∀ s p s' l, I s → expand s p = .extend s' l → I s')
    (hbranch : ∀ s p s' l, I s → expand s p = .extend s' l → Branches p → ∃ e, advance s p = .fail e)
    (hgo : ∀ s p s' l, I s → expand s p = .extend s' l → ¬ Branches p →
      (l = [] ∧ advance s p = .stop s') ∨ ∃ q, l = [q] ∧ advance s p = .on s' q)
    {order : SearchOrder} {fuel pending : Nat} {p : π} {s r : σ} (hs : I s)
    (h : drain expand fuel ⟨order, [p], pending⟩ s = some r) :
    (follow advance fuel s p = some (.ok r) ∧
        ∀ q, Expands expand ⟨order, [p], pending⟩ s q → ¬ Branches q) ∨
      ((∃ e, follow advance fuel s p = some (.error e)) ∧
        ∃ q, Expands expand ⟨order, [p], pending⟩ s q ∧ Branches q) := by
  induction fuel generalizing p s pending with
  | zero => cases h
  | succ fuel ih =>
    have hpop := PathFrontier.pop_singleton order p pending
    simp only [drain, hpop] at h
    cases hexp : expand s p with
    | stop s' =>
      simp only [hexp, Option.some.injEq] at h
      subst h
      refine Or.inl ⟨by simp only [follow, hstop s p s' hs hexp], fun q hq => ?_⟩
      cases hq with
      | here hq hext =>
        obtain ⟨rfl, rfl⟩ : p = q ∧ _ := by simpa [hpop] using hq
        rw [hexp] at hext
        cases hext
      | later hq hext _ =>
        simp only [hpop, Option.some.injEq, Prod.mk.injEq] at hq
        obtain ⟨rfl, rfl⟩ := hq
        rw [hexp] at hext
        cases hext
    | extend s' l =>
      simp only [hexp] at h
      by_cases hp : Branches p
      · obtain ⟨e, he⟩ := hbranch s p s' l hs hexp hp
        exact Or.inr ⟨⟨e, by simp only [follow, he]⟩, p, .here hpop hexp, hp⟩
      · -- What is expanded is `p`, and then what the search from its successors expands.
        have hexpands : ∀ q, Expands expand ⟨order, [p], pending⟩ s q ↔
            q = p ∨ Expands expand ((PathFrontier.new order).pushAll l) s' q := by
          intro q
          constructor
          · intro hq
            cases hq with
            | here hq _ =>
              simp only [hpop, Option.some.injEq, Prod.mk.injEq] at hq
              exact Or.inl hq.1.symm
            | later hq hext hlater =>
              simp only [hpop, Option.some.injEq, Prod.mk.injEq] at hq
              obtain ⟨rfl, rfl⟩ := hq
              rw [hexp] at hext
              cases hext
              exact Or.inr hlater
          · rintro (rfl | hq)
            · exact .here hpop hexp
            · exact .later hpop hexp hq
        simp only [hexpands]
        obtain ⟨rfl, hadv⟩ | ⟨q, rfl, hadv⟩ := hgo s p s' l hs hexp hp
        · cases fuel with
          | zero => cases h
          | succ fuel =>
            simp only [drain, PathFrontier.pushAll, foldl_nil, PathFrontier.pop_new, Option.some.injEq] at h
            subst h
            refine Or.inl ⟨by simp only [follow, hadv], ?_⟩
            rintro q (rfl | hq)
            · exact hp
            · cases hq with
              | here hq _ => simp [PathFrontier.pushAll, PathFrontier.pop_new] at hq
              | later hq _ _ => simp [PathFrontier.pushAll, PathFrontier.pop_new] at hq
        · rw [PathFrontier.pushAll_eq] at h ⊢
          simp only [follow, hadv]
          obtain ⟨hok, hnone⟩ | ⟨hfail, b, hb, hbranches⟩ := ih (hkeep s p s' [q] hs hexp) h
          · refine Or.inl ⟨hok, ?_⟩
            rintro b (rfl | hb)
            · exact hp
            · exact hnone b hb
          · exact Or.inr ⟨hfail, b, Or.inr hb, hbranches⟩

end CfgLib.Lib
