import CfgLib.Lib.Forest
import CfgLib.Lib.Loop
import Mathlib.Logic.Function.Basic

/-!
# Preorder numbering of a dominator forest

`graph/dominator/numbering.rs`: children are chained as first-child and
next-sibling links, and the walk keeps no stack, returning to a parent through
the parent table.  The tables it fills are those of the forest's preorder.
-/

namespace CfgLib.Dominator

open CfgLib.Lib List Function

/-- The arrays a numbered forest adds to its parent table. -/
structure Numbered where
  /-- Preorder index of each node. -/
  pre : Nat → Option Nat
  /-- Preorder index of each node's last descendant. -/
  last : Nat → Option Nat
  /-- Distance from each node to the root of its tree. -/
  level : Nat → Option Nat
  /-- The nodes of every tree in preorder. -/
  order : List Nat

/-- The sibling chains the numbering walks, owned by the caller. -/
structure NumberingBuffers where
  firstChild : Nat → Option Nat
  nextSibling : Nat → Option Nat

/-- Where the numbering walk stands. -/
inductive Phase where
  | enter
  | leave
  | done
  deriving DecidableEq, Repr

structure WalkState where
  phase : Phase
  node : Nat
  numbered : Numbered

namespace Numbered

def empty : Numbered where
  pre _ := none
  last _ := none
  level _ := none
  order := []

/-- Number a node on the way down. -/
def push (N : Numbered) (node : Nat) : Numbered :=
  { N with pre := update N.pre node (some N.order.length), order := N.order ++ [node] }

def finish (N : Numbered) (node : Nat) : Numbered :=
  { N with last := update N.last node (some (N.order.length - 1)) }

def setLevel (N : Numbered) (node : Nat) (level : Option Nat) : Numbered :=
  { N with level := update N.level node level }

end Numbered

namespace NumberingBuffers

/-- `Default::default`. -/
def default : NumberingBuffers where
  firstChild _ := none
  nextSibling _ := none

def chain (parent : Nat → Option Nat) (b : NumberingBuffers) (node : Nat) : NumberingBuffers :=
  match parent node with
  | none => b
  | some up =>
    { nextSibling := update b.nextSibling node (b.firstChild up)
      firstChild := update b.firstChild up (some node) }

/-- The sibling chains of a parent table over nodes below `bound`. -/
def chains (b : NumberingBuffers) (parent : Nat → Option Nat) (bound : Nat) : NumberingBuffers :=
  (List.range bound).reverse.foldl (chain parent)
    { b with firstChild := fun _ => none, nextSibling := fun _ => none }

def walkStep (b : NumberingBuffers) (parent : Nat → Option Nat) (root : Nat) (w : WalkState) :
    Option WalkState :=
  match w.phase with
  | .done => none
  | .enter =>
    let N := w.numbered.push w.node
    match b.firstChild w.node with
    | some child => some ⟨.enter, child, N.setLevel child ((N.level w.node).map (· + 1))⟩
    | none => some ⟨.leave, w.node, N⟩
  | .leave =>
    let N := w.numbered.finish w.node
    if w.node = root then some ⟨.done, w.node, N⟩
    else
      match b.nextSibling w.node with
      | some sibling => some ⟨.enter, sibling, N.setLevel sibling (N.level w.node)⟩
      | none =>
        match parent w.node with
        | some up => some ⟨.leave, up, N⟩
        | none => none

/-- Number the tree below `root` in preorder.  Each node is entered and left once. -/
def walk (b : NumberingBuffers) (parent : Nat → Option Nat) (bound : Nat) (N : Numbered)
    (root : Nat) : Numbered :=
  (iterate (b.walkStep parent root) (2 * bound) ⟨.enter, root, N.setLevel root (some 0)⟩).numbered

def number (b : NumberingBuffers) (parent : Nat → Option Nat) (bound : Nat) (roots : List Nat) :
    NumberingBuffers × Numbered :=
  let b := b.chains parent bound
  (b, roots.foldl (b.walk parent bound) .empty)

/-! ## The sibling chains -/

/-- The links of the nodes of `l`, which are in ascending order. -/
theorem foldr_chain (parent : Nat → Option Nat) (l : List Nat) (hl : l.Nodup) :
    (∀ v, (l.foldr (fun node b => chain parent b node) default).firstChild v =
      (l.filter fun c => parent c = some v).head?) ∧
    ∀ v before c after, (l.filter fun c => parent c = some v) = before ++ c :: after →
      (l.foldr (fun node b => chain parent b node) default).nextSibling c = after.head? := by
  induction l with
  | nil => exact ⟨fun _ => rfl, fun v before c after h => by simp at h⟩
  | cons node l ih =>
    obtain ⟨hnode, hl⟩ := nodup_cons.mp hl
    obtain ⟨hfirst, hnext⟩ := ih hl
    rw [foldr_cons]
    generalize l.foldr (fun node b => chain parent b node) default = b at hfirst hnext
    have hmem : ∀ {v c : Nat} {before after : List Nat},
        (l.filter fun c => parent c = some v) = before ++ c :: after → c ∈ l := by
      intro v c before after h
      have : c ∈ l.filter fun c => parent c = some v := by simp [h]
      exact mem_of_mem_filter this
    cases hp : parent node with
    | none =>
      have hchain : chain parent b node = b := by simp [chain, hp]
      rw [hchain]
      refine ⟨fun v => ?_, fun v before c after h => ?_⟩
      · rw [hfirst v, filter_cons_of_neg (by simp [hp])]
      · rw [filter_cons_of_neg (by simp [hp])] at h
        exact hnext v before c after h
    | some up =>
      have hchain : chain parent b node =
          { nextSibling := update b.nextSibling node (b.firstChild up)
            firstChild := update b.firstChild up (some node) } := by simp [chain, hp]
      rw [hchain]
      refine ⟨fun v => ?_, fun v before c after h => ?_⟩
      · by_cases hv : v = up
        · subst hv
          rw [filter_cons_of_pos (by simp [hp])]
          simp
        · rw [filter_cons_of_neg (by simpa [hp] using Ne.symm hv)]
          simp only [update_of_ne hv]
          exact hfirst v
      · by_cases hv : v = up
        · subst hv
          rw [filter_cons_of_pos (by simp [hp])] at h
          rcases cons_eq_append_iff.mp h with ⟨_, h⟩ | ⟨before', _, h⟩
          · obtain ⟨rfl, rfl⟩ := List.cons.inj h
            simp [hfirst]
          · have hne : c ≠ node := fun e => hnode (e ▸ hmem h)
            simp only [update_of_ne hne]
            exact hnext v before' c after h
        · rw [filter_cons_of_neg (by simpa [hp] using Ne.symm hv)] at h
          have hne : c ≠ node := fun e => hnode (e ▸ hmem h)
          simp only [update_of_ne hne]
          exact hnext v before c after h

/-- Chains that follow the children of a forest. -/
structure Chained (F : Forest) (b : NumberingBuffers) : Prop where
  firstChild : ∀ v, b.firstChild v = (F.kids v).head?
  nextSibling : ∀ v before c after, F.kids v = before ++ c :: after →
    b.nextSibling c = after.head?

theorem chained_chains (F : Forest) (b : NumberingBuffers) :
    Chained F (b.chains F.parent F.bound) := by
  have h := foldr_chain F.parent (List.range F.bound) nodup_range
  unfold chains
  rw [foldl_reverse]
  exact ⟨h.1, h.2⟩

/-! ## What the walk writes -/

def LevelOk (F : Forest) (N : Numbered) (v : Nat) : Prop :=
  match F.parent v with
  | none => N.level v = some 0
  | some p => N.level v = (N.level p).map (· + 1)

structure Walked (F : Forest) (l : List Nat) (N N' : Numbered) : Prop where
  order : N'.order = N.order ++ l
  pre : ∀ k x : Nat, l[k]? = some x → N'.pre x = some (N.order.length + k)
  last : ∀ x ∈ l, ∃ before after, N'.order = before ++ F.flat x ++ after ∧
    N'.last x = some (before.length + (F.flat x).length - 1)
  level : ∀ x ∈ l, LevelOk F N' x
  frame : ∀ x, x ∉ l → N'.pre x = N.pre x ∧ N'.last x = N.last x ∧ N'.level x = N.level x

theorem Walked.nil (F : Forest) (N : Numbered) : Walked F [] N N :=
  ⟨by simp, by simp, by simp, by simp, fun _ _ => ⟨rfl, rfl, rfl⟩⟩

/-- Two stretches in a row.  The level of a node of the second may be set between
the two, as the walk sets it before it enters the node. -/
theorem Walked.append {F : Forest} {l m : List Nat} {N N₁ N₂ N₃ : Numbered}
    (h₁ : Walked F l N N₁) (h₂ : Walked F m N₂ N₃) (horder : N₂.order = N₁.order)
    (hpre : N₂.pre = N₁.pre) (hlast : N₂.last = N₁.last)
    (hlevel : ∀ x, x ∉ m → N₂.level x = N₁.level x) (hdisj : ∀ x ∈ l, x ∉ m)
    (hclosed : ∀ x p, F.parent x = some p → p ∈ m → x ∈ m) : Walked F (l ++ m) N N₃ := by
  have hframe : ∀ x, x ∉ m → N₃.pre x = N₁.pre x ∧ N₃.last x = N₁.last x ∧
      N₃.level x = N₁.level x := by
    intro x hx
    obtain ⟨f₁, f₂, f₃⟩ := h₂.frame x hx
    exact ⟨by rw [f₁, hpre], by rw [f₂, hlast], by rw [f₃, hlevel x hx]⟩
  refine ⟨?_, ?_, ?_, ?_, ?_⟩
  · rw [h₂.order, horder, h₁.order, append_assoc]
  · intro k x hk
    by_cases hkl : k < l.length
    · rw [getElem?_append_left hkl] at hk
      rw [(hframe x (hdisj x (mem_of_getElem? hk))).1]
      exact h₁.pre k x hk
    · rw [getElem?_append_right (by omega)] at hk
      rw [h₂.pre _ x hk, horder, h₁.order, length_append]
      congr 1
      omega
  · intro x hx
    rcases mem_append.mp hx with hx | hx
    · obtain ⟨before, after, horder₁, hlast₁⟩ := h₁.last x hx
      refine ⟨before, after ++ m, ?_, ?_⟩
      · rw [h₂.order, horder, horder₁]
        simp
      · rw [(hframe x (hdisj x hx)).2.1]
        exact hlast₁
    · exact h₂.last x hx
  · intro x hx
    rcases mem_append.mp hx with hx | hx
    · have hok := h₁.level x hx
      have hxm := hdisj x hx
      unfold LevelOk at hok ⊢
      cases hp : F.parent x with
      | none =>
        rw [hp] at hok
        dsimp only at hok ⊢
        rw [(hframe x hxm).2.2, hok]
      | some p =>
        rw [hp] at hok
        dsimp only at hok ⊢
        have hpm : p ∉ m := fun hc => hxm (hclosed x p hp hc)
        rw [(hframe x hxm).2.2, (hframe p hpm).2.2, hok]
    · exact h₂.level x hx
  · intro x hx
    simp only [mem_append, not_or] at hx
    obtain ⟨f₁, f₂, f₃⟩ := hframe x hx.2
    obtain ⟨g₁, g₂, g₃⟩ := h₁.frame x hx.1
    exact ⟨f₁.trans g₁, f₂.trans g₂, f₃.trans g₃⟩

/-! ## The walk below a node -/

section Walk

variable {F : Forest} {b : NumberingBuffers} {root : Nat}

/-- The walk from entering `v` to the point of leaving it. -/
def Traverses (F : Forest) (b : NumberingBuffers) (root v : Nat) : Prop :=
  ∀ N, LevelOk F N v → ∃ N', Steps (b.walkStep F.parent root) (2 * (F.flat v).length - 1)
    ⟨.enter, v, N⟩ ⟨.leave, v, N'⟩ ∧ Walked F (F.flat v) N (N'.finish v)

theorem flatMap_closed {l : List Nat} {x p : Nat} (hp : F.parent x = some p)
    (hmem : p ∈ l.flatMap F.flat) : x ∈ l.flatMap F.flat := by
  obtain ⟨c, hc, hpc⟩ := mem_flatMap.mp hmem
  exact mem_flatMap.mpr ⟨c, hc, Forest.mem_flat.mpr (.step hp (Forest.mem_flat.mp hpc))⟩

theorem flat_length_pos (v : Nat) : 0 < (F.flat v).length :=
  length_pos_of_mem (Forest.self_mem_flat v)

/-- From entering one child of `v` to leaving `v`, past the siblings after it. -/
theorem walk_siblings (hb : Chained F b) (hroot : F.parent root = none) {v : Nat}
    (ih : ∀ c, F.parent c = some v → Traverses F b root c) (after : List Nat) :
    ∀ before c N, F.kids v = before ++ c :: after → N.level c = (N.level v).map (· + 1) →
      ∃ N', Steps (b.walkStep F.parent root) (2 * ((c :: after).flatMap F.flat).length)
        ⟨.enter, c, N⟩ ⟨.leave, v, N'⟩ ∧ Walked F ((c :: after).flatMap F.flat) N N' := by
  induction after with
  | nil =>
    intro before c N hkids hlevel
    have hc : F.parent c = some v := Forest.mem_kids.mp (by simp [hkids])
    obtain ⟨N', hsteps, hwalked⟩ := ih c hc N (by simpa [LevelOk, hc] using hlevel)
    have hleave : b.walkStep F.parent root ⟨.leave, c, N'⟩ = some ⟨.leave, v, N'.finish c⟩ := by
      have hne : c ≠ root := fun e => by rw [e, hroot] at hc; cases hc
      simp [walkStep, hne, hb.nextSibling v before c [] hkids, hc]
    refine ⟨N'.finish c, ?_, by simpa using hwalked⟩
    have := hsteps.trans (.single hleave)
    have hpos := flat_length_pos (F := F) c
    rwa [show 2 * (F.flat c).length - 1 + 1 = 2 * ([c].flatMap F.flat).length by simp; omega] at this
  | cons d after ihafter =>
    intro before c N hkids hlevel
    have hc : F.parent c = some v := Forest.mem_kids.mp (by simp [hkids])
    have hd : F.parent d = some v := Forest.mem_kids.mp (by simp [hkids])
    obtain ⟨N', hsteps, hwalked⟩ := ih c hc N (by simpa [LevelOk, hc] using hlevel)
    have hleave : b.walkStep F.parent root ⟨.leave, c, N'⟩ =
        some ⟨.enter, d, (N'.finish c).setLevel d ((N'.finish c).level c)⟩ := by
      have hne : c ≠ root := fun e => by rw [e, hroot] at hc; cases hc
      simp [walkStep, hne, hb.nextSibling v before c (d :: after) hkids]
    have hnodup := Forest.kids_nodup (F := F) v
    rw [hkids] at hnodup
    have hcnot : c ∉ d :: after := (nodup_cons.mp (nodup_append.mp hnodup).2.1).1
    have hcd : ∀ e ∈ d :: after, F.parent e = some v := fun e he =>
      Forest.mem_kids.mp (by rw [hkids]; simp [mem_cons.mp he])
    have hdisj : ∀ x ∈ F.flat c, x ∉ (d :: after).flatMap F.flat := by
      intro x hx hmem
      obtain ⟨e, he, hxe⟩ := mem_flatMap.mp hmem
      have hne : c ≠ e := fun h => hcnot (by rw [h]; exact he)
      exact Forest.disjoint_flat hne (hc.trans (hcd e he).symm) hx hxe
    have hv : v ≠ d := fun e => by
      have := F.rank_lt d v hd
      rw [e] at this
      omega
    have hlevelv : (N'.finish c).level v = N.level v := (hwalked.frame v fun hc' => by
      have := Forest.rank_anc (Forest.mem_flat.mp hc')
      have := F.rank_lt c v hc
      omega).2.2
    have hlevelc : (N'.finish c).level c = ((N'.finish c).level v).map (· + 1) := by
      have := hwalked.level c (Forest.self_mem_flat c)
      simpa [LevelOk, hc] using this
    obtain ⟨N₃, hsteps₃, hwalked₃⟩ := ihafter (before ++ [c]) d
      ((N'.finish c).setLevel d ((N'.finish c).level c)) (by rw [hkids]; simp) (by
        simp only [Numbered.setLevel, update_self, update_of_ne hv]
        exact hlevelc)
    refine ⟨N₃, ?_, ?_⟩
    · have := (hsteps.trans (.single hleave)).trans hsteps₃
      have hpos := flat_length_pos (F := F) c
      rwa [show 2 * (F.flat c).length - 1 + 1 + 2 * ((d :: after).flatMap F.flat).length =
        2 * ((c :: d :: after).flatMap F.flat).length by
          rw [flatMap_cons (x := c), length_append]; omega] at this
    · rw [flatMap_cons]
      refine hwalked.append hwalked₃ rfl rfl rfl ?_ hdisj fun x p => flatMap_closed
      intro x hx
      have hxd : x ≠ d := fun e => hx (by
        rw [e]
        exact mem_flatMap.mpr ⟨d, by simp, Forest.self_mem_flat d⟩)
      simp [Numbered.setLevel, update_of_ne hxd]

theorem Walked.node {v : Nat} {m : List Nat} {N N₀ N₁ : Numbered} (hflat : F.flat v = v :: m)
    (h : Walked F m N₀ N₁) (horder : N₀.order = N.order ++ [v])
    (hpre : N₀.pre = update N.pre v (some N.order.length)) (hlast : N₀.last = N.last)
    (hlevel : ∀ x, x ∉ m → N₀.level x = N.level x) (hok : LevelOk F N v) :
    Walked F (F.flat v) N (N₁.finish v) := by
  have hnodup := Forest.flat_nodup (F := F) v
  rw [hflat] at hnodup
  have hv := (nodup_cons.mp hnodup).1
  have horder₁ : N₁.order = N.order ++ F.flat v := by
    rw [h.order, horder, hflat]
    simp
  obtain ⟨fv₁, _, fv₃⟩ := h.frame v hv
  refine ⟨horder₁, ?_, ?_, ?_, ?_⟩
  · intro k x hk
    change N₁.pre x = _
    rw [hflat] at hk
    cases k with
    | zero =>
      obtain rfl : v = x := by simpa using hk
      rw [fv₁, hpre]
      simp
    | succ k =>
      rw [h.pre k x (by simpa using hk), horder]
      simp
      omega
  · intro x hx
    by_cases hxv : x = v
    · subst hxv
      refine ⟨N.order, [], horder₁.trans (by simp), ?_⟩
      simp [Numbered.finish, horder₁]
    · have hxm : x ∈ m := by
        rw [hflat] at hx
        exact (mem_cons.mp hx).resolve_left hxv
      obtain ⟨before, after, h₁, h₂⟩ := h.last x hxm
      refine ⟨before, after, h₁, ?_⟩
      exact (update_of_ne hxv _ _).trans h₂
  · intro x hx
    by_cases hxv : x = v
    · subst hxv
      unfold LevelOk at hok ⊢
      change match F.parent x with
        | none => N₁.level x = some 0
        | some p => N₁.level x = (N₁.level p).map (· + 1)
      rw [fv₃, hlevel x hv]
      cases hp : F.parent x with
      | none => rwa [hp] at hok
      | some p =>
        have hpm : p ∉ m := fun hc => by
          have hanc := Forest.mem_flat.mp (by rw [hflat]; simp [hc] : p ∈ F.flat x)
          have h₁ := Forest.rank_anc hanc
          have h₂ := F.rank_lt x p hp
          omega
        rw [hp] at hok
        dsimp only at hok ⊢
        rw [(h.frame p hpm).2.2, hlevel p hpm]
        exact hok
    · have hxm : x ∈ m := by
        rw [hflat] at hx
        exact (mem_cons.mp hx).resolve_left hxv
      exact h.level x hxm
  · intro x hx
    have hxv : x ≠ v := fun e => hx (by rw [e]; exact Forest.self_mem_flat v)
    have hxm : x ∉ m := fun hc => hx (by rw [hflat]; simp [hc])
    obtain ⟨f₁, f₂, f₃⟩ := h.frame x hxm
    refine ⟨?_, ?_, ?_⟩
    · change N₁.pre x = _
      rw [f₁, hpre, update_of_ne hxv]
    · exact (update_of_ne hxv _ _).trans (f₂.trans (by rw [hlast]))
    · change N₁.level x = _
      rw [f₃, hlevel x hxm]

/-- Entering `v` and walking its children numbers its subtree. -/
theorem traverses (hb : Chained F b) (hroot : F.parent root = none) (v : Nat) :
    Traverses F b root v := by
  induction v using F.kids_induction with
  | h v ih =>
    intro N hok
    cases hkids : F.kids v with
    | nil =>
      have hflat : F.flat v = [v] := by rw [Forest.flat_eq, hkids]; rfl
      have hstep : b.walkStep F.parent root ⟨.enter, v, N⟩ = some ⟨.leave, v, N.push v⟩ := by
        simp [walkStep, hb.firstChild, hkids]
      refine ⟨N.push v, by rw [hflat]; exact .single hstep, ?_⟩
      exact Walked.node hflat (.nil F (N.push v)) rfl rfl rfl (fun _ _ => rfl) hok
    | cons c after =>
      have hflat : F.flat v = v :: (c :: after).flatMap F.flat := by rw [Forest.flat_eq, hkids]
      have hc : F.parent c = some v := Forest.mem_kids.mp (by simp [hkids])
      have hstep : b.walkStep F.parent root ⟨.enter, v, N⟩ =
          some ⟨.enter, c, (N.push v).setLevel c (((N.push v).level v).map (· + 1))⟩ := by
        simp [walkStep, hb.firstChild, hkids]
      have hvc : v ≠ c := fun e => by
        have := F.rank_lt c v hc
        rw [e] at this
        omega
      obtain ⟨N₁, hsteps, hwalked⟩ := walk_siblings hb hroot ih after [] c
        ((N.push v).setLevel c (((N.push v).level v).map (· + 1))) (by simpa using hkids)
        (by simp [Numbered.setLevel, update_of_ne hvc])
      refine ⟨N₁, ?_, Walked.node hflat hwalked rfl rfl rfl ?_ hok⟩
      · have := (Steps.single hstep).trans hsteps
        rwa [show 1 + 2 * ((c :: after).flatMap F.flat).length = 2 * (F.flat v).length - 1 by
          rw [hflat, length_cons]; omega] at this
      · intro x hx
        have hxc : x ≠ c := fun e => hx (by
          rw [e]
          exact mem_flatMap.mpr ⟨c, by simp, Forest.self_mem_flat c⟩)
        simp [Numbered.setLevel, Numbered.push, update_of_ne hxc]

theorem walk_spec (hb : Chained F b) (hroot : F.parent root = none) (hlt : root < F.bound)
    (N : Numbered) : Walked F (F.flat root) N (b.walk F.parent F.bound N root) := by
  obtain ⟨N', hsteps, hwalked⟩ := traverses hb hroot root (N.setLevel root (some 0))
    (by simp [LevelOk, hroot, Numbered.setLevel])
  have hleave : b.walkStep F.parent root ⟨.leave, root, N'⟩ =
      some ⟨.done, root, N'.finish root⟩ := by simp [walkStep]
  have hall := hsteps.trans (.single hleave)
  have hpos := flat_length_pos (F := F) root
  have hle := Forest.flat_length_le hlt
  rw [walk, hall.iterate_eq rfl (by omega)]
  refine ⟨hwalked.order, hwalked.pre, hwalked.last, hwalked.level, fun x hx => ?_⟩
  have hne : x ≠ root := fun e => hx (by rw [e]; exact Forest.self_mem_flat root)
  obtain ⟨f₁, f₂, f₃⟩ := hwalked.frame x hx
  exact ⟨f₁, f₂, f₃.trans (update_of_ne hne _ _)⟩

theorem foldl_walk (hb : Chained F b) (roots : List Nat) :
    ∀ N, roots.Nodup → (∀ r ∈ roots, F.parent r = none ∧ r < F.bound) →
      Walked F (roots.flatMap F.flat) N (roots.foldl (b.walk F.parent F.bound) N) := by
  induction roots with
  | nil => exact fun N _ _ => .nil F N
  | cons r roots ih =>
    intro N hnodup hroots
    obtain ⟨hr, hnodup⟩ := nodup_cons.mp hnodup
    obtain ⟨hnone, hlt⟩ := hroots r (by simp)
    have hfirst := walk_spec hb hnone hlt N
    have hrest := ih (b.walk F.parent F.bound N r) hnodup fun c hc => hroots c (by simp [hc])
    rw [foldl_cons, flatMap_cons]
    refine hfirst.append hrest rfl rfl rfl (fun _ _ => rfl) ?_ fun x p => flatMap_closed
    intro x hx hmem
    obtain ⟨c, hc, hxc⟩ := mem_flatMap.mp hmem
    have hne : r ≠ c := fun e => hr (by rw [e]; exact hc)
    exact Forest.disjoint_flat hne (hnone.trans (hroots c (by simp [hc])).1.symm) hx hxc

theorem number_spec (F : Forest) (b : NumberingBuffers) {roots : List Nat} (hnodup : roots.Nodup)
    (hroots : ∀ r ∈ roots, F.parent r = none ∧ r < F.bound) :
    Walked F (roots.flatMap F.flat) .empty (b.number F.parent F.bound roots).2 :=
  foldl_walk (chained_chains F b) roots .empty hnodup hroots

end Walk

end NumberingBuffers

end CfgLib.Dominator
