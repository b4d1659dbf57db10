import CfgLib.Graph.Dominator.Search

/-!
# The link-eval forest

At threshold `t` the numbers from `t` on are linked: each points at a proper
ancestor, everything strictly between is linked, and its label has the least
semidominator of that stretch.  Path compression moves the far end of a stretch
up and keeps all of this, so an evaluation finds the least semidominator among
all linked ancestors.
-/

namespace CfgLib.Dominator.ConstructionBuffers

open CfgLib.Lib

variable {n t : Nat} {E : Nat → Nat → Prop} {parent : Nat → Option Nat} {semi : Nat → Nat}
  {s : ConstructionBuffers}

/-- `l` has the least semidominator of the tree path from below `a` down to `k`. -/
structure LeastBelow (parent : Nat → Option Nat) (semi : Nat → Nat) (a k l : Nat) : Prop where
  lt : a < l
  anc : Anc parent l k
  least : ∀ u, a < u → Anc parent u k → semi l ≤ semi u

/-- A node linked to `a`: the stretch below `a` is linked and labelled. -/
structure LinkedTo (parent : Nat → Option Nat) (semi : Nat → Nat) (t k a l : Nat) : Prop where
  anc : Anc parent a k
  lt : a < k
  linked : ∀ u, a < u → Anc parent u k → t ≤ u
  label : LeastBelow parent semi a k l

/-- The link-eval forest with the numbers from `t` on linked. -/
structure Linked (n : Nat) (parent : Nat → Option Nat) (semi : Nat → Nat) (t : Nat)
    (ancestor : Nat → Option Nat) (label : Nat → Nat) : Prop where
  unlinked : ∀ k, k < t → ancestor k = none ∧ label k = k
  linked : ∀ k, t ≤ k → k < n →
    ∃ a, ancestor k = some a ∧ LinkedTo parent semi t k a (label k)

variable {path : List Nat} {a k start : Nat} {ancestor : Nat → Option Nat}

theorem Linked.ancestor_eq_none {label : Nat → Nat} (h : Linked n parent semi t ancestor label) (hk : k < n) :
    ancestor k = none ↔ k < t := by
  constructor
  · intro hnone
    by_contra hge
    obtain ⟨a, ha, _⟩ := h.linked k (by omega) hk
    rw [hnone] at ha
    cases ha
  · exact fun hlt => (h.unlinked k hlt).1

theorem Linked.get {label : Nat → Nat} (h : Linked n parent semi t ancestor label) (hk : k < n)
    (ha : ancestor k = some a) : LinkedTo parent semi t k a (label k) := by
  have hge : t ≤ k := by
    by_contra hlt
    rw [(h.unlinked k (by omega)).1] at ha
    cases ha
  obtain ⟨a', ha', hto⟩ := h.linked k hge hk
  rw [ha] at ha'
  cases ha'
  exact hto

theorem LinkedTo.join (h : DfsTree n E parent) {b l m : Nat} (hk : k < n)
    (hka : LinkedTo parent semi t k a l) (hab : LinkedTo parent semi t a b m) :
    LinkedTo parent semi t k b (if semi m < semi l then m else l) := by
  have hba := hab.lt
  have hsplit : ∀ u, Anc parent u k → u ≤ a → Anc parent u a := fun u hu hle =>
    h.anc_of_le hk hu hka.anc hle
  refine ⟨hab.anc.trans hka.anc, Nat.lt_trans hab.lt hka.lt, ?_, ?_, ?_, ?_⟩
  · intro u hbu hu
    rcases Nat.lt_or_ge a u with hlt | hge
    · exact hka.linked u hlt hu
    · exact hab.linked u hbu (hsplit u hu hge)
  · split
    · exact hab.label.lt
    · exact Nat.lt_trans hba hka.label.lt
  · split
    · exact hab.label.anc.trans hka.anc
    · exact hka.label.anc
  · intro u hbu hu
    rcases Nat.lt_or_ge a u with hlt | hge
    · have := hka.label.least u hlt hu
      split <;> omega
    · have := hab.label.least u hbu (hsplit u hu hge)
      split <;> omega

/-! ## Frames -/

/-- What an evaluation may change. -/
def Evaluated (s s' : ConstructionBuffers) : Prop :=
  ∃ label ancestor path, s' = { s with label := label, ancestor := ancestor, path := path }

theorem Evaluated.refl (s : ConstructionBuffers) : Evaluated s s :=
  ⟨s.label, s.ancestor, s.path, rfl⟩

theorem Evaluated.trans {s' s'' : ConstructionBuffers} (h : Evaluated s s')
    (h' : Evaluated s' s'') : Evaluated s s'' := by
  obtain ⟨_, _, _, rfl⟩ := h
  obtain ⟨label, ancestor, path, rfl⟩ := h'
  exact ⟨label, ancestor, path, rfl⟩

theorem Evaluated.shortcut (s : ConstructionBuffers) (node : Nat) :
    Evaluated s (s.shortcut node) := by
  unfold ConstructionBuffers.shortcut
  split
  · exact .refl s
  · exact ⟨_, _, _, rfl⟩

/-- The link-eval forest of a state. -/
def IsLinked (n : Nat) (parent : Nat → Option Nat) (t : Nat) (s : ConstructionBuffers) : Prop :=
  Linked n parent s.semi t s.ancestor s.label

/-! ## Path compression -/

theorem IsLinked.shortcut (h : DfsTree n E parent) (hs : s.IsLinked n parent t) {b : Nat}
    (hk : k < n) (ha : s.ancestor k = some a) (hb : s.ancestor a = some b) :
    (s.shortcut k).IsLinked n parent t ∧
      (s.shortcut k).ancestor = Function.update s.ancestor k (some b) := by
  have hka := hs.get hk ha
  have hka_lt := hka.lt
  have hab := hs.get (by omega) hb
  have hto := hka.join h hk hab
  have hkt : t ≤ k := hka.linked k hka.lt .refl
  have hstate : s.shortcut k = { s with
      label := Function.update s.label k
        (if s.semi (s.label a) < s.semi (s.label k) then s.label a else s.label k)
      ancestor := Function.update s.ancestor k (some b)
      path := s.path.tail } := by
    simp only [ConstructionBuffers.shortcut, ha, hb]
    split <;> simp
  rw [hstate]
  refine ⟨⟨?_, ?_⟩, rfl⟩
  · intro j hj
    have hne : j ≠ k := by omega
    simp only [Function.update_of_ne hne]
    exact hs.unlinked j hj
  · intro j hj hjn
    by_cases hjk : j = k
    · subst hjk
      exact ⟨b, by simp, by simpa using hto⟩
    · simp only [Function.update_of_ne hjk]
      exact hs.linked j hj hjn

/-- `path` leads from below `top` down to `start`, each node linked to the next. -/
inductive Path (ancestor : Nat → Option Nat) (start : Nat) : Nat → List Nat → Prop
  | nil : Path ancestor start start []
  | cons {top node : Nat} {path : List Nat} : Path ancestor start node path →
    ancestor node = some top → Path ancestor start top (node :: path)

theorem Path.lt (hs : s.IsLinked n parent t) {top : Nat} (hstart : start < n)
    (h : Path s.ancestor start top path) : top < n ∧ top ≤ start ∧ ∀ x ∈ path, top < x := by
  induction h with
  | nil => exact ⟨hstart, Nat.le_refl _, by simp⟩
  | @cons top node path _ ha ih =>
    obtain ⟨hn, hle, hall⟩ := ih
    have hlt := (hs.get hn ha).lt
    refine ⟨by omega, by omega, ?_⟩
    intro x hx
    rcases List.mem_cons.mp hx with rfl | hx
    · exact hlt
    · have := hall x hx
      omega

theorem Path.congr {ancestor' : Nat → Option Nat} {top : Nat}
    (h : Path ancestor start top path) (heq : ∀ x ∈ path, ancestor' x = ancestor x) :
    Path ancestor' start top path := by
  induction h with
  | nil => exact .nil
  | cons _ ha ih =>
    refine .cons (ih fun x hx => heq x (by simp [hx])) ?_
    rw [heq _ (by simp)]
    exact ha

theorem climb_spec (hs : s.IsLinked n parent t) (hstart : start < n) (fuel node : Nat)
    (hnode : t ≤ node) (hfuel : node < fuel) (hpath : Path s.ancestor start node path) :
    ∃ top root, Path s.ancestor start top (climb s.ancestor fuel node path) ∧
      s.ancestor top = some root ∧ root < t := by
  induction fuel generalizing node path with
  | zero => omega
  | succ fuel ih =>
    obtain ⟨hn, _⟩ := hpath.lt hs hstart
    obtain ⟨a, ha, hto⟩ := hs.linked node hnode hn
    have hlt := hto.lt
    simp only [climb, ha]
    by_cases hroot : a < t
    · have hnone := (hs.ancestor_eq_none (by omega)).mpr hroot
      rw [if_pos (by simp [hnone])]
      exact ⟨node, a, hpath, ha, hroot⟩
    · have hsome : s.ancestor a ≠ none := fun e => hroot ((hs.ancestor_eq_none (by omega)).mp e)
      rw [if_neg (by simpa using hsome)]
      exact ih a (by omega) (by omega) (.cons hpath ha)

/-- Fixing a path from the top down points its last node at the root. -/
theorem foldl_shortcut (h : DfsTree n E parent) {root : Nat} (hstart : start < n)
    (path : List Nat) : ∀ (s : ConstructionBuffers) (top : Nat), s.IsLinked n parent t →
      Path s.ancestor start top path → s.ancestor top = some root →
      (path.foldl shortcut s).IsLinked n parent t ∧
        (path.foldl shortcut s).ancestor start = some root ∧
        Evaluated s (path.foldl shortcut s) := by
  induction path with
  | nil =>
    intro s top hs hpath htop
    cases hpath
    exact ⟨hs, htop, .refl s⟩
  | cons node path ih =>
    intro s top hs hpath htop
    obtain ⟨_, _, habove⟩ := hpath.lt hs hstart
    cases hpath with
    | cons hpath ha =>
      obtain ⟨hn, _, hbelow⟩ := hpath.lt hs hstart
      obtain ⟨hs', hanc⟩ := hs.shortcut h hn ha htop
      have hpath' : Path (s.shortcut node).ancestor start node path := by
        apply hpath.congr
        intro x hx
        have := hbelow x hx
        rw [hanc, Function.update_of_ne (by omega)]
      obtain ⟨h₁, h₂, h₃⟩ := ih (s.shortcut node) node hs' hpath' (by simp [hanc])
      exact ⟨h₁, h₂, (Evaluated.shortcut s node).trans h₃⟩

theorem compress_spec (h : DfsTree n E parent) (hs : s.IsLinked n parent t)
    (hreached : s.reached = n) (hge : t ≤ start) (hstart : start < n) :
    (s.compress start).IsLinked n parent t ∧
      (∃ root, (s.compress start).ancestor start = some root ∧ root < t) ∧
      Evaluated s (s.compress start) := by
  obtain ⟨top, root, hpath, htop, hroot⟩ :=
    climb_spec hs hstart s.reached start hge (by omega) .nil
  obtain ⟨h₁, h₂, h₃⟩ := foldl_shortcut h hstart (climb s.ancestor s.reached start [])
    { s with path := climb s.ancestor s.reached start [] } top hs hpath htop
  exact ⟨h₁, ⟨root, h₂, hroot⟩, Evaluated.trans ⟨_, _, _, rfl⟩ h₃⟩

/-! ## Evaluation -/

/-- What an evaluation returns: an unlinked node itself, and for a linked one the
least semidominator among the linked ancestors. -/
def IsValue (parent : Nat → Option Nat) (semi : Nat → Nat) (t v l : Nat) : Prop :=
  (v < t ∧ l = v) ∨
    (t ≤ v ∧ t ≤ l ∧ Anc parent l v ∧ ∀ u, t ≤ u → Anc parent u v → semi l ≤ semi u)

theorem evaluate_spec (h : DfsTree n E parent) (hs : s.IsLinked n parent t)
    (hreached : s.reached = n) {v : Nat} (hv : v < n) :
    (s.evaluate v).1.IsLinked n parent t ∧ Evaluated s (s.evaluate v).1 ∧
      IsValue parent s.semi t v (s.evaluate v).2 := by
  unfold evaluate
  by_cases hlt : v < t
  · rw [if_pos (by simp [(hs.ancestor_eq_none hv).mpr hlt])]
    exact ⟨hs, .refl s, Or.inl ⟨hlt, rfl⟩⟩
  · have hsome : s.ancestor v ≠ none := fun e => hlt ((hs.ancestor_eq_none hv).mp e)
    rw [if_neg (by simpa using hsome)]
    obtain ⟨h₁, ⟨root, hanc, hroot⟩, h₃⟩ := compress_spec h hs hreached (by omega : t ≤ v) hv
    refine ⟨h₁, h₃, Or.inr ⟨by omega, ?_⟩⟩
    have hto := h₁.get hv hanc
    have hsemi : (s.compress v).semi = s.semi := by
      obtain ⟨_, _, _, heq⟩ := h₃
      rw [heq]
    rw [hsemi] at hto
    refine ⟨hto.linked _ hto.label.lt hto.label.anc, hto.label.anc, ?_⟩
    intro u hu hanc'
    exact hto.label.least u (by omega) hanc'

end CfgLib.Dominator.ConstructionBuffers
