import CfgLib.Hlil.View

/-!
# Scopes of a structured function

What the declaration scope of a variable is: the lexical bodies nest, a
statement owns the occurrences in its own expressions and in its clauses, and
the narrowest body of a variable is the lexical body that holds all its
occurrences and is nested in every other that does.
-/

namespace CfgLib.Hlil

open Relation List

namespace FunctionView

/-! ## Occurrences -/

def Reads (F : FunctionView) (e v : Nat) : Prop := ∃ f, ReflTransGen F.Operand e f ∧ F.expr f = .variable v

def Mentions (F : FunctionView) (s v : Nat) : Prop := ∃ e ∈ F.statementExpressions s, F.Reads e v

/-- A variable occurs in the statement itself; what a clause of it mentions does. -/
def Owns (F : FunctionView) (s v : Nat) : Prop :=
  F.Mentions s v ∨ ∃ b ∈ F.clauses s, ∃ t ∈ b, ∃ u, ReflTransGen F.Child t u ∧ F.Mentions u v

/-- A variable occurs in the statement or in a body nested in it. -/
def Within (F : FunctionView) (s v : Nat) : Prop := ∃ o, ReflTransGen F.LexicalChild s o ∧ F.Owns o v

def Contains (F : FunctionView) (b : List Nat) (v : Nat) : Prop := ∃ s ∈ b, F.Within s v

variable {F : FunctionView} {b d : List Nat} {o s t v : Nat}

theorem within_iff : F.Within s v ↔ F.Owns s v ∨ ∃ b ∈ F.lexicalBodies s, F.Contains b v := by
  constructor
  · intro h
    obtain ⟨o, hpath, howns⟩ := h
    rcases hpath.cases_head with rfl | ⟨t, ⟨b, hb, ht⟩, hpath⟩
    · exact Or.inl howns
    · exact Or.inr ⟨b, hb, t, ht, o, hpath, howns⟩
  · intro h
    rcases h with howns | ⟨b, hb, t, ht, o, hpath, howns⟩
    · exact ⟨s, .refl, howns⟩
    · exact ⟨o, .head ⟨b, hb, ht⟩ hpath, howns⟩

theorem below_of_lexical (h : ReflTransGen F.LexicalChild s o) : ReflTransGen F.Child s o :=
  ReflTransGen.mono (fun _ _ => LexicalChild.child) _ _ h

theorem owner_of_mentions (h : ReflTransGen F.Child s t) (hv : F.Mentions t v) :
    ∃ o, ReflTransGen F.LexicalChild s o ∧ F.Owns o v ∧ ReflTransGen F.Child o t := by
  induction h using ReflTransGen.head_induction_on with
  | refl => exact ⟨t, .refl, Or.inl hv, .refl⟩
  | @head s u hchild hpath ih =>
    have hbelow : ReflTransGen F.Child s t := .head hchild hpath
    obtain ⟨⟨b, kind⟩, hb, hu⟩ := hchild
    cases kind with
    | lexical =>
      obtain ⟨o, ho, howns, ht⟩ := ih
      exact ⟨o, .head ⟨b, mem_lexicalBodies.mpr hb, hu⟩ ho, howns, ht⟩
    | clause => exact ⟨s, .refl, Or.inr ⟨b, mem_clauses.mpr hb, u, hu, t, hpath, hv⟩, hbelow⟩

theorem mentions_of_within (h : F.Within s v) : ∃ t, ReflTransGen F.Child s t ∧ F.Mentions t v := by
  obtain ⟨o, hpath, howns⟩ := h
  have hbelow : ReflTransGen F.Child s o := below_of_lexical hpath
  rcases howns with hv | ⟨b, hb, t, ht, u, hu, hv⟩
  · exact ⟨o, hbelow, hv⟩
  · exact ⟨u, (hbelow.tail ⟨_, mem_clauses.mp hb, ht⟩).trans hu, hv⟩

/-! ## Bodies -/

/-- `d` is a lexical body of a statement of `b`. -/
def Nests (F : FunctionView) (b d : List Nat) : Prop := ∃ s ∈ b, d ∈ F.lexicalBodies s

def Under (F : FunctionView) (b : List Nat) (o : Nat) : Prop := ∃ s ∈ b, ReflTransGen F.LexicalChild s o

/-- `x` is the narrowest body in `b` that holds all occurrences of a variable in `b`. -/
structure Narrowest (F : FunctionView) (v : Nat) (b x : List Nat) : Prop where
  nested : ReflTransGen F.Nests b x
  holds : ∀ o, F.Under b o → F.Owns o v → F.Under x o
  least : ∀ y, ReflTransGen F.Nests b y → (∀ o, F.Under b o → F.Owns o v → F.Under y o) → ReflTransGen F.Nests y x

/-- `a` is the first statement of `b` in source order that a variable occurs in. -/
def First (F : FunctionView) (b : List Nat) (v a : Nat) : Prop :=
  ∃ before after, b = before ++ a :: after ∧ F.Within a v ∧ ∀ s ∈ before, ¬ F.Within s v

variable {F : FunctionView}

theorem Under.of_nests (hnests : F.Nests b d) (h : F.Under d o) : F.Under b o := by
  obtain ⟨s, hs, hd⟩ := hnests
  obtain ⟨t, ht, hpath⟩ := h
  exact ⟨s, hs, .head ⟨d, hd, ht⟩ hpath⟩

theorem Under.of_nested (hnested : ReflTransGen F.Nests b d) (h : F.Under d o) : F.Under b o := by
  induction hnested with
  | refl => exact h
  | tail _ hnests ih => exact ih (h.of_nests hnests)

/-! ## The forest -/

theorem eq_of_mem_flatMap {α : Type} {f : α → List Nat} {l : List α} (h : (l.flatMap f).Nodup) {i j : Nat} {x y : α}
    (hx : l[i]? = some x) (hy : l[j]? = some y) (ht : t ∈ f x) (ht' : t ∈ f y) : i = j := by
  induction l generalizing i j with
  | nil => cases hx
  | cons z l ih =>
    rw [flatMap_cons, nodup_append] at h
    cases i with
    | zero =>
      cases hx
      cases j with
      | zero => rfl
      | succ j => exact absurd rfl (h.2.2 t ht t (mem_flatMap.mpr ⟨y, mem_of_getElem? hy, ht'⟩))
    | succ i =>
      cases j with
      | zero =>
        cases hy
        exact absurd rfl (h.2.2 t ht' t (mem_flatMap.mpr ⟨x, mem_of_getElem? hx, ht⟩))
      | succ j => exact congrArg (· + 1) (ih h.2.1 hx hy)

theorem Contract.parent_unique (hF : F.Contract) {p q : Nat} (hp : p < F.stmtCount) (hq : q < F.stmtCount)
    (hpt : F.Child p t) (hqt : F.Child q t) : p = q := by
  obtain ⟨b, hb, ht⟩ := hpt
  obtain ⟨c, hc, ht'⟩ := hqt
  exact eq_of_mem_flatMap (nodup_append.mp hF.listed_once).2.1 (getElem?_range hp) (getElem?_range hq)
    (mem_flatMap.mpr ⟨b, hb, ht⟩) (mem_flatMap.mpr ⟨c, hc, ht'⟩)

theorem Contract.not_child_of_mem_body (hF : F.Contract) {p : Nat} (ht : t ∈ F.body) (hp : p < F.stmtCount) :
    ¬ F.Child p t := by
  intro h
  obtain ⟨b, hb, htb⟩ := h
  exact (nodup_append.mp hF.listed_once).2.2 t ht t
    (mem_flatMap.mpr ⟨p, mem_range.mpr hp, mem_flatMap.mpr ⟨b, hb, htb⟩⟩) rfl

theorem Contract.nodup_childBodies (hF : F.Contract) (hs : s < F.stmtCount) :
    ((F.childBodies s).flatMap (·.1)).Nodup :=
  (nodup_flatMap.mp (nodup_append.mp hF.listed_once).2.1).1 s (mem_range.mpr hs)

theorem Contract.nodup_lexicalBodies (hF : F.Contract) (hs : s < F.stmtCount) :
    ((F.lexicalBodies s).flatMap id).Nodup := by
  rw [lexicalBodies, flatMap_map]
  obtain ⟨heach, hpair⟩ := nodup_flatMap.mp (hF.nodup_childBodies hs)
  exact nodup_flatMap.mpr ⟨fun child hchild => heach child (mem_of_mem_filter hchild), hpair.filter _⟩

def Listed (F : FunctionView) (b : List Nat) : Prop :=
  b = F.body ∨ ∃ p, p < F.stmtCount ∧ b ∈ F.lexicalBodies p

theorem Contract.lt_of_listed (hF : F.Contract) (hb : F.Listed b) (hs : s ∈ b) :
    s < F.stmtCount := by
  rcases hb with rfl | ⟨p, hp, hb⟩
  · exact hF.body_lt s hs
  · exact (hF.child_lt p s hp ⟨_, mem_lexicalBodies.mp hb, hs⟩).trans hp

theorem Contract.listed_nests (hF : F.Contract) (hb : F.Listed b) (h : F.Nests b d) : F.Listed d := by
  obtain ⟨s, hs, hd⟩ := h
  exact Or.inr ⟨s, hF.lt_of_listed hb hs, hd⟩

/-- Two statements of one body, or of bodies of one statement. -/
def Siblings (F : FunctionView) (s t : Nat) : Prop :=
  (s ∈ F.body ∧ t ∈ F.body) ∨ ∃ p, p < F.stmtCount ∧ F.Child p s ∧ F.Child p t

theorem Listed.siblings (hb : F.Listed b) (hs : s ∈ b) (ht : t ∈ b) : F.Siblings s t := by
  rcases hb with rfl | ⟨p, hp, hb⟩
  · exact Or.inl ⟨hs, ht⟩
  · exact Or.inr ⟨p, hp, ⟨_, mem_lexicalBodies.mp hb, hs⟩, _, mem_lexicalBodies.mp hb, ht⟩

theorem Contract.comparable (hF : F.Contract) (hs : s < F.stmtCount) (ht : t < F.stmtCount)
    (h : ReflTransGen F.Child s o) (h' : ReflTransGen F.Child t o) :
    ReflTransGen F.Child s t ∨ ReflTransGen F.Child t s := by
  induction h with
  | refl => exact Or.inr h'
  | @tail m o hm hchild ih =>
    rcases h'.cases_tail with rfl | ⟨m', hm', hchild'⟩
    · exact Or.inl (hm.tail hchild)
    · obtain rfl := hF.parent_unique ((hF.below_lt hs hm).trans_lt hs) ((hF.below_lt ht hm').trans_lt ht) hchild hchild'
      exact ih hm'

theorem Contract.eq_of_below_sibling (hF : F.Contract) (hs : s < F.stmtCount) (hst : F.Siblings s t)
    (h : ReflTransGen F.Child s t) : s = t := by
  rcases h.cases_tail with heq | ⟨m, hm, hchild⟩
  · exact heq.symm
  · have hlt := (hF.below_lt hs hm).trans_lt hs
    rcases hst with ⟨-, ht⟩ | ⟨p, hp, hps, hpt⟩
    · exact absurd hchild (hF.not_child_of_mem_body ht hlt)
    · obtain rfl := hF.parent_unique hp hlt hpt hchild
      have := hF.child_lt p s hp hps
      have := hF.below_lt hs hm
      omega

theorem Contract.eq_of_siblings (hF : F.Contract) (hs : s < F.stmtCount) (ht : t < F.stmtCount)
    (hst : F.Siblings s t) (h : ReflTransGen F.LexicalChild s o) (h' : ReflTransGen F.LexicalChild t o) : s = t := by
  have hts : F.Siblings t s := hst.imp And.symm fun hp => by
    obtain ⟨p, hlt, hps, hpt⟩ := hp
    exact ⟨p, hlt, hpt, hps⟩
  rcases hF.comparable hs ht (below_of_lexical h) (below_of_lexical h') with h | h
  · exact hF.eq_of_below_sibling hs hst h
  · exact (hF.eq_of_below_sibling ht hts h).symm

theorem lt_of_listed_under (hF : F.Contract) (hb : F.Listed b) (hs : s ∈ b) (ht : t ∈ b)
    (h : ReflTransGen F.LexicalChild s o) (h' : ReflTransGen F.LexicalChild t o) : s = t :=
  hF.eq_of_siblings (hF.lt_of_listed hb hs) (hF.lt_of_listed hb ht) (hb.siblings hs ht) h h'

/-! ## Anchors -/

/-- `a` is the anchor of a variable in a body, by the components that the variable has: the first
statement it occurs in when nothing narrower holds it, else its anchor in the only body that does. -/
inductive Anchored (F : FunctionView) (v : Nat) : List Nat → Nat → Prop
  | first {b : List Nat} {a : Nat} : F.First b v a → (F.Owns a v ∨ (∃ s ∈ b, s ≠ a ∧ F.Within s v) ∨
      ∃ (i j : Nat) (c d : List Nat), i ≠ j ∧ (F.lexicalBodies a)[i]? = some c ∧ (F.lexicalBodies a)[j]? = some d ∧
        F.Contains c v ∧ F.Contains d v) → Anchored F v b a
  | inner {b c : List Nat} {s a : Nat} : s ∈ b → (∀ t ∈ b, F.Within t v → t = s) → ¬ F.Owns s v →
      c ∈ F.lexicalBodies s → (∀ d ∈ F.lexicalBodies s, F.Contains d v → d = c) → Anchored F v c a → Anchored F v b a

theorem Anchored.contains {a : Nat} (h : F.Anchored v b a) : F.Contains b v := by
  induction h with
  | first hfirst _ =>
    obtain ⟨before, after, rfl, hwithin, -⟩ := hfirst
    exact ⟨_, mem_append_right before mem_cons_self, hwithin⟩
  | inner hs _ _ hc _ _ ih => exact ⟨_, hs, within_iff.mpr (Or.inr ⟨_, hc, ih⟩)⟩

theorem nested_cases {y : List Nat} (h : ReflTransGen F.Nests b y) :
    y = b ∨ ∃ s ∈ b, ∃ c ∈ F.lexicalBodies s, ReflTransGen F.Nests c y := by
  rcases h.cases_head with rfl | ⟨c, ⟨s, hs, hc⟩, hy⟩
  · exact Or.inl rfl
  · exact Or.inr ⟨s, hs, c, hc, hy⟩

theorem Anchored.narrowest (hF : F.Contract) {a : Nat} (h : F.Anchored v b a) (hb : F.Listed b) :
    ∃ x, F.Narrowest v b x ∧ F.First x v a := by
  induction h with
  | @first b a hfirst hwhy =>
    refine ⟨b, ⟨.refl, fun o ho _ => ho, fun y hy hholds => ?_⟩, hfirst⟩
    rcases nested_cases hy with rfl | ⟨s, hs, c, hc, hy⟩
    · exact .refl
    exfalso
    have ha : a ∈ b := by
      obtain ⟨before, after, rfl, -⟩ := hfirst
      exact mem_append_right before mem_cons_self
    have hlt : ∀ {t : Nat}, t ∈ b → t < F.stmtCount := hF.lt_of_listed hb
    have hwithin : F.Within a v := by
      obtain ⟨-, -, -, hwithin, -⟩ := hfirst
      exact hwithin
    -- every occurrence in `b` is in the body `c` of `s`
    have hin : ∀ o, F.Under b o → F.Owns o v → ∃ t ∈ c, ReflTransGen F.LexicalChild t o :=
      fun o ho hv => (hholds o ho hv).of_nested hy
    have hsame : ∀ t ∈ b, F.Within t v → t = s := by
      intro t ht hv
      obtain ⟨o, hpath, howns⟩ := hv
      obtain ⟨u, hu, hpath'⟩ := hin o ⟨t, ht, hpath⟩ howns
      exact lt_of_listed_under hF hb ht hs hpath (.head ⟨c, hc, hu⟩ hpath')
    obtain rfl := hsame a ha hwithin
    rcases hwhy with howns | ⟨t, ht, hne, hv⟩ | ⟨i, j, d, e, hne, hd, he, hdv, hev⟩
    · -- an occurrence of the statement itself is in no body of it
      obtain ⟨u, hu, hpath⟩ := hin a ⟨a, ha, .refl⟩ howns
      have := hF.child_lt a u (hlt ha) (LexicalChild.child ⟨c, hc, hu⟩)
      have := hF.below_lt (this.trans (hlt ha)) (below_of_lexical hpath)
      omega
    · exact hne (hsame t ht hv)
    · -- an occurrence of each of two bodies: both would be `c`
      obtain ⟨k, hk⟩ := mem_iff_getElem?.mp hc
      have hindex : ∀ (l : Nat) (f : List Nat), (F.lexicalBodies a)[l]? = some f → F.Contains f v → l = k := by
        intro l f hl hv
        obtain ⟨t, ht, o, hpath, howns⟩ := hv
        have hf := mem_of_getElem? hl
        obtain ⟨u, hu, hpath'⟩ := hin o ⟨a, ha, .head ⟨f, hf, ht⟩ hpath⟩ howns
        have hat : F.Child a t := LexicalChild.child ⟨f, hf, ht⟩
        have hau : F.Child a u := LexicalChild.child ⟨c, hc, hu⟩
        have htlt := (hF.child_lt a t (hlt ha) hat).trans (hlt ha)
        have hult := (hF.child_lt a u (hlt ha) hau).trans (hlt ha)
        obtain rfl := hF.eq_of_siblings htlt hult (Or.inr ⟨a, hlt ha, hat, hau⟩) hpath hpath'
        exact eq_of_mem_flatMap (hF.nodup_lexicalBodies (hlt ha)) hl hk ht hu
      exact hne ((hindex i d hd hdv).trans (hindex j e he hev).symm)
  | @inner b c s a hs honly howns hc honlyBody hanchored ih =>
    have hnests : F.Nests b c := ⟨s, hs, hc⟩
    obtain ⟨x, hx, hfirst⟩ := ih (hF.listed_nests hb hnests)
    -- all occurrences in `b` are in `c`
    have hunder : ∀ o, F.Under b o → F.Owns o v → F.Under c o := by
      intro o ho hv
      obtain ⟨t, ht, hpath⟩ := ho
      obtain rfl := honly t ht ⟨o, hpath, hv⟩
      rcases hpath.cases_head with rfl | ⟨u, ⟨d, hd, hu⟩, hpath⟩
      · exact absurd hv howns
      · obtain rfl := honlyBody d hd ⟨u, hu, o, hpath, hv⟩
        exact ⟨u, hu, hpath⟩
    refine ⟨x, ⟨.head hnests hx.nested, fun o ho hv => hx.holds o (hunder o ho hv) hv, fun y hy hholds => ?_⟩, hfirst⟩
    rcases nested_cases hy with rfl | ⟨t, ht, d, hd, hy⟩
    · exact .head hnests hx.nested
    · obtain ⟨u, hu, o, hpath, hv⟩ := hanchored.contains
      obtain ⟨w, hw, hpath'⟩ := (hholds o ⟨s, hs, .head ⟨c, hc, hu⟩ hpath⟩ hv).of_nested hy
      obtain rfl := honly t ht ⟨o, .head ⟨d, hd, hw⟩ hpath', hv⟩
      obtain rfl := honlyBody d hd ⟨w, hw, o, hpath', hv⟩
      exact hx.least y hy fun o ho hv => hholds o (ho.of_nests hnests) hv

end FunctionView

end CfgLib.Hlil
