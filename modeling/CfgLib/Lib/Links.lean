import Mathlib.Data.List.Chain
import Mathlib.Data.List.Nodup
import Mathlib.Data.List.Rotate

/-!
# Links

A relation that leads from each element to at most one and to each element from at most
one splits its elements into paths and cycles.  A path or cycle is whole when no link
extends it; two whole ones that meet are the same, up to the place where a cycle begins.
-/

namespace CfgLib.Lib

open List

variable {α : Type} {L : α → α → Prop}

/-- Each element has at most one link out and at most one link in. -/
structure OneToOneLinks (L : α → α → Prop) : Prop where
  out : ∀ {a b c}, L a b → L a c → b = c
  into : ∀ {a b c}, L a c → L b c → a = b

/-- A path or a cycle of links that no link extends: one that leaves the last element leads
back to the first. -/
structure Whole (L : α → α → Prop) (c : List α) : Prop where
  nodup : c.Nodup
  chain : c.IsChain L
  forward : ∀ x ∈ c.getLast?, ∀ m, L x m → m ∈ c.head?
  backward : ∀ y ∈ c.head?, ∀ p, L p y → p ∈ c.getLast?

variable {l : List α} {m n p x : α}

theorem isChain_cut {s t : List α} {y : α} (h : (s ++ x :: y :: t).IsChain L) : L x y :=
  (isChain_cons_cons.mp (List.IsChain.right_of_append h)).1

variable {c c' : List α}

theorem succ_mem_of_chain (hL : OneToOneLinks L) (hchain : c.IsChain L) (hn : n ∈ c) (hlink : L n m) :
    n ∈ c.getLast? ∨ m ∈ c := by
  obtain ⟨s, t, rfl⟩ := append_of_mem hn
  cases t with
  | nil => exact Or.inl (by simp)
  | cons y t =>
    rw [hL.out hlink (isChain_cut hchain)]
    exact Or.inr (by simp)

theorem pred_mem_of_chain (hL : OneToOneLinks L) (hchain : c.IsChain L) (hn : n ∈ c) (hlink : L p n) :
    n ∈ c.head? ∨ p ∈ c := by
  obtain ⟨s, t, rfl⟩ := append_of_mem hn
  rcases eq_nil_or_concat s with rfl | ⟨s, x, rfl⟩
  · exact Or.inl (by simp)
  · rw [concat_eq_append, append_assoc] at hchain
    rw [hL.into hlink (isChain_cut hchain)]
    exact Or.inr (by simp)

theorem head_of_last (hL : OneToOneLinks L) (hnodup : c.Nodup) (hchain : c.IsChain L) (hx : x ∈ c.getLast?)
    (hm : m ∈ c) (hlink : L x m) : m ∈ c.head? := by
  obtain ⟨s, t, rfl⟩ := append_of_mem hm
  rcases eq_nil_or_concat s with rfl | ⟨s, y, rfl⟩
  · simp
  · rw [concat_eq_append, append_assoc] at hchain hnodup hx
    obtain rfl := hL.into hlink (isChain_cut hchain)
    -- the last element would stand before `m`
    have hlast : x ∈ m :: t := by
      have hx' : (m :: t).getLast? = some x := by simpa [getLast?_append] using hx
      exact mem_of_getLast? hx'
    have hnot := (nodup_append.mp hnodup).2.1
    rw [singleton_append, nodup_cons] at hnot
    exact absurd hlast hnot.1

theorem last_of_head (hL : OneToOneLinks L) (hnodup : c.Nodup) (hchain : c.IsChain L) {y : α} (hy : y ∈ c.head?)
    (hp : p ∈ c) (hlink : L p y) : p ∈ c.getLast? := by
  obtain ⟨s, t, rfl⟩ := append_of_mem hp
  cases t with
  | nil => simp
  | cons z t =>
    obtain rfl := hL.out hlink (isChain_cut hchain)
    have hfirst : y ∈ s ++ [p] := by
      cases s with
      | nil =>
        obtain rfl : p = y := by simpa using hy
        exact mem_singleton_self p
      | cons a s =>
        obtain rfl : a = y := by simpa using hy
        exact mem_cons_self
    have hsplit : s ++ p :: y :: t = (s ++ [p]) ++ y :: t := by simp
    rw [hsplit, nodup_append] at hnodup
    exact absurd rfl (hnodup.2.2 y hfirst y mem_cons_self)

theorem Whole.succ_mem (hL : OneToOneLinks L) (h : Whole L c) (hn : n ∈ c) (hlink : L n m) : m ∈ c := by
  rcases succ_mem_of_chain hL h.chain hn hlink with hlast | hm
  · exact mem_of_mem_head? (h.forward n hlast m hlink)
  · exact hm

theorem Whole.pred_mem (hL : OneToOneLinks L) (h : Whole L c) (hn : n ∈ c) (hlink : L p n) : p ∈ c := by
  rcases pred_mem_of_chain hL h.chain hn hlink with hhead | hp
  · exact mem_of_mem_getLast? (h.backward n hhead p hlink)
  · exact hp

theorem Whole.mem_of_last (hL : OneToOneLinks L) (h : Whole L c) (hl : l.IsChain L)
    (hlast : ∀ x ∈ l.getLast?, x ∈ c) : ∀ x ∈ l, x ∈ c :=
  List.IsChain.backwards_induction (· ∈ c) l hl (fun _ _ hlink hy => h.pred_mem hL hy hlink)
    fun hne => hlast _ (getLast?_eq_getLast_of_ne_nil hne)

theorem Whole.mem_of_head (hL : OneToOneLinks L) (h : Whole L c) (hl : l.IsChain L)
    (hhead : ∀ x ∈ l.head?, x ∈ c) : ∀ x ∈ l, x ∈ c :=
  List.IsChain.induction (· ∈ c) l hl (fun _ _ hlink hx => h.succ_mem hL hx hlink)
    fun hne => hhead _ (head?_eq_some_head hne)

theorem Whole.subset (hL : OneToOneLinks L) (h : Whole L c) (hl : l.IsChain L) (hx : x ∈ c)
    (hxl : x ∈ l) : ∀ y ∈ l, y ∈ c := by
  obtain ⟨s, t, rfl⟩ := append_of_mem hxl
  intro y hy
  rcases mem_append.mp hy with hy | hy
  · have hleft : (s ++ [x]).IsChain L := by
      have hsplit : s ++ x :: t = (s ++ [x]) ++ t := by simp
      rw [hsplit] at hl
      exact List.IsChain.left_of_append hl
    refine h.mem_of_last hL hleft (fun z hz => ?_) y (mem_append_left _ hy)
    obtain rfl : x = z := by simpa using hz
    exact hx
  · refine h.mem_of_head hL (List.IsChain.right_of_append hl) (fun z hz => ?_) y hy
    obtain rfl : x = z := by simpa using hz
    exact hx

theorem prefix_of_chain (hL : OneToOneLinks L) : ∀ {a : α} {l l' : List α}, (a :: l).IsChain L → (a :: l').IsChain L →
    a :: l <+: a :: l' ∨ a :: l' <+: a :: l
  | a, [], l', _, _ => Or.inl ⟨l', rfl⟩
  | a, b :: l, [], _, _ => Or.inr ⟨b :: l, rfl⟩
  | a, b :: l, b' :: l', h, h' => by
    rw [isChain_cons_cons] at h h'
    obtain rfl := hL.out h.1 h'.1
    rcases prefix_of_chain hL h.2 h'.2 with hpre | hpre
    · exact Or.inl ((prefix_cons_inj a).mpr hpre)
    · exact Or.inr ((prefix_cons_inj a).mpr hpre)

theorem Whole.eq_of_prefix (h : Whole L c) (h' : Whole L c') (hne : c ≠ []) (hpre : c <+: c') : c = c' := by
  obtain ⟨rest, rfl⟩ := hpre
  cases rest with
  | nil => rw [append_nil]
  | cons y rest =>
    -- the link from the last element of `c` would lead back to its first
    have hlast := getLast?_eq_getLast_of_ne_nil hne
    have hlink : L (c.getLast hne) y := (isChain_append.mp h'.chain).2.2 _ hlast y rfl
    have hhead := mem_of_mem_head? (h.forward _ hlast y hlink)
    exact absurd rfl ((nodup_append.mp h'.nodup).2.2 y hhead y mem_cons_self)

theorem Whole.eq_of_head (hL : OneToOneLinks L) (h : Whole L c) (h' : Whole L c') {a : α} (ha : a ∈ c.head?)
    (ha' : a ∈ c'.head?) : c = c' := by
  obtain ⟨l, rfl⟩ := head?_eq_some_iff.mp ha
  obtain ⟨l', rfl⟩ := head?_eq_some_iff.mp ha'
  rcases prefix_of_chain hL h.chain h'.chain with hpre | hpre
  · exact h.eq_of_prefix h' (cons_ne_nil a l) hpre
  · exact (h'.eq_of_prefix h (cons_ne_nil a l') hpre).symm

theorem Whole.rotate (hL : OneToOneLinks L) {a b : α} {s t : List α} (h : Whole L (a :: s ++ b :: t))
    (hx : x ∈ (b :: t).getLast?) (hlink : L x a) : Whole L (b :: t ++ a :: s) := by
  have hchain := isChain_append.mp h.chain
  have hjoin : ∀ z ∈ (a :: s).getLast?, L z b := fun z hz => hchain.2.2 z hz b rfl
  refine ⟨(perm_append_comm.nodup_iff).mp h.nodup, ?_, ?_, ?_⟩
  · refine isChain_append.mpr ⟨hchain.2.1, hchain.1, fun z hz w hw => ?_⟩
    rw [Option.mem_unique hz hx]
    obtain rfl : a = w := by simpa using hw
    exact hlink
  · intro z hz m hm
    have hz' : z ∈ (a :: s).getLast? := by
      rw [getLast?_append_of_ne_nil _ (cons_ne_nil a s)] at hz
      exact hz
    rw [hL.out hm (hjoin z hz')]
    rfl
  · intro y hy p hp
    obtain rfl : b = y := by simpa using hy
    obtain ⟨z, hz⟩ : ∃ z, (a :: s).getLast? = some z := ⟨_, getLast?_eq_getLast_of_ne_nil (cons_ne_nil a s)⟩
    rw [hL.into hp (hjoin z hz), getLast?_append_of_ne_nil _ (cons_ne_nil a s)]
    exact hz

/-- Whole chains that meet are the same, up to where a cycle begins. -/
theorem Whole.isRotated (hL : OneToOneLinks L) (h : Whole L c) (h' : Whole L c') (hx : x ∈ c) (hx' : x ∈ c') :
    c' ~r c ∧ ((∀ y ∈ c.head?, ∀ p, ¬ L p y) → c' = c) := by
  obtain ⟨b, l', rfl⟩ : ∃ b l', c' = b :: l' := exists_cons_of_ne_nil (ne_nil_of_mem hx')
  have hb : b ∈ c := h.subset hL h'.chain hx hx' b mem_cons_self
  obtain ⟨s, t, rfl⟩ := append_of_mem hb
  cases s with
  | nil =>
    have heq := h'.eq_of_head hL h rfl rfl
    exact ⟨heq ▸ List.IsRotated.refl _, fun _ => heq⟩
  | cons a s =>
    -- `b` has a link in, so the second chain is a cycle, and with it the first
    obtain ⟨z, hz⟩ : ∃ z, (a :: s).getLast? = some z := ⟨_, getLast?_eq_getLast_of_ne_nil (cons_ne_nil a s)⟩
    have hzb : L z b := (isChain_append.mp h.chain).2.2 z hz b rfl
    have hzlast := h'.backward b rfl z hzb
    obtain ⟨w, hw⟩ : ∃ w, (b :: t).getLast? = some w := ⟨_, getLast?_eq_getLast_of_ne_nil (cons_ne_nil b t)⟩
    have hwc : w ∈ (a :: s ++ b :: t).getLast? := by
      rw [getLast?_append_of_ne_nil _ (cons_ne_nil b t)]
      exact hw
    have hwmem : w ∈ b :: l' := h'.subset hL h.chain hx' hx w (mem_of_mem_getLast? hwc)
    have hlink : ∃ m, L w m := by
      obtain ⟨s', t', hsplit⟩ := append_of_mem hwmem
      cases t' with
      | nil =>
        rw [hsplit] at hzlast
        obtain rfl : w = z := by simpa using hzlast
        exact ⟨b, hzb⟩
      | cons y t' =>
        refine ⟨y, isChain_cut (s := s') (t := t') ?_⟩
        rw [← hsplit]
        exact h'.chain
    obtain ⟨m, hm⟩ := hlink
    obtain rfl : a = m := by simpa using h.forward w hwc m hm
    have hrot := h.rotate hL hw hm
    have heq := h'.eq_of_head hL hrot rfl rfl
    refine ⟨?_, fun hpath => absurd hm (hpath a rfl w)⟩
    rw [heq]
    exact ⟨(b :: t).length, rotate_append_length_eq _ _⟩

end CfgLib.Lib
