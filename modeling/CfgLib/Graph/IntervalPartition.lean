import CfgLib.Graph.Interval

/-!
# What the interval analysis computes

The intervals partition the nodes that the root reaches, in the only way that intervals
can: the partition depends on the edge relation alone.
-/

namespace CfgLib

open CfgLib.Lib Relation
open List (mem_append mem_cons_self mem_singleton)

variable {g : GraphView} {live : Nat → Bool} {root : Nat} {order : List Nat} {s s' : Partitioning}

/-- A node is entered from a completed interval and from elsewhere. -/
def EnteredFrom (g : GraphView) (live : Nat → Bool) (intervals : List Interval) (n : Nat) : Prop :=
  ∃ J ∈ intervals, n ∉ J.blocks ∧ (∃ b ∈ J.blocks, n ∈ g.successors b) ∧
    ∃ p ∈ livePredecessors g live n, p ∉ J.blocks

/-- What the analysis keeps: `order` lists the nodes that have an interval as they were admitted. -/
structure Parts (g : GraphView) (live : Nat → Bool) (root : Nat) (order : List Nat) (s : Partitioning) : Prop where
  assigned_iff : ∀ n, s.assigned n = true ↔ n ∈ order
  nodup : order.Nodup
  covered : ∀ n, n ∈ order ↔ ∃ I ∈ s.intervals, n ∈ I.blocks
  reached : ∀ n ∈ order, live n = true
  header_mem : ∀ I ∈ s.intervals, I.header ∈ I.blocks
  disjoint : s.intervals.Pairwise fun I J => Disjoint I.blocks J.blocks
  inside : ∀ I ∈ s.intervals, ∀ x ∈ I.blocks, x ≠ I.header → ∀ p ∈ livePredecessors g live x, p ∈ I.blocks
  closed : ∀ before x after, order = before ++ x :: after → (∀ I ∈ s.intervals, I.header ≠ x) →
    ∀ p ∈ livePredecessors g live x, p ∈ before
  counts : ∀ x, live x = true → s.assigned x = false → s.remaining x = (livePredecessors g live x).length
  headers : ∀ n ∈ s.headers, live n = true ∧ (n = root ∨ EnteredFrom g live s.intervals n)
  entered : ∀ I ∈ s.intervals, I.header = root ∨ EnteredFrom g live s.intervals I.header
  frontier : ∀ a ∈ order, ∀ b ∈ g.successors a, b ∈ order ∨ b ∈ s.headers
  start : (s.intervals = [] ∧ s.headers = [root]) ∨ ∃ I rest, s.intervals = I :: rest ∧ I.header = root

structure FloodedFrom (g : GraphView) (live : Nat → Bool) (root : Nat) : Prop extends LiveNodes g live where
  entered : ∀ x, live x = true → x ≠ root → ∃ p, live p = true ∧ x ∈ g.successors p

variable {I : Interval} {headers : List Nat} {n x : Nat}

theorem mem_livePredecessors (hg : g.Lawful) (hlive : LiveNodes g live) {p : Nat} (hx : live x = true) :
    p ∈ livePredecessors g live x ↔ live p = true ∧ x ∈ g.successors p := by
  have hxlt := hg.nodeIds_lt x (hlive.mem_nodeIds x hx)
  rw [livePredecessors, List.mem_filter, hg.mem_predecessors hxlt]
  constructor
  · intro h
    exact ⟨h.2, h.1.2⟩
  · intro h
    exact ⟨⟨hg.nodeIds_lt p (hlive.mem_nodeIds p h.1), h.2⟩, h.1⟩

theorem EnteredFrom.mono {intervals intervals' : List Interval} (h : EnteredFrom g live intervals n)
    (hsub : ∀ I ∈ intervals, I ∈ intervals') : EnteredFrom g live intervals' n := by
  obtain ⟨J, hJ, hrest⟩ := h
  exact ⟨J, hsub J hJ, hrest⟩

/-- How many nodes have no interval, and how many headers wait. -/
def Partitioning.size (g : GraphView) (s : Partitioning) : Nat × Nat :=
  (total (fun n => if s.assigned n then 0 else 1) (List.range g.nodeBound), s.headers.length)

theorem Parts.root_assigned (h : Parts g live root order s)
    (hheaders : s.headers = n :: headers) (hn : n ≠ root ∨ s.assigned n = true) : root ∈ order := by
  rcases h.start with ⟨hnil, hroot⟩ | ⟨I, rest, hcons, hroot⟩
  · rw [hroot] at hheaders
    cases hheaders
    have hmem := (h.assigned_iff root).mp (hn.resolve_left fun hne => hne rfl)
    exact hmem
  · have hI : I ∈ s.intervals := by
      rw [hcons]
      exact mem_cons_self
    exact (h.covered root).mpr ⟨I, hI, hroot ▸ h.header_mem I hI⟩

theorem Parts.skip (h : Parts g live root order s) (hheaders : s.headers = n :: headers)
    (hn : s.assigned n = true) : Parts g live root order { s with headers } := by
  refine { h with headers := fun m hm => ?_, frontier := fun a ha b hb => ?_, start := Or.inr ?_ }
  · exact h.headers m (by rw [hheaders]; exact List.mem_cons_of_mem n hm)
  · rcases h.frontier a ha b hb with hb | hb
    · exact Or.inl hb
    · rw [hheaders] at hb
      rcases List.mem_cons.mp hb with rfl | hb
      · exact Or.inl ((h.assigned_iff b).mp hn)
      · exact Or.inr hb
  · rcases h.start with ⟨hnil, _⟩ | hstart
    · obtain ⟨I, hI, _⟩ := (h.covered n).mp ((h.assigned_iff n).mp hn)
      rw [hnil] at hI
      cases hI
    · exact hstart

theorem Parts.grow (hlive : FloodedFrom g live root) (h : Parts g live root order s)
    (hheaders : s.headers = n :: headers) (hn : s.assigned n = false) {added : List Nat}
    {grown : Growing} (hgrown : GrownInterval g live s.assigned n added grown) {left : (Nat → Nat) × List Nat}
    (hleft : left = (grown.blocks.sort (· ≤ ·)).foldl (Partitioning.leave g grown.assigned) (grown.remaining, headers)) :
    Parts g live root (order ++ added)
      ⟨left.1, grown.assigned, left.2, s.intervals ++ [⟨n, grown.blocks⟩]⟩ := by
  obtain ⟨hrestored, hpushed⟩ := leave_all g grown.assigned (grown.blocks.sort (· ≤ ·)) (grown.remaining, headers)
  rw [← hleft] at hrestored hpushed
  obtain ⟨tail, htail⟩ := hgrown.head
  have hnadded : n ∈ added := by
    rw [htail]
    exact mem_cons_self
  have hassigned : ∀ m, grown.assigned m = true ↔ m ∈ order ++ added := by
    intro m
    rw [hgrown.assigned_iff, h.assigned_iff, mem_append]
  have hfresh : ∀ m ∈ added, m ∉ order := by
    intro m hm hmo
    have hold := hgrown.fresh m hm
    rw [(h.assigned_iff m).mpr hmo] at hold
    cases hold
  -- a new member other than the header has its predecessors before it
  have hbefore : ∀ before x after, added = before ++ x :: after → x ≠ n →
      ∀ p ∈ livePredecessors g live x, p ∈ before := by
    intro before x after hsplit hne
    refine hgrown.closed before x after hsplit ?_
    intro hnil
    rw [hnil, htail] at hsplit
    cases hsplit
    exact hne rfl
  have hsub : ∀ I ∈ s.intervals, I ∈ s.intervals ++ [⟨n, grown.blocks⟩] := fun I hI => List.mem_append_left _ hI
  have hnew : (⟨n, grown.blocks⟩ : Interval) ∈ s.intervals ++ [⟨n, grown.blocks⟩] :=
    List.mem_append_right _ (List.mem_singleton_self _)
  refine ⟨hassigned, ?_, fun m => ?_, fun m hm => ?_, fun I hI => ?_, ?_, fun I hI x hx hne p hp => ?_,
    fun before x after hsplit hheader p hp => ?_, fun x hx hax => ?_, fun m hm => ?_, fun I hI => ?_,
    fun a ha b hb => ?_, Or.inr ?_⟩
  · refine List.nodup_append.mpr ⟨h.nodup, hgrown.nodup, fun a ha b hb heq => ?_⟩
    exact hfresh b hb (heq ▸ ha)
  · rw [mem_append, h.covered]
    constructor
    · rintro (⟨I, hI, hm⟩ | hm)
      · exact ⟨I, hsub I hI, hm⟩
      · exact ⟨_, hnew, (hgrown.mem_blocks m).mpr hm⟩
    · rintro ⟨I, hI, hm⟩
      rcases mem_append.mp hI with hI | hI
      · exact Or.inl ⟨I, hI, hm⟩
      · rw [mem_singleton.mp hI] at hm
        exact Or.inr ((hgrown.mem_blocks m).mp hm)
  · rcases mem_append.mp hm with hm | hm
    · exact h.reached m hm
    · exact hgrown.reached m hm
  · rcases mem_append.mp hI with hI | hI
    · exact h.header_mem I hI
    · rw [mem_singleton.mp hI]
      exact (hgrown.mem_blocks n).mpr hnadded
  · refine List.pairwise_append.mpr ⟨h.disjoint, List.pairwise_singleton _ _, fun I hI J hJ => ?_⟩
    rw [mem_singleton.mp hJ]
    refine Finset.disjoint_left.mpr fun m hm hm' => ?_
    exact hfresh m ((hgrown.mem_blocks m).mp hm') ((h.covered m).mpr ⟨I, hI, hm⟩)
  · rcases mem_append.mp hI with hI | hI
    · exact h.inside I hI x hx hne p hp
    · rw [mem_singleton.mp hI] at hx hne ⊢
      obtain ⟨before, after, hsplit⟩ := List.append_of_mem ((hgrown.mem_blocks x).mp hx)
      have hpb := hbefore before x after hsplit hne p hp
      refine (hgrown.mem_blocks p).mpr ?_
      rw [hsplit]
      exact List.mem_append_left _ hpb
  · rcases List.append_eq_append_iff.mp hsplit with ⟨mid, hmid, hadded⟩ | ⟨mid, hmid, hadded⟩
    · rw [hmid]
      have hne : x ≠ n := fun heq => hheader _ hnew heq.symm
      exact List.mem_append_right _ (hbefore mid x after hadded hne p hp)
    · cases mid with
      | nil =>
        rw [List.nil_append] at hadded
        rw [List.append_nil] at hmid
        have hne : x ≠ n := fun heq => hheader _ hnew heq.symm
        have hpb := hbefore [] x after hadded.symm hne p hp
        cases hpb
      | cons y mid =>
        rw [List.cons_append] at hadded
        cases hadded
        exact h.closed before x mid hmid (fun I hI => hheader I (hsub I hI)) p hp
  · exact (hrestored x hax).trans (hgrown.counts x hx hax)
  · rcases (hpushed m).mp hm with hm | ⟨hm, b, hb, hsucc⟩
    · obtain ⟨hm, hfrom⟩ := h.headers m (by rw [hheaders]; exact List.mem_cons_of_mem n hm)
      exact ⟨hm, hfrom.imp_right fun hfrom => hfrom.mono hsub⟩
    · rw [Finset.mem_sort] at hb
      have hblive := hgrown.reached b ((hgrown.mem_blocks b).mp hb)
      have hmlive := hlive.successors b hblive m hsucc
      obtain ⟨p, hp, hpout⟩ := hgrown.outside m hmlive hm
      refine ⟨hmlive, Or.inr ⟨_, hnew, ?_, ⟨b, hb, hsucc⟩, p, hp, fun hmem => hpout ((hgrown.mem_blocks p).mp hmem)⟩⟩
      intro hmem
      rw [(hassigned m).mpr (List.mem_append_right _ ((hgrown.mem_blocks m).mp hmem))] at hm
      cases hm
  · rcases mem_append.mp hI with hI | hI
    · exact (h.entered I hI).imp_right fun hfrom => hfrom.mono hsub
    · rw [mem_singleton.mp hI]
      have hfrom := (h.headers n (by rw [hheaders]; exact mem_cons_self)).2
      exact hfrom.imp_right fun hfrom => hfrom.mono hsub
  · rw [mem_append] at ha ⊢
    rcases ha with ha | ha
    · rcases h.frontier a ha b hb with hb | hb
      · exact Or.inl (Or.inl hb)
      · rw [hheaders] at hb
        rcases List.mem_cons.mp hb with rfl | hb
        · exact Or.inl (Or.inr hnadded)
        · exact Or.inr ((hpushed b).mpr (Or.inl hb))
    · by_cases hab : grown.assigned b = true
      · exact Or.inl (mem_append.mp ((hassigned b).mp hab))
      · refine Or.inr ((hpushed b).mpr (Or.inr ⟨by simpa using hab, a, ?_, hb⟩))
        rw [Finset.mem_sort]
        exact (hgrown.mem_blocks a).mpr ha
  · rcases h.start with ⟨hnil, hroot⟩ | ⟨I, rest, hcons, hroot⟩
    · rw [hroot] at hheaders
      cases hheaders
      exact ⟨⟨root, grown.blocks⟩, [], by rw [hnil]; rfl, rfl⟩
    · exact ⟨I, rest ++ [⟨n, grown.blocks⟩], by rw [hcons]; rfl, hroot⟩

theorem Parts.step (hg : g.Lawful) (hlive : FloodedFrom g live root) (h : Parts g live root order s)
    (hstep : Partitioning.step g s = some s') :
    (∃ order', Parts g live root order' s') ∧ Prod.Lex (· < ·) (· < ·) (s'.size g) (s.size g) := by
  unfold Partitioning.step at hstep
  split at hstep
  · cases hstep
  next n headers hheaders =>
  have hnlive := (h.headers n (by rw [hheaders]; exact mem_cons_self)).1
  split at hstep
  · next hn =>
    cases hstep
    refine ⟨⟨order, h.skip hheaders hn⟩, Prod.Lex.right _ ?_⟩
    rw [hheaders]
    exact Nat.lt_succ_self _
  · next hn =>
    have hn' : s.assigned n = false := by simpa using hn
    have hpositive : ∀ x, live x = true → s.assigned x = false → x ≠ n → 0 < s.remaining x := by
      intro x hx hax hne
      have hxroot : x ≠ root := by
        intro heq
        have hnroot : n ≠ root := fun hnr => hne (heq.trans hnr.symm)
        have hmem := h.root_assigned hheaders (Or.inl hnroot)
        rw [heq, (h.assigned_iff root).mpr hmem] at hax
        cases hax
      obtain ⟨p, hp, he⟩ := hlive.entered x hx hxroot
      rw [h.counts x hx hax]
      exact List.length_pos_of_mem ((mem_livePredecessors hg hlive.toLiveNodes hx).mpr ⟨hp, he⟩)
    obtain ⟨added, hgrown⟩ := grown_spec hg hlive.toLiveNodes hnlive hn' h.counts hpositive
    generalize iterate (Growing.step g) g.nodeBound
      ⟨s.remaining, Function.update s.assigned n true, {n}, [n]⟩ = grown at hgrown hstep
    cases hstep
    refine ⟨⟨order ++ added, h.grow hlive hheaders hn' hgrown rfl⟩, Prod.Lex.left _ _ ?_⟩
    have hdrop : total (fun m => if grown.assigned m then 0 else 1) (List.range g.nodeBound) + 1 ≤
        total (fun m => if s.assigned m then 0 else 1) (List.range g.nodeBound) := by
      have hnlt := hg.nodeIds_lt n (hlive.mem_nodeIds n hnlive)
      refine total_drop (fun m _ => ?_) (List.mem_range.mpr hnlt) ?_
      · by_cases hm : s.assigned m = true
        · rw [if_pos hm, if_pos ((hgrown.assigned_iff m).mpr (Or.inl hm))]
        · rw [if_neg hm]
          split <;> omega
      · obtain ⟨tail, htail⟩ := hgrown.head
        have hnew : grown.assigned n = true := (hgrown.assigned_iff n).mpr (Or.inr (by rw [htail]; exact mem_cons_self))
        simp [hnew, hn']
    exact hdrop

/-! ## The partition -/

variable {v v' : RootedView} {intervals intervals' : List Interval}

structure IntervalPartition (v : RootedView) (intervals : List Interval) : Prop where
  disjoint : intervals.Pairwise fun I J => Disjoint I.blocks J.blocks
  covered : ∀ n, ReflTransGen v.Edge v.root n ↔ ∃ I ∈ intervals, n ∈ I.blocks
  first : ∃ I rest, intervals = I :: rest ∧ I.header = v.root
  header_mem : ∀ I ∈ intervals, I.header ∈ I.blocks
  inside : ∀ I ∈ intervals, ∀ x ∈ I.blocks, x ≠ I.header →
    ∀ p, ReflTransGen v.Edge v.root p → v.Edge p x → p ∈ I.blocks
  dominates : ∀ I ∈ intervals, ∀ x ∈ I.blocks, Dominates v.Edge v.root I.header x
  cycles : ∀ I ∈ intervals, ∀ p, IsCycle v.Edge p → (∀ x ∈ p, x ∈ I.blocks) → I.header ∈ p
  entered : ∀ I ∈ intervals, I.header ≠ v.root → ∃ J ∈ intervals, ∃ K ∈ intervals, J ≠ K ∧
    (∃ p ∈ J.blocks, v.Edge p I.header) ∧ ∃ q ∈ K.blocks, v.Edge q I.header
  maximal : ∀ I ∈ intervals, ∀ J ∈ intervals, I ≠ J → ∀ x ∈ J.blocks, x ≠ v.root →
    ∃ p, ReflTransGen v.Edge v.root p ∧ v.Edge p x ∧ p ∉ I.blocks

def headOf (intervals : List Interval) (x : Nat) : Nat :=
  ((intervals.find? fun I => x ∈ I.blocks).map Interval.header).getD x

theorem interval_unique (h : intervals.Pairwise fun I J => Disjoint I.blocks J.blocks) {J : Interval}
    (hI : I ∈ intervals) (hJ : J ∈ intervals) (hxI : x ∈ I.blocks) (hxJ : x ∈ J.blocks) : I = J := by
  by_contra hne
  have : Std.Symm fun I J : Interval => Disjoint I.blocks J.blocks := ⟨fun _ _ hd => hd.symm⟩
  exact Finset.disjoint_left.mp (h.forall hI hJ hne) hxI hxJ

theorem headOf_eq (h : intervals.Pairwise fun I J => Disjoint I.blocks J.blocks) (hI : I ∈ intervals)
    (hx : x ∈ I.blocks) : headOf intervals x = I.header := by
  unfold headOf
  cases hfind : intervals.find? fun I => decide (x ∈ I.blocks) with
  | none =>
    exact absurd (decide_eq_true hx) (List.find?_eq_none.mp hfind I hI)
  | some J =>
    have hJ := List.mem_of_find?_eq_some hfind
    have hxJ : decide (x ∈ J.blocks) = true := List.find?_some (p := fun I : Interval => decide (x ∈ I.blocks)) hfind
    replace hxJ := of_decide_eq_true hxJ
    rw [interval_unique h hI hJ hx hxJ]
    rfl

theorem Parts.covers (h : Parts g live root order s) (hdone : s.headers = [])
    (hn : ReflTransGen g.Edge root n) : n ∈ order := by
  induction hn with
  | refl =>
    rcases h.start with ⟨_, hroot⟩ | ⟨I, rest, hcons, hroot⟩
    · rw [hroot] at hdone
      cases hdone
    · have hI : I ∈ s.intervals := by
        rw [hcons]
        exact mem_cons_self
      exact (h.covered root).mpr ⟨I, hI, hroot ▸ h.header_mem I hI⟩
  | tail _ he ih =>
    rcases h.frontier _ ih _ he.2 with hb | hb
    · exact hb
    · rw [hdone] at hb
      cases hb

theorem Parts.isIntervals (hg : v.Lawful) (hlive : LiveNodes v.toGraphView live)
    (hreach : ∀ n, live n = true ↔ ReflTransGen v.Edge v.root n) (h : Parts v.toGraphView live v.root order s)
    (hdone : s.headers = []) : IsIntervals v.Edge v.root (headOf s.intervals) := by
  have hat : ∀ x, ReflTransGen v.Edge v.root x → ∃ I ∈ s.intervals, x ∈ I.blocks ∧ headOf s.intervals x = I.header := by
    intro x hx
    obtain ⟨I, hI, hxI⟩ := (h.covered x).mp (h.covers hdone hx)
    exact ⟨I, hI, hxI, headOf_eq h.disjoint hI hxI⟩
  have hmem : ∀ I ∈ s.intervals, ∀ x ∈ I.blocks, ReflTransGen v.Edge v.root x := fun I hI x hx =>
    (hreach x).mp (h.reached x ((h.covered x).mpr ⟨I, hI, hx⟩))
  have hpred : ∀ p x, ReflTransGen v.Edge v.root p → v.Edge p x → p ∈ livePredecessors v.toGraphView live x :=
    fun p x hp he => (mem_livePredecessors hg hlive ((hreach x).mpr (hp.tail he))).mpr ⟨(hreach p).mpr hp, he.2⟩
  refine ⟨fun x hx => ?_, fun x hx => ?_, ?_, fun p x hp he hne => ?_, ?_, fun x hx hhead hne => ?_⟩
  · obtain ⟨I, hI, _, heq⟩ := hat x hx
    rw [heq]
    exact hmem I hI _ (h.header_mem I hI)
  · obtain ⟨I, hI, _, heq⟩ := hat x hx
    rw [heq]
    exact headOf_eq h.disjoint hI (h.header_mem I hI)
  · rcases h.start with ⟨_, hroot⟩ | ⟨I, rest, hcons, hroot⟩
    · rw [hroot] at hdone
      cases hdone
    · have hI : I ∈ s.intervals := by
        rw [hcons]
        exact mem_cons_self
      rw [headOf_eq h.disjoint hI (hroot ▸ h.header_mem I hI), hroot]
  · obtain ⟨I, hI, hxI, heq⟩ := hat x (hp.tail he)
    rw [heq] at hne
    have hpI := h.inside I hI x hxI (Ne.symm hne) p (hpred p x hp he)
    rw [heq, headOf_eq h.disjoint hI hpI]
  · -- nodes are admitted after their predecessors
    refine Subrelation.wf (r := InvImage (· < ·) order.idxOf) ?_ (InvImage.wf _ Nat.lt_wfRel.wf)
    intro a b hab
    obtain ⟨ha, he, hne⟩ := hab
    have hb : b ∈ order := h.covers hdone (ha.tail he)
    obtain ⟨before, after, hsplit⟩ := List.append_of_mem hb
    have hheader : ∀ I ∈ s.intervals, I.header ≠ b := by
      intro I hI heq
      refine hne ?_
      rw [headOf_eq h.disjoint hI (heq ▸ h.header_mem I hI), heq]
    have hbefore := h.closed before b after hsplit hheader a (hpred a b ha he)
    have hnodup := h.nodup
    rw [hsplit] at hnodup
    have hbnot : b ∉ before := fun hmem => (List.nodup_append.mp hnodup).2.2 b hmem b mem_cons_self rfl
    change order.idxOf a < order.idxOf b
    rw [hsplit, List.idxOf_append_of_mem hbefore, List.idxOf_append_of_notMem hbnot, List.idxOf_cons_self, Nat.add_zero]
    exact List.idxOf_lt_length_of_mem hbefore
  · obtain ⟨I, hI, hxI, heq⟩ := hat x hx
    have hIx : I.header = x := heq.symm.trans hhead
    rcases h.entered I hI with hroot | ⟨J, hJ, _, ⟨b, hb, hsucc⟩, p, hp, hpJ⟩
    · exact absurd (hIx.symm.trans hroot) hne
    · rw [hIx] at hsucc hp
      have hbreach := hmem J hJ b hb
      obtain ⟨hplive, hpsucc⟩ := (mem_livePredecessors hg hlive ((hreach x).mpr hx)).mp hp
      have hpreach := (hreach p).mp hplive
      have hedge : ∀ q, ReflTransGen v.Edge v.root q → x ∈ v.successors q → v.Edge q x := fun q hq hs =>
        ⟨hg.nodeIds_lt q (hlive.mem_nodeIds q ((hreach q).mpr hq)), hs⟩
      refine ⟨b, p, hbreach, hpreach, hedge b hbreach hsucc, hedge p hpreach hpsucc, fun hsame => hpJ ?_⟩
      obtain ⟨K, hK, hpK, hheadp⟩ := hat p hpreach
      rw [headOf_eq h.disjoint hJ hb, hheadp] at hsame
      rw [interval_unique h.disjoint hJ hK (h.header_mem J hJ) (hsame ▸ h.header_mem K hK)]
      exact hpK

theorem IntervalPartition.mem_iff (h : IntervalPartition v intervals) (hI : I ∈ intervals) (x : Nat) :
    x ∈ I.blocks ↔ ReflTransGen v.Edge v.root x ∧ headOf intervals x = I.header := by
  constructor
  · intro hx
    exact ⟨(h.covered x).mpr ⟨I, hI, hx⟩, headOf_eq h.disjoint hI hx⟩
  · intro ⟨hx, hhead⟩
    obtain ⟨J, hJ, hxJ⟩ := (h.covered x).mp hx
    rw [headOf_eq h.disjoint hJ hxJ] at hhead
    have hheader := h.header_mem J hJ
    rw [hhead] at hheader
    rw [interval_unique h.disjoint hI hJ (h.header_mem I hI) hheader]
    exact hxJ

theorem floodedFrom (hg : v.Lawful) (hroot : v.root ∈ v.nodeIds)
    (hreach : ∀ n, live n = true ↔ ReflTransGen v.Edge v.root n) : FloodedFrom v.toGraphView live v.root := by
  have hnodes : ∀ n, live n = true → n ∈ v.nodeIds := by
    intro n hn
    have hto := (hreach n).mp hn
    induction hto with
    | refl => exact hroot
    | tail hto he ih => exact hg.successors_live _ (ih ((hreach _).mpr hto)) _ he.2
  refine ⟨⟨hnodes, fun n hn m hm => ?_⟩, fun x hx hne => ?_⟩
  · exact (hreach m).mpr (((hreach n).mp hn).tail ⟨hg.nodeIds_lt n (hnodes n hn), hm⟩)
  · obtain hx | ⟨p, hp, he⟩ := ((hreach x).mp hx).cases_tail
    · exact absurd hx hne
    · exact ⟨p, (hreach p).mpr hp, he.2⟩

theorem Parts.init (hlive : FloodedFrom v.toGraphView live v.root) (hroot : live v.root = true) :
    Parts v.toGraphView live v.root []
      ⟨fun n => if n ∈ v.nodeIds then (v.predecessors n).countP live else 0, fun _ => false, [v.root], []⟩ := by
  refine ⟨fun n => by simp, List.nodup_nil, fun n => by simp, fun n hn => ?_, fun I hI => ?_, List.Pairwise.nil,
    fun I hI => ?_, fun before x after hsplit => ?_, fun x hx _ => ?_, fun n hn => ?_, fun I hI => ?_,
    fun a ha => ?_, Or.inl ⟨rfl, rfl⟩⟩
  · cases hn
  · cases hI
  · cases hI
  · exact absurd hsplit (by simp)
  · change (if x ∈ v.nodeIds then _ else 0) = _
    rw [if_pos (hlive.mem_nodeIds x hx), livePredecessors, List.countP_eq_length_filter]
  · rw [mem_singleton.mp hn]
    exact ⟨hroot, Or.inl rfl⟩
  · cases hI
  · cases ha

theorem Parts.partition (hg : v.Lawful) (hlive : LiveNodes v.toGraphView live)
    (hreach : ∀ n, live n = true ↔ ReflTransGen v.Edge v.root n) (h : Parts v.toGraphView live v.root order s)
    (hdone : s.headers = []) : IntervalPartition v s.intervals := by
  have hint := h.isIntervals hg hlive hreach hdone
  have hmem : ∀ I ∈ s.intervals, ∀ x ∈ I.blocks, ReflTransGen v.Edge v.root x := fun I hI x hx =>
    (hreach x).mp (h.reached x ((h.covered x).mpr ⟨I, hI, hx⟩))
  have hin : ∀ x, ReflTransGen v.Edge v.root x → ∃ I ∈ s.intervals, x ∈ I.blocks := fun x hx =>
    (h.covered x).mp (h.covers hdone hx)
  have hinside : ∀ I ∈ s.intervals, ∀ x ∈ I.blocks, x ≠ I.header →
      ∀ p, ReflTransGen v.Edge v.root p → v.Edge p x → p ∈ I.blocks := by
    intro I hI x hx hne p hp he
    refine h.inside I hI x hx hne p ?_
    exact (mem_livePredecessors hg hlive ((hreach x).mpr (hp.tail he))).mpr ⟨(hreach p).mpr hp, he.2⟩
  have hfirst : ∃ I rest, s.intervals = I :: rest ∧ I.header = v.root := by
    rcases h.start with ⟨_, hroot⟩ | hstart
    · rw [hroot] at hdone
      cases hdone
    · exact hstart
  have hentered : ∀ I ∈ s.intervals, I.header ≠ v.root → ∃ J ∈ s.intervals, ∃ K ∈ s.intervals, J ≠ K ∧
      (∃ p ∈ J.blocks, v.Edge p I.header) ∧ ∃ q ∈ K.blocks, v.Edge q I.header := by
    intro I hI hne
    have hheader := h.header_mem I hI
    obtain ⟨p, q, hp, hq, hep, heq, hpq⟩ :=
      hint.entered I.header (hmem I hI _ hheader) (headOf_eq h.disjoint hI hheader) hne
    obtain ⟨J, hJ, hpJ⟩ := hin p hp
    obtain ⟨K, hK, hqK⟩ := hin q hq
    refine ⟨J, hJ, K, hK, fun hJK => hpq ?_, ⟨p, hpJ, hep⟩, q, hqK, heq⟩
    rw [headOf_eq h.disjoint hJ hpJ, headOf_eq h.disjoint hK hqK, hJK]
  refine ⟨h.disjoint, fun n => ⟨hin n, fun ⟨I, hI, hn⟩ => hmem I hI n hn⟩, hfirst, h.header_mem, hinside,
    fun I hI x hx => ?_, fun I hI p hp hpin => ?_, hentered, fun I hI J hJ hne x hx hxroot => ?_⟩
  · rw [← headOf_eq h.disjoint hI hx]
    exact hint.dominates x
  · refine hint.header_mem_cycle hp fun y hy => ?_
    exact ⟨hmem I hI y (hpin y hy), headOf_eq h.disjoint hI (hpin y hy)⟩
  · by_cases hheader : x = J.header
    · -- of two intervals that the header is entered from, one is not `I`
      subst hheader
      obtain ⟨K, hK, L, hL, hKL, ⟨p, hp, hep⟩, q, hq, heq⟩ := hentered J hJ hxroot
      by_cases hpI : p ∈ I.blocks
      · refine ⟨q, hmem L hL q hq, heq, fun hqI => hKL ?_⟩
        rw [interval_unique h.disjoint hK hI hp hpI, interval_unique h.disjoint hL hI hq hqI]
      · exact ⟨p, hmem K hK p hp, hep, hpI⟩
    · obtain hroot | ⟨p, hp, he⟩ := (hmem J hJ x hx).cases_tail
      · exact absurd hroot hxroot
      · refine ⟨p, hp, he, fun hpI => hne ?_⟩
        exact interval_unique h.disjoint hI hJ hpI (hinside J hJ x hx hheader p hp he)

theorem computeIntervals_spec (hg : v.Lawful) (hroot : v.root ∈ v.nodeIds) :
    ∃ N intervals, (∀ fuel, N ≤ fuel → computeIntervals fuel v = some intervals) ∧
      IntervalPartition v intervals ∧ IsIntervals v.Edge v.root (headOf intervals) := by
  have hlt := hg.nodeIds_lt v.root hroot
  have hseeds : ∀ seed ∈ [v.root], seed < v.nodeBound := by
    intro seed hseed
    rw [mem_singleton.mp hseed]
    exact hlt
  obtain ⟨live, hlive, hmarked⟩ := reachable_spec hg hseeds .outgoing
  have hreach : ∀ n, live n = true ↔ ReflTransGen v.Edge v.root n := by
    intro n
    rw [hmarked]
    constructor
    · intro ⟨seed, hseed, hto⟩
      rw [mem_singleton.mp hseed] at hto
      clear hseed
      have hbound : n < v.nodeBound ∧ ReflTransGen v.Edge v.root n := by
        induction hto with
        | refl => exact ⟨hlt, .refl⟩
        | tail _ he ih => exact ⟨hg.successors_lt _ _ ih.1 he, ih.2.tail ⟨ih.1, he⟩⟩
      exact hbound.2
    · intro hto
      exact ⟨v.root, List.mem_singleton_self _, ReflTransGen.mono (fun _ _ he => he.2) _ _ hto⟩
  have hflood := floodedFrom hg hroot hreach
  have hwf : WellFounded (Prod.Lex (· < ·) (· < ·) : Nat × Nat → Nat × Nat → Prop) :=
    WellFounded.prod_lex Nat.lt_wfRel.wf Nat.lt_wfRel.wf
  have hinit : ∃ order, Parts v.toGraphView live v.root order
      ⟨fun n => if n ∈ v.nodeIds then (v.predecessors n).countP live else 0, fun _ => false, [v.root], []⟩ :=
    ⟨[], Parts.init hflood ((hreach _).mpr .refl)⟩
  obtain ⟨N, s, hrun, ⟨order, hparts⟩, hexit⟩ := iterate_terminates
    (I := fun s => ∃ order, Parts v.toGraphView live v.root order s) hwf (μ := Partitioning.size v.toGraphView)
    (fun s s' ⟨order, h⟩ hstep => h.step hg hflood hstep) hinit
  have hdone : s.headers = [] := by
    unfold Partitioning.step at hexit
    split at hexit
    · assumption
    · split at hexit <;> cases hexit
  refine ⟨N, s.intervals, fun fuel hfuel => ?_, hparts.partition hg hflood.toLiveNodes hreach hdone,
    hparts.isIntervals hg hflood.toLiveNodes hreach hdone⟩
  unfold computeIntervals
  rw [if_neg (by omega), hlive]
  exact congrArg (fun s : Partitioning => some s.intervals) (hrun fuel hfuel)

theorem IntervalPartition.mem_of_headOf (h : IntervalPartition v intervals) (h' : IntervalPartition v' intervals')
    (hreach : ∀ x, ReflTransGen v'.Edge v'.root x ↔ ReflTransGen v.Edge v.root x)
    (hhead : ∀ x, ReflTransGen v.Edge v.root x → headOf intervals x = headOf intervals' x)
    (hI : I ∈ intervals) : I ∈ intervals' := by
  obtain ⟨hx, heq⟩ := (h.mem_iff hI I.header).mp (h.header_mem I hI)
  obtain ⟨J, hJ, hmem⟩ := (h'.covered I.header).mp ((hreach _).mpr hx)
  have hheader : I.header = J.header := by
    rw [← headOf_eq h'.disjoint hJ hmem, ← hhead _ hx, heq]
  have hblocks : I.blocks = J.blocks := by
    ext x
    rw [h.mem_iff hI, h'.mem_iff hJ, hreach, hheader]
    constructor
    · intro ⟨hx, heq⟩
      exact ⟨hx, (hhead x hx).symm.trans heq⟩
    · intro ⟨hx, heq⟩
      exact ⟨hx, (hhead x hx).trans heq⟩
  have hIJ : I = J := by
    cases I
    cases J
    cases hheader
    cases hblocks
    rfl
  rw [hIJ]
  exact hJ

/-- The analysis partitions the nodes that the root reaches into intervals, the same ones for every
graph with the same edges. -/
theorem computeIntervals_partition (hg : v.Lawful) (hroot : v.root ∈ v.nodeIds) :
    ∃ N intervals, (∀ fuel, N ≤ fuel → computeIntervals fuel v = some intervals) ∧
      IntervalPartition v intervals ∧
      ∀ v' : RootedView, v'.Lawful → v'.root ∈ v'.nodeIds → v'.root = v.root →
        (∀ a b, v'.Edge a b ↔ v.Edge a b) →
          ∃ N' intervals', (∀ fuel, N' ≤ fuel → computeIntervals fuel v' = some intervals') ∧
            ∀ I, I ∈ intervals' ↔ I ∈ intervals := by
  obtain ⟨N, intervals, hrun, hpart, hint⟩ := computeIntervals_spec hg hroot
  refine ⟨N, intervals, hrun, hpart, fun v' hg' hroot' heq hedges => ?_⟩
  obtain ⟨N', intervals', hrun', hpart', hint'⟩ := computeIntervals_spec hg' hroot'
  have hedge : v'.Edge = v.Edge := funext fun a => funext fun b => propext (hedges a b)
  have hreach : ∀ x, ReflTransGen v'.Edge v'.root x ↔ ReflTransGen v.Edge v.root x := by
    intro x
    rw [hedge, heq]
  have hhead : ∀ x, ReflTransGen v.Edge v.root x → headOf intervals x = headOf intervals' x := by
    intro x hx
    rw [hedge, heq] at hint'
    exact hint.unique hint' hx
  refine ⟨N', intervals', hrun', fun I => ⟨fun hI => ?_, fun hI => ?_⟩⟩
  · refine hpart'.mem_of_headOf hpart (fun x => (hreach x).symm) (fun x hx => ?_) hI
    exact (hhead x ((hreach x).mp hx)).symm
  · exact hpart.mem_of_headOf hpart' hreach hhead hI

/-- A loop with two entries, one of them by parallel edges, and a self-loop. -/
def intervalView : RootedView := ⟨.ofEdges 5 [0, 1, 2, 3] [(0, 1), (0, 2), (0, 2), (1, 2), (2, 1), (1, 3), (3, 3)], 0⟩

theorem intervalView_lawful : intervalView.Lawful :=
  GraphView.lawful_ofEdges (by decide) (by decide) (by decide)

theorem computeIntervals_partition_intervalView :
    ∃ N intervals, (∀ fuel, N ≤ fuel → computeIntervals fuel intervalView = some intervals) ∧
      IntervalPartition intervalView intervals ∧
      ∀ v' : RootedView, v'.Lawful → v'.root ∈ v'.nodeIds → v'.root = intervalView.root →
        (∀ a b, v'.Edge a b ↔ intervalView.Edge a b) →
          ∃ N' intervals', (∀ fuel, N' ≤ fuel → computeIntervals fuel v' = some intervals') ∧
            ∀ I, I ∈ intervals' ↔ I ∈ intervals :=
  computeIntervals_partition intervalView_lawful (by decide)

end CfgLib
