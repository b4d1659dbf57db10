import CfgLib.Transform.Rotate

/-!
# The rotated loop

What `rotate_loop` of `transform/loops.rs` accepts, and the loop that is left: it is headed
by the first body block and ends with the copy of the old header, unless the header jumps
back to itself.
-/

namespace CfgLib.Transform

open CfgLib.Lib Cfg Relation

variable {ι π : Type} {c c' : Cfg ι π} {lp : NaturalLoop}

/-! ## What is accepted -/

/-- The loop has one latch, and its header has two edges of which one stays in the loop. -/
structure TopTested (c : Cfg ι π) (lp : NaturalLoop) (latch newHeader : Nat) : Prop where
  latches : lp.latches = {latch}
  into : newHeader ∈ c.successors lp.header
  into_mem : newHeader ∈ lp.body
  into_only : ∀ b ∈ c.successors lp.header, b ∈ lp.body → b = newHeader

variable {bottomTest latch newHeader : Nat}

theorem topTested_of_exits {first second : Nat} {r s : Store.EdgeRecord (Edge π)}
    (hlatches : lp.latches = {latch}) (hout : c.outgoing lp.header = [first, second]) (hr : c.edge first = some r)
    (hs : c.edge second = some s) : (r.target ∈ lp.body → s.target ∉ lp.body → TopTested c lp latch r.target) ∧
      (r.target ∉ lp.body → s.target ∈ lp.body → TopTested c lp latch s.target) := by
  have hsuccessors : ∀ b, b ∈ c.successors lp.header ↔ b = r.target ∨ b = s.target := by
    intro b
    have hlist : c.successors lp.header = [r.target, s.target] := by
      simp [successors, hout, hr, hs]
    rw [hlist]
    simp
  constructor
  · intro hin hnot
    refine ⟨hlatches, (hsuccessors _).mpr (Or.inl rfl), hin, fun b hb hmem => ?_⟩
    rcases (hsuccessors b).mp hb with rfl | rfl
    · rfl
    · exact absurd hmem hnot
  · intro hnot hin
    refine ⟨hlatches, (hsuccessors _).mpr (Or.inr rfl), hin, fun b hb hmem => ?_⟩
    rcases (hsuccessors b).mp hb with rfl | rfl
    · exact absurd hmem hnot
    · rfl

theorem rotateLoop_cases {rotation : Option LoopRotation} (hs : rotateLoop c lp = some (rotation, c')) :
    (rotation = none ∧ c' = c) ∨ ∃ latch newHeader, TopTested c lp latch newHeader ∧
      rotateAt c lp.header latch newHeader = some (rotation, c') := by
  unfold rotateLoop at hs
  split at hs
  · next latch first second hsort hout =>
    have hlatches : lp.latches = {latch} := by
      rw [← Finset.sort_toFinset lp.latches (· ≤ ·), hsort]
      rfl
    obtain ⟨r, hr, hs⟩ := Option.bind_eq_some_iff.mp hs
    obtain ⟨s, hs', hs⟩ := Option.bind_eq_some_iff.mp hs
    obtain ⟨hfirst, hsecond⟩ := topTested_of_exits hlatches hout hr hs'
    split at hs
    · cases hs
      exact Or.inl ⟨rfl, rfl⟩
    split at hs
    · next hin hnot => exact Or.inr ⟨latch, _, hfirst (of_decide_eq_true hin) (of_decide_eq_false hnot), hs⟩
    · next hnot hin => exact Or.inr ⟨latch, _, hsecond (of_decide_eq_false hnot) (of_decide_eq_true hin), hs⟩
    · cases hs
      exact Or.inl ⟨rfl, rfl⟩
  · cases hs
    exact Or.inl ⟨rfl, rfl⟩

/-! ## The loop that is left -/

/-- The rotated loop is a loop of the graph: the new header heads it, the copy of the old
header is a latch, and its body is the old one with the copy in the old header's place. -/
def BottomTested (c' : Cfg ι π) (lp : NaturalLoop) (rotation : LoopRotation) : Prop :=
  ∃ rotated : NaturalLoop, rotated.IsMergedLoopOf c'.view ∧ rotated.header = rotation.newHeader ∧
    rotation.bottomTest ∈ rotated.latches ∧ rotated.body = insert rotation.bottomTest (lp.body.erase lp.header)

theorem TopTested.back (h : TopTested c lp latch newHeader) (hl : lp.IsMergedLoopOf c.view) :
    lp.header ∈ c.successors latch := by
  have hmem : latch ∈ lp.latches := by
    rw [h.latches]
    exact Finset.mem_singleton_self latch
  exact (hl.loop.latch latch hmem).1

theorem TopTested.live (h : TopTested c lp latch newHeader) (hc : c.WF)
    (hl : lp.IsMergedLoopOf c.view) : (c.block lp.header).isSome ∧ (c.block latch).isSome := by
  obtain ⟨e, r, hr, rfl, ht⟩ := hc.mem_successors.mp (h.back hl)
  exact ⟨ht ▸ hc.target_live hr, hc.source_live hr⟩

theorem Rotated.rotates (hc : c.WF) (hl : lp.IsMergedLoopOf c.view)
    (htop : TopTested c lp latch newHeader) (h : Rotated c c' lp.header latch bottomTest) (hne : lp.header ∉ lp.latches) :
    Rotates (c.view.Adjacent .outgoing) (c'.view.Adjacent .outgoing) c.entry lp.header latch newHeader bottomTest
      (· ∈ lp.body) := by
  have hsource : ∀ {a b : Nat}, b ∈ c.successors a → a ≠ bottomTest ∧ b ≠ bottomTest := by
    intro a b hb
    obtain ⟨e, r, hr, rfl, rfl⟩ := hc.mem_successors.mp hb
    rw [h.bottomTest_eq]
    exact ⟨Nat.ne_of_lt (block_lt (hc.source_live hr)), Nat.ne_of_lt (block_lt (hc.target_live hr))⟩
  refine ⟨hl.loop.congr (fun a => ?_) fun _ => Iff.rfl, ?_, ?_, htop.into, htop.into_mem, htop.into_only,
    fun a ha => (hsource ha).2 rfl, fun a ha => (hsource ha).1 rfl, ?_, fun a b => h.mem_successors_iff hc (htop.back hl)⟩
  · rw [htop.latches]
    exact Finset.mem_singleton
  · intro a he hreach hdom
    have hmem := hl.all a he hreach hdom
    rw [htop.latches] at hmem
    exact Finset.mem_singleton.mp hmem
  · rintro rfl
    rw [htop.latches] at hne
    exact hne (Finset.mem_singleton_self _)
  · rw [h.bottomTest_eq]
    exact (Nat.ne_of_lt (block_lt hc.entry)).symm

theorem Rotated.bottomTested (hc : c.WF) (hl : lp.IsMergedLoopOf c.view)
    (htop : TopTested c lp latch newHeader) (h : Rotated c c' lp.header latch bottomTest) (hne : lp.header ∉ lp.latches) :
    BottomTested c' lp ⟨newHeader, bottomTest⟩ := by
  obtain ⟨hloop, hall⟩ := (h.rotates hc hl htop hne).isLoop
  have hroot : c'.view.root = c.entry := h.entry
  rw [← hroot] at hloop hall
  have hbody : ∀ b, rotatedBody (· ∈ lp.body) lp.header bottomTest b ↔
      b ∈ insert bottomTest (lp.body.erase lp.header) := by
    intro b
    rw [Finset.mem_insert, Finset.mem_erase, rotatedBody, and_comm]
  have hlatch : ∀ a, Rotates.rotatedLatch (c'.view.Adjacent .outgoing) (· ∈ lp.body) lp.header newHeader bottomTest a ↔
      a ∈ (insert bottomTest (lp.body.erase lp.header)).filter fun a => newHeader ∈ c'.successors a := by
    intro a
    rw [Finset.mem_filter, ← hbody]
    rfl
  refine ⟨⟨newHeader, insert bottomTest (lp.body.erase lp.header),
    (insert bottomTest (lp.body.erase lp.header)).filter fun a => newHeader ∈ c'.successors a, lp.depth⟩,
    ⟨hloop.congr hlatch hbody, fun a he hreach hdom => (hlatch a).mp (hall a he hreach hdom)⟩, rfl, ?_, rfl⟩
  exact (hlatch bottomTest).mp (h.rotates hc hl htop hne).latch_copy

/-- A header that jumps back to itself heads the loop that is left, and so is no guard. -/
theorem TopTested.not_bottomTested (hc : c.WF) (hl : lp.IsMergedLoopOf c.view)
    (htop : TopTested c lp latch newHeader) (hfresh : bottomTest = c.blockBound) (hself : lp.header ∈ lp.latches) :
    ¬ BottomTested c' lp ⟨newHeader, bottomTest⟩ := by
  rintro ⟨rotated, hrotated, hheader, _, hbody⟩
  have hback := (hl.loop.latch lp.header hself).1
  have hsame : lp.header = newHeader := htop.into_only _ hback hl.loop.header_mem
  have hkept : rotated.header = lp.header := hheader.trans hsame.symm
  have hmem : lp.header ∈ rotated.body := by
    rw [← hkept]
    exact hrotated.loop.header_mem
  rw [hbody, Finset.mem_insert, hfresh] at hmem
  rcases hmem with heq | herase
  · obtain ⟨e, r, hr, hs, _⟩ := hc.mem_successors.mp hback
    exact Nat.ne_of_lt (block_lt (hc.source_live hr)) (hs.trans heq)
  · exact Finset.notMem_erase _ _ herase

/-- A rotation keeps the blocks, the edges in order and the walks from the entry, and
leaves a bottom-tested loop exactly when the header is not its own latch; a declined loop
leaves the graph as it is. -/
theorem rotateLoop_bottomTested (hc : c.WF) (hl : lp.IsMergedLoopOf c.view) :
    (∀ c', rotateLoop c lp = some (none, c') → c' = c) ∧
      ∀ rotation c', rotateLoop c lp = some (some rotation, c') → ∃ latch, lp.latches = {latch} ∧
        RotationKeeps c c' lp.header latch rotation.bottomTest ∧
        (∀ blocks, c'.IsWalk blocks → c.IsWalk (blocks.map (unrotate lp.header rotation.bottomTest))) ∧
        (∀ blocks, c.IsWalk blocks →
          ∃ blocks', c'.IsWalk blocks' ∧ blocks'.map (unrotate lp.header rotation.bottomTest) = blocks) ∧
        (BottomTested c' lp rotation ↔ lp.header ∉ lp.latches) := by
  refine ⟨fun c' hs => ?_, fun rotation c' hs => ?_⟩
  · rcases rotateLoop_cases hs with ⟨_, heq⟩ | ⟨latch, newHeader, htop, hrotate⟩
    · exact heq
    · obtain ⟨hlive, hlatch⟩ := htop.live hc hl
      obtain ⟨_, hsome, _⟩ := rotateAt_spec hc hlive hlatch hrotate
      exact absurd hsome.symm (Option.some_ne_none _)
  · rcases rotateLoop_cases hs with ⟨hnone, _⟩ | ⟨latch, newHeader, htop, hrotate⟩
    · exact absurd hnone (Option.some_ne_none _)
    · obtain ⟨hlive, hlatch⟩ := htop.live hc hl
      obtain ⟨bottomTest, hsome, h⟩ := rotateAt_spec hc hlive hlatch hrotate
      obtain rfl := Option.some.inj hsome
      have hkeeps := h.keeps hc (htop.back hl)
      refine ⟨latch, htop.latches, hkeeps, fun blocks => hkeeps.mirrors.isWalk, fun blocks => hkeeps.mirrors.exists_walk, ?_⟩
      constructor
      · exact fun hbottom hself => htop.not_bottomTested hc hl h.bottomTest_eq hself hbottom
      · exact h.bottomTested hc hl htop

/-- A block that tests and jumps back to itself. -/
def selfLoop : Cfg Nat Unit :=
  Cfg.ofParts [[], [7], []] [(0, 1, .fallthrough, ()), (1, 1, .back, ()), (1, 2, .conditionalFalse, ())]

def selfTested : NaturalLoop := ⟨1, {1}, {1}, 0⟩

theorem isMergedLoopOf_selfTested : selfTested.IsMergedLoopOf selfLoop.view := by
  have hedge : ∀ {a : Nat}, selfLoop.view.Adjacent .outgoing a 1 → a < 2 := by
    intro a ha
    by_contra hlt
    obtain ⟨e, r, hr, rfl, ht⟩ := (Cfg.wf_ofParts rfl : selfLoop.WF).mem_successors.mp ha
    have he : e < 3 := edge_lt hr
    match e with
    | 0 =>
      cases hr
      exact hlt (show (0 : Nat) < 2 by decide)
    | 1 =>
      cases hr
      exact hlt (show (1 : Nat) < 2 by decide)
    | 2 =>
      cases hr
      exact hlt (show (1 : Nat) < 2 by decide)
    | _ + 3 => omega
  have hself : 1 ∈ selfLoop.successors 1 := by decide
  have hentry : 1 ∈ selfLoop.successors 0 := by decide
  refine ⟨⟨⟨1, Finset.mem_singleton_self 1⟩, ?_, fun b => ?_⟩, ?_⟩
  · intro a ha
    obtain rfl := Finset.mem_singleton.mp ha
    exact ⟨hself, .single hentry, Dominates.refl _ _ _⟩
  · refine Finset.mem_singleton.trans ⟨Or.inl, ?_⟩
    rintro (rfl | ⟨hne, _, a, ha, hpath⟩)
    · rfl
    · obtain rfl := Finset.mem_singleton.mp ha
      rcases ReflTransGen.cases_tail hpath with heq | ⟨_, _, _, hself⟩
      · exact heq.symm
      · exact absurd rfl hself
  · intro a he _ hdom
    have ha := hedge he
    match a with
    | 0 => exact absurd ⟨by decide, .refl⟩ (dominates_iff_not_avoids.mp hdom)
    | 1 => exact Finset.mem_singleton_self 1
    | _ + 2 => omega

theorem rotateLoop_selfLoop : ∃ c', rotateLoop selfLoop selfTested = some (some ⟨1, 3⟩, c') := by
  have hsort : selfTested.latches.sort = [1] := Finset.sort_singleton _ 1
  unfold rotateLoop
  rw [hsort]
  exact ⟨_, rfl⟩

/-- The header goes to its copy and the copy back to the header, which still runs on every
other iteration. -/
theorem rotateLoop_selfLoop_not_bottomTested : selfLoop.WF ∧ selfTested.IsMergedLoopOf selfLoop.view ∧
    ∃ rotation c', rotateLoop selfLoop selfTested = some (some rotation, c') ∧ ¬ BottomTested c' selfTested rotation := by
  obtain ⟨c', hrotated⟩ := rotateLoop_selfLoop
  refine ⟨Cfg.wf_ofParts rfl, isMergedLoopOf_selfTested, _, c', hrotated, ?_⟩
  have htop : TopTested selfLoop selfTested 1 1 := by
    refine ⟨rfl, by decide, Finset.mem_singleton_self 1, fun b _ hmem => Finset.mem_singleton.mp hmem⟩
  exact htop.not_bottomTested (Cfg.wf_ofParts rfl) isMergedLoopOf_selfTested rfl (Finset.mem_singleton_self 1)

theorem rotateLoop_bottomTested_selfLoop : ∃ rotation c', rotateLoop selfLoop selfTested = some (some rotation, c') ∧
    (∀ blocks, c'.IsWalk blocks → selfLoop.IsWalk (blocks.map (unrotate 1 rotation.bottomTest))) ∧
      (BottomTested c' selfTested rotation ↔ 1 ∉ selfTested.latches) := by
  obtain ⟨c', hrotated⟩ := rotateLoop_selfLoop
  obtain ⟨_, hall⟩ := rotateLoop_bottomTested (Cfg.wf_ofParts rfl) isMergedLoopOf_selfTested
  obtain ⟨_, _, _, hwalks, _, hiff⟩ := hall _ c' hrotated
  exact ⟨_, c', hrotated, hwalks, hiff⟩

end CfgLib.Transform
