import CfgLib.Graph.ColdnessRun

/-!
# What the coldness propagation computes

The first loop starts every reachable node at its seed; the second counts the values of
the records.  It gets to its end exactly when every counter has room for what it counts,
and then the classes are the greatest assignment within the bounds.
-/

namespace CfgLib.Coldness

open CfgLib.Lib List
open ColdnessGraph (Link)

variable {g : ColdnessGraph} {links : List Link} {s s' : Propagation}

def HasRoom (g : ColdnessGraph) (links : List Link) : Prop :=
  ∀ (side : Side) (n : Nat), (Tally.ofValues (side.values links g.seed n)).atLeastRare < 2 ^ 32

def countedSlot (g : ColdnessGraph) (links : List Link) (n : Nat) : Slot :=
  if n ∈ g.reachable then
    ⟨g.seed n, .queued, links.any fun link => link.source = n, .ofValues (Side.leaving.values links g.seed n),
      .ofValues (Side.entering.values links g.seed n)⟩
  else .unreached

structure Counted (g : ColdnessGraph) (queue : List Nat) (links : List Link) (s : Propagation) : Prop where
  length : s.slots.length = g.nodeBound
  slots : ∀ n < g.nodeBound, s.slots[n]? = some (countedSlot g links n)
  queue : s.queue = queue
  room : HasRoom g links

variable {queue : List Nat}

variable {g' : ColdnessGraph} {links' : List Link} {k n source : Nat}

theorem Counted.slots_of_mem (hg : g.Lawful) (h : Counted g queue links s)
    (hn : n ∈ g.reachable) : s.slots[n]? = some ⟨g.seed n, .queued, links.any fun link => link.source = n,
      .ofValues (Side.leaving.values links g.seed n), .ofValues (Side.entering.values links g.seed n)⟩ := by
  rw [h.slots n (hg.reachable_lt n hn), countedSlot, if_pos hn]

/-! ## Queueing -/

theorem started (hg : g.Lawful) : ∃ s, g.reachable.foldlM (Propagation.start g)
    ⟨List.replicate g.nodeBound .unreached, []⟩ = some s ∧ Counted g s.queue [] s ∧ s.queue.Nodup ∧
      ∀ n, n ∈ s.queue ↔ n ∈ g.reachable := by
  let slotAfter (done : List Nat) (n : Nat) : Slot :=
    if n ∈ done then ⟨g.seed n, .queued, false, ⟨0, 0⟩, ⟨0, 0⟩⟩ else .unreached
  let Started (done : List Nat) (s : Propagation) : Prop :=
    s.slots.length = g.nodeBound ∧ (∀ n < g.nodeBound, s.slots[n]? = some (slotAfter done n)) ∧
      s.queue.Nodup ∧ ∀ n, n ∈ s.queue ↔ n ∈ done
  suffices hfold : ∃ s, g.reachable.foldlM (Propagation.start g)
      ⟨List.replicate g.nodeBound .unreached, []⟩ = some s ∧ Started g.reachable s by
    obtain ⟨s, hs, hlength, hslots, hnodup, hqueue⟩ := hfold
    exact ⟨s, hs, ⟨hlength, hslots, rfl, fun side n => by simp [Side.values, Tally.ofValues]⟩, hnodup, hqueue⟩
  refine foldlM_option_total (I := Started) ?_ ?_
  · intro done node rest s hsplit ⟨hlength, hslots, hnodup, hqueue⟩
    have hn : node ∈ g.reachable := by
      rw [hsplit]
      exact mem_append_right _ mem_cons_self
    have hlt := hg.reachable_lt node hn
    have hslot := hslots node hlt
    unfold Propagation.start
    rw [hslot, Option.bind_eq_bind, Option.bind_some]
    by_cases hdone : node ∈ done
    · have hkept : ∀ n, n ∈ done ++ [node] ↔ n ∈ done := by
        intro n
        rw [mem_append, mem_singleton, or_iff_left_of_imp]
        rintro rfl
        exact hdone
      refine ⟨s, if_neg ?_, hlength, fun n hlt => ?_, hnodup, fun n => ?_⟩
      · simp only [slotAfter, if_pos hdone]
        decide
      · rw [hslots n hlt]
        simp only [slotAfter, hkept]
      · rw [hqueue, hkept]
    · have hfresh : slotAfter done node = .unreached := if_neg hdone
      rw [hfresh]
      refine ⟨_, if_pos rfl, length_set.trans hlength, fun n hlt => ?_, ?_, fun n => ?_⟩
      · rw [set_slots hslot]
        split
        · next heq =>
          rw [heq]
          simp [slotAfter, Slot.unreached]
        · next hne =>
          rw [hslots n hlt]
          simp [slotAfter, hne]
      · rw [nodup_append]
        refine ⟨hnodup, nodup_singleton node, fun a ha b hb => ?_⟩
        rw [mem_singleton] at hb
        rw [hb]
        exact fun heq => hdone ((hqueue node).mp (heq ▸ ha))
      · simp only [mem_append, hqueue]
  · refine ⟨length_replicate, fun n hlt => ?_, nodup_nil, fun n => Iff.rfl⟩
    rw [getElem?_replicate, if_pos hlt]
    rfl

/-! ## Counting -/

theorem Side.values_concat (side : Side) (links : List Link) (link : Link) (x : Nat → ColdClass) (n : Nat) :
    side.values (links ++ [link]) x n =
      side.values links x n ++ if side.near link = n then [min link.cap (x (side.far link))] else [] := by
  rw [side.values_append]
  congr 1
  unfold Side.values
  by_cases h : side.near link = n <;> simp [h]

theorem ofValues_concat (side : Side) (links : List Link) (link : Link) (x : Nat → ColdClass) (n : Nat) :
    Tally.ofValues (side.values (links ++ [link]) x n) =
      if side.near link = n then .ofValues (min link.cap (x (side.far link)) :: side.values links x n)
      else .ofValues (side.values links x n) := by
  rw [side.values_concat]
  split
  · exact Tally.ofValues_perm (perm_append_singleton _ _)
  · rw [append_nil]

theorem HasRoom.of_append (h : HasRoom g (links ++ links')) : HasRoom g links := by
  intro side n
  refine lt_of_le_of_lt ?_ (h side n)
  rw [side.values_append]
  unfold Tally.ofValues
  rw [countP_append]
  exact Nat.le_add_right _ _

theorem hasRoom_concat (h : HasRoom g links) (link : Link) : HasRoom g (links ++ [link]) ↔
    ∀ side : Side, (Tally.ofValues (min link.cap (g.seed (side.far link)) ::
      side.values links g.seed (side.near link))).atLeastRare < 2 ^ 32 := by
  constructor
  · intro hroom side
    have hnear := hroom side (side.near link)
    rwa [ofValues_concat, if_pos rfl] at hnear
  · intro hnear side n
    rw [ofValues_concat]
    split
    · next heq =>
      rw [← heq]
      exact hnear side
    · exact h side n

theorem countedSlot_concat (hn : n ∈ g.reachable) (link : Link) :
    countedSlot g (links ++ [link]) n = ⟨g.seed n, .queued,
      links.any (fun link => link.source = n) || decide (link.source = n),
      if link.source = n then .ofValues (min link.cap (g.seed link.target) :: Side.leaving.values links g.seed n)
        else .ofValues (Side.leaving.values links g.seed n),
      if link.target = n then .ofValues (min link.cap (g.seed link.source) :: Side.entering.values links g.seed n)
        else .ofValues (Side.entering.values links g.seed n)⟩ := by
  rw [countedSlot, if_pos hn, ofValues_concat, ofValues_concat]
  simp only [any_append, any_cons, any_nil, Bool.or_false]
  rfl

theorem count_spec (hg : g.Lawful) (h : Counted g queue links s)
    (hs : source ∈ g.reachable) {r : Nat × ColdClass} (ht : r.1 ∈ g.reachable) :
    (HasRoom g (links ++ [⟨source, r.1, r.2⟩]) → ∃ s', Propagation.count source (g.seed source) s r = some s' ∧
      Counted g queue (links ++ [⟨source, r.1, r.2⟩]) s') ∧
    ∀ s', Propagation.count source (g.seed source) s r = some s' → HasRoom g (links ++ [⟨source, r.1, r.2⟩]) := by
  generalize hlink : (⟨source, r.1, r.2⟩ : Link) = link
  have hsource := h.slots_of_mem hg hs
  have htarget := h.slots_of_mem hg ht
  generalize hA : Tally.ofValues (min r.2 (g.seed r.1) :: Side.leaving.values links g.seed source) = A
  generalize hB : Tally.ofValues (min r.2 (g.seed source) :: Side.entering.values links g.seed r.1) = B
  have hroom : HasRoom g (links ++ [link]) ↔ A.atLeastRare < 2 ^ 32 ∧ B.atLeastRare < 2 ^ 32 := by
    rw [hasRoom_concat h.room, ← hA, ← hB, ← hlink]
    exact ⟨fun hall => ⟨hall .leaving, hall .entering⟩, fun hall side => by
      cases side
      · exact hall.1
      · exact hall.2⟩
  have hcount : Propagation.count source (g.seed source) s r =
      (if A.atLeastRare < 2 ^ 32 then some A else none).bind fun leaving =>
        ((s.slots.set source ⟨g.seed source, .queued, true, leaving,
          .ofValues (Side.entering.values links g.seed source)⟩)[r.1]?).bind fun target =>
            (target.entering.add (min r.2 (g.seed source))).bind fun entering =>
              some { s with slots := (s.slots.set source ⟨g.seed source, .queued, true, leaving,
                .ofValues (Side.entering.values links g.seed source)⟩).set r.1 { target with entering } } := by
    unfold Propagation.count
    rw [htarget, hsource]
    simp only [Option.bind_eq_bind, Option.bind_some]
    rw [Tally.add_ofValues, hA]
  rw [hcount, hroom]
  by_cases hfitsA : A.atLeastRare < 2 ^ 32
  · rw [if_pos hfitsA, Option.bind_some]
    generalize hmid : s.slots.set source ⟨g.seed source, .queued, true, A,
      .ofValues (Side.entering.values links g.seed source)⟩ = mid
    have hmidAt : ∀ n : Nat, mid[n]? = if n = source then some ⟨g.seed source, .queued, true, A,
        .ofValues (Side.entering.values links g.seed source)⟩ else s.slots[n]? := by
      intro n
      rw [← hmid]
      exact set_slots hsource n
    obtain ⟨target, htargetAt, hentering⟩ : ∃ target, mid[r.1]? = some target ∧
        target.entering = .ofValues (Side.entering.values links g.seed r.1) := by
      rw [hmidAt]
      split
      · next heq =>
        rw [heq]
        exact ⟨_, rfl, rfl⟩
      · exact ⟨_, htarget, rfl⟩
    rw [htargetAt, Option.bind_some, hentering, Tally.add_ofValues, hB]
    by_cases hfitsB : B.atLeastRare < 2 ^ 32
    · rw [if_pos hfitsB, Option.bind_some]
      refine ⟨fun _ => ⟨_, rfl, ?_, fun n hlt => ?_, h.queue, hroom.mpr ⟨hfitsA, hfitsB⟩⟩,
        fun _ _ => ⟨hfitsA, hfitsB⟩⟩
      · rw [length_set, ← hmid, length_set]
        exact h.length
      · have hslotAt : ∀ m : Nat, (mid.set r.1 { target with entering := B })[m]? =
            if m = r.1 then some { target with entering := B } else mid[m]? := by
          intro m
          have hltr := (List.getElem?_eq_some_iff.mp htargetAt).1
          rw [getElem?_set]
          by_cases hm : r.1 = m
          · rw [if_pos hm, if_pos hltr, if_pos hm.symm]
          · rw [if_neg hm, if_neg (Ne.symm hm)]
        rw [hslotAt]
        by_cases hn : n ∈ g.reachable
        · rw [countedSlot_concat hn, ← hlink]
          by_cases htar : n = r.1
          · subst htar
            rw [if_pos rfl]
            rw [hmidAt] at htargetAt
            by_cases hsrc : r.1 = source
            · subst hsrc
              rw [if_pos rfl] at htargetAt
              cases htargetAt
              simp [hA, hB]
            · rw [if_neg hsrc, htarget] at htargetAt
              cases htargetAt
              simp [hB, Ne.symm hsrc]
          · rw [if_neg htar, hmidAt]
            by_cases hsrc : n = source
            · subst hsrc
              simp [hA, Ne.symm htar]
            · rw [if_neg hsrc, h.slots_of_mem hg hn]
              simp [Ne.symm htar, Ne.symm hsrc]
        · have hne : n ≠ r.1 := fun heq => hn (heq ▸ ht)
          have hne' : n ≠ source := fun heq => hn (heq ▸ hs)
          rw [if_neg hne, hmidAt, if_neg hne', h.slots n hlt, countedSlot, if_neg hn, countedSlot, if_neg hn]
    · rw [if_neg hfitsB]
      exact ⟨fun hall => absurd hall.2 hfitsB, fun s' hs' => by cases hs'⟩
  · rw [if_neg hfitsA]
    exact ⟨fun hall => absurd hall.1 hfitsA, fun s' hs' => by cases hs'⟩

theorem countRecords_spec (hg : g.Lawful) (h : Counted g queue links s) (hs : source ∈ g.reachable) :
    (HasRoom g (links ++ g.linksOf source) → ∃ s', Propagation.countRecords g s source = some s' ∧
      Counted g queue (links ++ g.linksOf source) s') ∧
    ∀ s', Propagation.countRecords g s source = some s' → Counted g queue (links ++ g.linksOf source) s' := by
  let counted (done : List (Nat × ColdClass)) : List Link := links ++ done.map fun r => ⟨source, r.1, r.2⟩
  have hconcat : ∀ done r, counted (done ++ [r]) = counted done ++ [⟨source, r.1, r.2⟩] := by
    intro done r
    simp only [counted, map_append, map_singleton, append_assoc]
  have hnil : counted [] = links := append_nil links
  have hrun : Propagation.countRecords g s source =
      (g.records source).foldlM (Propagation.count source (g.seed source)) s := by
    unfold Propagation.countRecords
    rw [h.slots_of_mem hg hs]
    rfl
  rw [hrun]
  constructor
  · intro hroom
    refine foldlM_option_total (I := fun done s => Counted g queue (counted done) s) ?_ (hnil ▸ h)
    intro done r rest s hsplit hdone
    have hr : r ∈ g.records source := by
      rw [hsplit]
      exact mem_append_right _ mem_cons_self
    have hcut : g.linksOf source = (done ++ [r]).map (fun r => ⟨source, r.1, r.2⟩) ++
        rest.map fun r => ⟨source, r.1, r.2⟩ := by
      rw [ColdnessGraph.linksOf, hsplit, ← map_append, append_assoc]
      rfl
    rw [hcut, ← append_assoc] at hroom
    have hnext : HasRoom g (counted (done ++ [r])) := hroom.of_append
    rw [hconcat] at hnext ⊢
    exact (count_spec hg hdone hs (target_reachable hg hs hr)).1 hnext
  · intro s' hs'
    have hinv := foldlM_option (I := fun done s => done <+: g.records source → Counted g queue (counted done) s)
      ?_ (fun _ => hnil ▸ h) hs'
    · exact hinv (prefix_refl _)
    · intro done r s₀ s₁ hdone hstep hsub
      have hr : r ∈ g.records source := hsub.subset (mem_append_right _ (mem_singleton_self r))
      have hprev := hdone ((prefix_append done [r]).trans hsub)
      have hspec := count_spec hg hprev hs (target_reachable hg hs hr)
      obtain ⟨s₂, hs₂, hcounted⟩ := hspec.1 (hspec.2 s₁ hstep)
      rw [hstep] at hs₂
      cases hs₂
      rw [hconcat]
      exact hcounted

theorem countAll_spec (hg : g.Lawful) (h : Counted g queue [] s) (hqueue : ∀ n ∈ queue, n ∈ g.reachable) :
    (HasRoom g (queue.flatMap g.linksOf) → ∃ s', queue.foldlM (Propagation.countRecords g) s = some s' ∧
      Counted g queue (queue.flatMap g.linksOf) s') ∧
    ∀ s', queue.foldlM (Propagation.countRecords g) s = some s' → Counted g queue (queue.flatMap g.linksOf) s' := by
  have hconcat : ∀ done source, (done ++ [source]).flatMap g.linksOf = done.flatMap g.linksOf ++ g.linksOf source := by
    intro done source
    rw [flatMap_append, flatMap_singleton]
  constructor
  · intro hroom
    refine foldlM_option_total (I := fun done s => Counted g queue (done.flatMap g.linksOf) s) ?_ h
    intro done source rest s hsplit hdone
    have hs : source ∈ g.reachable := by
      apply hqueue
      rw [hsplit]
      exact mem_append_right _ mem_cons_self
    have hcut : queue.flatMap g.linksOf =
        done.flatMap g.linksOf ++ g.linksOf source ++ rest.flatMap g.linksOf := by
      rw [hsplit, flatMap_append, flatMap_cons, append_assoc]
    rw [hcut] at hroom
    rw [hconcat]
    exact (countRecords_spec hg hdone hs).1 hroom.of_append
  · intro s' hs'
    have hinv := foldlM_option (I := fun done s => done <+: queue → Counted g queue (done.flatMap g.linksOf) s)
      ?_ (fun _ => h) hs'
    · exact hinv (prefix_refl _)
    · intro done source s₀ s₁ hdone hstep hsub
      have hs : source ∈ g.reachable := hqueue source (hsub.subset (mem_append_right _ (mem_singleton_self _)))
      have hprev := hdone ((prefix_append done [source]).trans hsub)
      rw [hconcat]
      exact (countRecords_spec hg hprev hs).2 s₁ hstep

/-! ## What is known at the start -/

theorem classOf_counted (hg : g.Lawful) (h : Counted g queue links s) (n : Nat) :
    classOf s n = if n ∈ g.reachable then g.seed n else .never := by
  by_cases hn : n ∈ g.reachable
  · rw [if_pos hn, classOf_eq (h.slots_of_mem hg hn)]
  · rw [if_neg hn, classOf]
    by_cases hlt : n < g.nodeBound
    · rw [h.slots n hlt, countedSlot, if_neg hn]
      rfl
    · rw [getElem?_eq_none (by rw [h.length]; omega)]
      rfl

theorem Side.values_congr (hg : g.Lawful) (side : Side) {x y : Nat → ColdClass}
    (h : ∀ n ∈ g.reachable, x n = y n) (n : Nat) : side.values g.links x n = side.values g.links y n := by
  unfold Side.values
  refine map_congr_left fun link hlink => ?_
  obtain ⟨hs, hr⟩ := mem_links.mp (mem_filter.mp hlink).1
  have hfar : side.far link ∈ g.reachable := by
    cases side with
    | leaving => exact target_reachable hg hs hr
    | entering => exact hs
  rw [h _ hfar]

theorem Counted.propagating (hg : g.Lawful) (hqueue : ∀ n, n ∈ queue ↔ n ∈ g.reachable)
    (hlinks : links.Perm g.links) (h : Counted g queue links s) : Propagating g s := by
  have hclass := classOf_counted hg h
  have hslot : ∀ (n : Nat) slot, s.slots[n]? = some slot → slot = countedSlot g links n := by
    intro n slot hat
    have hlt := (List.getElem?_eq_some_iff.mp hat).1
    rw [h.length] at hlt
    rw [h.slots n hlt] at hat
    cases hat
    rfl
  refine ⟨⟨h.length, ?_, ?_, ?_, ?_⟩, ?_, ?_, ?_, ?_, ?_⟩
  · intro n slot hat
    rw [hslot n slot hat, countedSlot]
    split
    · next hn => exact iff_of_true (fun hm => by cases hm) hn
    · next hn => exact iff_of_false (fun hm => hm rfl) hn
  · intro n slot hat hm
    rw [h.queue, hqueue]
    rw [hslot n slot hat, countedSlot] at hm
    split at hm
    · assumption
    · cases hm
  · intro n hn
    rw [h.queue] at hn
    exact (hqueue n).mp hn
  · intro n hn slot hat
    rw [hslot n slot hat, countedSlot, if_pos hn, Bool.eq_iff_iff, any_eq_true]
    simp only [decide_eq_true_eq, hlinks.mem_iff, mem_links]
    constructor
    · intro ⟨link, ⟨_, hr⟩, heq⟩ hnil
      rw [heq, hnil] at hr
      cases hr
    · intro hne
      obtain ⟨r, hr⟩ := exists_mem_of_ne_nil _ hne
      exact ⟨⟨n, r.1, r.2⟩, ⟨hn, hr⟩, rfl⟩
  · intro side n hn slot hat
    have hvalues : side.values g.links (classOf s) n = side.values g.links g.seed n :=
      side.values_congr hg (fun m hm => by rw [hclass, if_pos hm]) n
    have htally : slot.tally side = .ofValues (side.values links g.seed n) := by
      rw [hslot n slot hat, countedSlot, if_pos hn]
      cases side <;> rfl
    rw [hvalues, htally]
    exact ⟨Tally.ofValues_perm (side.values_perm hlinks _ _), h.room side n⟩
  · intro n hn
    rw [hclass, if_pos hn]
  · intro n hn
    rw [hclass, if_neg hn]
  · intro n slot hat hm
    rw [hslot n slot hat, countedSlot] at hm
    split at hm <;> cases hm
  · intro y hy n
    have hbound := hy n
    rw [hclass]
    unfold ColdnessGraph.bound at hbound
    split at hbound
    · next hn =>
      rw [if_pos hn]
      exact hbound.trans (min_le_left _ _)
    · next hn =>
      rw [if_neg hn]
      exact hbound

theorem hasRoom_perm (h : links.Perm links') : HasRoom g links ↔ HasRoom g links' := by
  unfold HasRoom
  refine forall_congr' fun side => forall_congr' fun n => ?_
  rw [Tally.ofValues_perm (side.values_perm h g.seed n)]

theorem new_spec (hg : g.Lawful) : (g.Fits → ∃ s, Propagation.new g = some s ∧ Propagating g s) ∧
    ∀ s, Propagation.new g = some s → g.Fits ∧ Propagating g s := by
  obtain ⟨s₀, hs₀, hcounted, hnodup, hqueue⟩ := started hg
  have hlinks : (s₀.queue.flatMap g.linksOf).Perm g.links := by
    refine List.Perm.flatMap_right _ ?_
    rw [perm_ext_iff_of_nodup hnodup (nodup_dedup _)]
    intro n
    rw [hqueue, mem_dedup]
  obtain ⟨htotal, hsome⟩ := countAll_spec hg hcounted fun n hn => (hqueue n).mp hn
  have hnew : Propagation.new g = s₀.queue.foldlM (Propagation.countRecords g) s₀ := by
    unfold Propagation.new
    rw [hs₀]
    rfl
  rw [hnew]
  constructor
  · intro hfits
    obtain ⟨s, hs, h⟩ := htotal ((hasRoom_perm hlinks).mpr hfits)
    exact ⟨s, hs, h.propagating hg hqueue hlinks⟩
  · intro s hs
    have h := hsome s hs
    exact ⟨(hasRoom_perm hlinks).mp h.room, h.propagating hg hqueue hlinks⟩

/-! ## The greatest assignment -/

structure SameInput (g g' : ColdnessGraph) : Prop where
  entry : g'.entry = g.entry
  reachable : ∀ n, n ∈ g'.reachable ↔ n ∈ g.reachable
  records : ∀ n ∈ g.reachable, ∀ r, r ∈ g'.records n ↔ r ∈ g.records n
  seed : ∀ n ∈ g.reachable, g'.seed n = g.seed n
  ends : ∀ n ∈ g.reachable, g'.ends n = g.ends n

theorem SameInput.mem_links (h : SameInput g g') (link : Link) :
    link ∈ g'.links ↔ link ∈ g.links := by
  rw [Coldness.mem_links, Coldness.mem_links, h.reachable]
  exact and_congr_right fun hs => h.records _ hs _

theorem hottest_congr {l l' : List ColdClass} (h : ∀ v, v ∈ l ↔ v ∈ l') : hottest l = hottest l' := by
  refine eq_of_forall_le_iff fun x => ?_
  simp only [le_hottest_iff, h]

theorem SameInput.bound_eq (h : SameInput g g') : g'.bound = g.bound := by
  funext x n
  have hvalues : ∀ side : Side, hottest (side.values g'.links x n) = hottest (side.values g.links x n) := by
    intro side
    refine hottest_congr fun v => ?_
    unfold Side.values
    simp only [mem_map, mem_filter, h.mem_links]
  unfold ColdnessGraph.bound
  by_cases hn : n ∈ g.reachable
  · have hempty : g'.records n = [] ↔ g.records n = [] := by
      simp only [eq_nil_iff_forall_not_mem, h.records n hn]
    rw [if_pos hn, if_pos ((h.reachable n).mpr hn), h.seed n hn]
    unfold ColdnessGraph.recordBound ColdnessGraph.lift
    simp only [hvalues, h.entry, h.ends n hn, hempty]
  · rw [if_neg hn, if_neg fun hc => hn ((h.reachable n).mp hc)]

theorem coldClass_map (s : Propagation) : coldClass (s.slots.map Slot.cls) = classOf s := by
  funext n
  rw [coldClass, getElem?_map, classOf]

theorem compute_of_fits (hg : g.Lawful) (hfits : g.Fits) : ∃ N classes,
    (∀ fuel, N ≤ fuel → g.compute fuel = some classes) ∧
      IsGreatest {x | MeetsBounds g.bound x} (coldClass classes) := by
  obtain ⟨s₀, hnew, h₀⟩ := (new_spec hg).1 hfits
  obtain ⟨N, s, hrun, h, hdone⟩ := h₀.run hg
  refine ⟨N, s.slots.map Slot.cls, fun fuel hfuel => ?_, ?_⟩
  · unfold ColdnessGraph.compute
    simp only [hnew, hrun fuel hfuel, Option.bind_eq_bind, Option.bind_some]
  · rw [coldClass_map]
    exact h.isGreatest hg hdone

/-- What the propagation promises: it computes the greatest assignment within the bounds, the same
for every order and number of the same records, and throughout every counter holds the counts
of the current values and the next visit goes through. -/
structure ComputesGreatest (g : ColdnessGraph) : Prop where
  classes : ∃ N classes, (∀ fuel, N ≤ fuel → g.compute fuel = some classes) ∧
    IsGreatest {x | MeetsBounds g.bound x} (coldClass classes) ∧
    ∀ g', g'.Lawful → SameInput g g' → g'.Fits → ∃ N' classes',
      (∀ fuel, N' ≤ fuel → g'.compute fuel = some classes') ∧ coldClass classes' = coldClass classes
  counters : ∀ s₀ s, Propagation.new g = some s₀ → Passes g s₀ s → Accurate g s ∧
    ∀ node queue, s.queue = node :: queue → (Propagation.visit g { s with queue } node).isSome

/-- The propagation computes the greatest assignment exactly when every counter has room for the
records that it counts at the start. -/
theorem computesGreatest_iff (hg : g.Lawful) : ComputesGreatest g ↔ g.Fits := by
  constructor
  · intro h
    obtain ⟨N, classes, hcompute, _⟩ := h.classes
    have hsome := hcompute N (Nat.le_refl N)
    unfold ColdnessGraph.compute at hsome
    obtain ⟨s₀, hnew, _⟩ := Option.bind_eq_some_iff.mp hsome
    exact ((new_spec hg).2 s₀ hnew).1
  · intro hfits
    obtain ⟨N, classes, hcompute, hgreatest⟩ := compute_of_fits hg hfits
    refine ⟨⟨N, classes, hcompute, hgreatest, fun g' hg' hsame hfits' => ?_⟩, fun s₀ s hnew hpass => ?_⟩
    · obtain ⟨N', classes', hcompute', hgreatest'⟩ := compute_of_fits hg' hfits'
      rw [hsame.bound_eq] at hgreatest'
      exact ⟨N', classes', hcompute', hgreatest'.unique hgreatest⟩
    · have h := hpass.propagating hg ((new_spec hg).2 s₀ hnew).2
      refine ⟨h.accurate, fun node queue hqueue => ?_⟩
      obtain ⟨s', hvisit, _⟩ := h.visit hg hqueue
      rw [hvisit]
      rfl

/-! ## Parallel records -/

def parallel (k : Nat) : ColdnessGraph where
  nodeBound := 2
  entry := 0
  reachable := [0, 1]
  records n := if n = 0 then List.replicate k (1, .normal) else []
  incoming n := if n = 1 then List.replicate k (0, .normal) else []
  seed _ := .normal
  ends _ := false

theorem parallel_lawful (hk : 0 < k) : (parallel k).Lawful := by
  have hstep : ∀ a b cap, (b, cap) ∈ (parallel k).records a → a = 0 ∧ b = 1 ∧ cap = .normal := by
    intro a b cap h
    simp only [parallel] at h
    split at h
    · next ha =>
      have heq := eq_of_mem_replicate h
      cases heq
      exact ⟨ha, rfl, rfl⟩
    · cases h
  refine ⟨show ∀ n ∈ [0, 1], n < 2 by decide, fun n => ?_, fun n _ r hr => ?_, fun n hn s hs cap => ?_⟩
  · constructor
    · intro hn
      simp only [parallel, mem_cons, not_mem_nil, or_false] at hn
      rcases hn with rfl | rfl
      · exact .refl
      · refine .single ⟨.normal, ?_⟩
        simp only [parallel, if_true]
        exact mem_replicate.mpr ⟨Nat.ne_of_gt hk, rfl⟩
    · intro hpath
      induction hpath with
      | refl => exact mem_cons_self
      | tail _ hlast _ =>
        obtain ⟨cap, hcap⟩ := hlast
        rw [(hstep _ _ _ hcap).2.1]
        exact mem_cons_of_mem _ mem_cons_self
  · simp only [parallel] at hr
    split at hr
    · rw [eq_of_mem_replicate hr]
      exact Nat.zero_lt_two
    · cases hr
  · simp only [parallel, mem_cons, not_mem_nil, or_false] at hn hs ⊢
    rcases hn with rfl | rfl <;> rcases hs with rfl | rfl <;>
      simp [count_replicate]

theorem links_parallel : (parallel k).links = List.replicate k ⟨0, 1, .normal⟩ := by
  have hdedup : (parallel k).reachable.dedup = [0, 1] := show [0, 1].dedup = [0, 1] by decide
  unfold ColdnessGraph.links ColdnessGraph.linksOf
  rw [hdedup]
  simp [parallel]

theorem values_parallel (side : Side) (n : Nat) : side.values (parallel k).links (parallel k).seed n =
    if side.near ⟨0, 1, .normal⟩ = n then List.replicate k .normal else [] := by
  unfold Side.values
  rw [links_parallel, filter_replicate]
  by_cases hn : side.near ⟨0, 1, .normal⟩ = n
  · simp only [hn, decide_true, if_true, map_replicate]
    rfl
  · simp [hn]

theorem fits_parallel : (parallel k).Fits ↔ k < 2 ^ 32 := by
  have hcount : (Tally.ofValues (List.replicate k .normal)).atLeastRare = k := by
    unfold Tally.ofValues
    rw [countP_replicate, if_pos (by decide)]
  constructor
  · intro hfits
    have hzero := hfits .leaving 0
    have hnear : Side.near .leaving ⟨0, 1, .normal⟩ = 0 := rfl
    rwa [values_parallel, if_pos hnear, hcount] at hzero
  · intro hk side n
    rw [values_parallel]
    split
    · rwa [hcount]
    · decide

/-- A graph within the contract whose records the counters have no room for. -/
theorem not_computesGreatest_parallel : (parallel (2 ^ 32)).Lawful ∧ ¬ ComputesGreatest (parallel (2 ^ 32)) := by
  refine ⟨parallel_lawful (by decide), fun h => ?_⟩
  obtain ⟨N, classes, hcompute, _⟩ := h.classes
  have hsome := hcompute N (Nat.le_refl N)
  unfold ColdnessGraph.compute at hsome
  obtain ⟨s₀, hnew, _⟩ := Option.bind_eq_some_iff.mp hsome
  exact Nat.lt_irrefl _ (fits_parallel.mp ((new_spec (parallel_lawful (by decide))).2 s₀ hnew).1)

theorem computesGreatest_iff_parallel : ComputesGreatest (parallel 3) :=
  (computesGreatest_iff (parallel_lawful (by decide))).mpr (fits_parallel.mpr (by decide))

end CfgLib.Coldness
