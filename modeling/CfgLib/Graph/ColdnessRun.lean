import CfgLib.Graph.Coldness
import CfgLib.Lib.Loop
import Mathlib.Data.List.Perm.Basic

/-!
# The run of the coldness propagation

Throughout the propagation every counter holds the counts of the current values of its
records, every idle node is within its bounds, and no class is below the greatest
assignment.
-/

namespace CfgLib.Coldness

open CfgLib.Lib List Function
open ColdnessGraph (Link)

variable {g : ColdnessGraph}

/-! ## The records of one node -/

theorem mem_links {link : Link} : link ∈ g.links ↔
    link.source ∈ g.reachable ∧ (link.target, link.cap) ∈ g.records link.source := by
  unfold ColdnessGraph.links ColdnessGraph.linksOf
  simp only [mem_flatMap, mem_dedup, mem_map]
  constructor
  · intro ⟨source, hs, r, hr, heq⟩
    subst heq
    exact ⟨hs, hr⟩
  · intro ⟨hs, hr⟩
    exact ⟨link.source, hs, (link.target, link.cap), hr, rfl⟩

theorem target_reachable (hg : g.Lawful) {source target : Nat} {cap : ColdClass} (hs : source ∈ g.reachable)
    (hr : (target, cap) ∈ g.records source) : target ∈ g.reachable :=
  (hg.mem_reachable target).mpr (((hg.mem_reachable source).mp hs).tail ⟨cap, hr⟩)

variable {n : Nat} {slot : Slot}

theorem filter_source (hn : n ∈ g.reachable) :
    (g.links.filter fun link => link.source = n) = g.linksOf n := by
  refine filter_flatMap_of_nodup (nodup_dedup g.reachable) ?_ (mem_dedup.mpr hn)
  intro source _ link hlink
  obtain ⟨r, _, rfl⟩ := mem_map.mp hlink
  rfl

/-- The caps of a node's records among those of a list with the other end `n`. -/
def capsTo (n : Nat) (records : List (Nat × ColdClass)) : List ColdClass :=
  (records.filter fun r => r.1 = n).map Prod.snd

variable {new old : ColdClass} {far node : Nat} {side' : Side}

theorem caps_entering (hfar : far ∈ g.reachable) :
    Side.entering.caps g.links far n = capsTo n (g.records far) := by
  have hsplit : (g.links.filter fun link => Side.near .entering link = n ∧ Side.far .entering link = far) =
      (g.linksOf far).filter fun link => link.target = n := by
    rw [← filter_source hfar, filter_filter]
    exact filter_congr fun link _ => Bool.decide_and _ _
  unfold Side.caps capsTo
  rw [hsplit, ColdnessGraph.linksOf, filter_map, map_map]
  rfl

theorem count_capsTo (n : Nat) (records : List (Nat × ColdClass)) (cap : ColdClass) :
    (capsTo n records).count cap = records.count (n, cap) := by
  unfold capsTo List.count
  rw [countP_map, countP_filter]
  refine countP_congr fun r _ => ?_
  obtain ⟨m, c⟩ := r
  simp only [comp_apply, Bool.and_eq_true, beq_iff_eq, decide_eq_true_eq, Prod.mk.injEq]
  exact and_comm

theorem caps_leaving (hg : g.Lawful) (hfar : far ∈ g.reachable) (hn : n ∈ g.reachable) :
    (Side.leaving.caps g.links far n).Perm (capsTo n (g.incoming far)) := by
  have hsplit : (g.links.filter fun link => Side.near .leaving link = n ∧ Side.far .leaving link = far) =
      (g.linksOf n).filter fun link => link.target = far := by
    rw [← filter_source hn, filter_filter]
    refine filter_congr fun link _ => ?_
    rw [Bool.decide_and, Bool.and_comm]
    rfl
  have hcaps : Side.leaving.caps g.links far n = capsTo far (g.records n) := by
    unfold Side.caps capsTo
    rw [hsplit, ColdnessGraph.linksOf, filter_map, map_map]
    rfl
  rw [hcaps, perm_iff_count]
  intro cap
  rw [count_capsTo, count_capsTo]
  exact (hg.incoming_mirrors far hfar n hn cap).symm

/-! ## One record -/

/-- What every step keeps: the slots the entry reaches, and that a queued node waits. -/
structure Shaped (g : ColdnessGraph) (s : Propagation) : Prop where
  length : s.slots.length = g.nodeBound
  reached : ∀ (n : Nat) slot, s.slots[n]? = some slot → (slot.mark ≠ .unreached ↔ n ∈ g.reachable)
  queued : ∀ (n : Nat) slot, s.slots[n]? = some slot → slot.mark = .queued → n ∈ s.queue
  waiting : ∀ n ∈ s.queue, n ∈ g.reachable
  hasRecords : ∀ n ∈ g.reachable, ∀ slot, s.slots[n]? = some slot →
    slot.hasRecords = decide (g.records n ≠ [])

/-- The counters on one side count the given values, which fit. -/
def Tallied (g : ColdnessGraph) (side : Side) (values : Nat → List ColdClass) (s : Propagation) : Prop :=
  ∀ n ∈ g.reachable, ∀ slot, s.slots[n]? = some slot →
    slot.tally side = .ofValues (values n) ∧ (slot.tally side).atLeastRare < 2 ^ 32

/-- What an update of the counters on one side leaves alone. -/
structure Kept (side : Side) (s s' : Propagation) : Prop where
  cls : ∀ n : Nat, (s'.slots[n]?).map Slot.cls = (s.slots[n]?).map Slot.cls
  other : ∀ side', side' ≠ side → ∀ n : Nat,
    (s'.slots[n]?).map (Slot.tally · side') = (s.slots[n]?).map (Slot.tally · side')
  untouched : ∀ (n : Nat) slot, s'.slots[n]? = some slot → slot.mark ≠ .queued → s.slots[n]? = some slot

variable {side : Side} {s s' s'' : Propagation} {values values' : Nat → List ColdClass}

theorem Kept.refl (side : Side) (s : Propagation) : Kept side s s :=
  ⟨fun _ => rfl, fun _ _ _ => rfl, fun _ _ h _ => h⟩

theorem Kept.trans (h : Kept side s s') (h' : Kept side s' s'') : Kept side s s'' := by
  refine ⟨fun n => (h'.cls n).trans (h.cls n), ?_, ?_⟩
  · exact fun side' hne n => (h'.other side' hne n).trans (h.other side' hne n)
  · exact fun n slot hslot hmark => h.untouched n slot (h'.untouched n slot hslot hmark) hmark

theorem Tallied.perm (h : Tallied g side values s)
    (hperm : ∀ n ∈ g.reachable, (values n).Perm (values' n)) : Tallied g side values' s := by
  intro n hn slot hslot
  obtain ⟨htally, hfits⟩ := h n hn slot hslot
  exact ⟨htally.trans (Tally.ofValues_perm (hperm n hn)), hfits⟩

theorem Tallied.of_kept (h : Tallied g side values s) (hne : side ≠ side')
    (hkept : Kept side' s s') : Tallied g side values s' := by
  intro n hn slot hslot
  have hsame := hkept.other side hne n
  rw [hslot, Option.map_some, eq_comm, Option.map_eq_some_iff] at hsame
  obtain ⟨old, hold, htally⟩ := hsame
  rw [← htally]
  exact h n hn old hold

theorem push_spec {t : Nat} (hslot : s.slots[t]? = some slot) (hmark : slot.mark ≠ .unreached)
    (hqueued : slot.mark = .queued → t ∈ s.queue) : ∃ s', s.push t = some s' ∧
      s'.slots.length = s.slots.length ∧
      (∀ n, s'.slots[n]? = if n = t then some { slot with mark := .queued } else s.slots[n]?) ∧
      ∀ m, m ∈ s'.queue ↔ m ∈ s.queue ∨ m = t := by
  have hlt := (List.getElem?_eq_some_iff.mp hslot).1
  unfold Propagation.push
  rw [hslot, Option.bind_eq_bind, Option.bind_some]
  cases hm : slot.mark with
  | unreached => exact absurd hm hmark
  | idle =>
    refine ⟨_, if_pos rfl, length_set, fun n => ?_, fun m => by simp⟩
    rw [getElem?_set]
    by_cases hn : t = n
    · rw [if_pos hn, if_pos hlt, if_pos hn.symm]
    · rw [if_neg hn, if_neg (Ne.symm hn)]
  | queued =>
    refine ⟨s, if_neg (by decide), rfl, fun n => ?_, fun m => ?_⟩
    · split
      · next hn =>
        rw [hn, hslot, ← hm]
      · rfl
    · refine ⟨Or.inl, fun h => ?_⟩
      rcases h with h | rfl
      · exact h
      · exact hqueued hm

@[simp] theorem setTally_mark (slot : Slot) (tally : Tally) (side : Side) :
    (slot.setTally tally side).mark = slot.mark := by
  cases side <;> rfl

@[simp] theorem setTally_cls (slot : Slot) (tally : Tally) (side : Side) :
    (slot.setTally tally side).cls = slot.cls := by
  cases side <;> rfl

@[simp] theorem setTally_hasRecords (slot : Slot) (tally : Tally) (side : Side) :
    (slot.setTally tally side).hasRecords = slot.hasRecords := by
  cases side <;> rfl

@[simp] theorem tally_setTally (slot : Slot) (tally : Tally) (side : Side) :
    (slot.setTally tally side).tally side = tally := by
  cases side <;> rfl

theorem tally_setTally_of_ne (slot : Slot) (tally : Tally) (h : side' ≠ side) :
    (slot.setTally tally side).tally side' = slot.tally side' := by
  cases side <;> cases side' <;> first | rfl | exact absurd rfl h

@[simp] theorem tally_mark (slot : Slot) (mark : Mark) (side : Side) :
    ({ slot with mark } : Slot).tally side = slot.tally side := by
  cases side <;> rfl

theorem retally_spec (h : Shaped g s) (hg : g.Lawful) (hle : new ≤ old)
    {record : Nat × ColdClass} (hr : record.1 ∈ g.reachable) {rest : List ColdClass}
    (ht : Tallied g side values s) (hold : (values record.1).Perm (min record.2 old :: rest))
    (hnew : (values' record.1).Perm (min record.2 new :: rest)) (hsame : ∀ n, n ≠ record.1 → values' n = values n) :
    ∃ s', Propagation.retally side old new s record = some s' ∧ Shaped g s' ∧ Tallied g side values' s' ∧
      Kept side s s' := by
  unfold Propagation.retally
  by_cases heq : min record.2 old = min record.2 new
  · refine ⟨s, if_pos heq, h, ht.perm fun n _ => ?_, .refl side s⟩
    by_cases hn : n = record.1
    · subst hn
      rw [heq] at hold
      exact hold.trans hnew.symm
    · rw [hsame n hn]
  · have hlt : record.1 < s.slots.length := h.length.symm ▸ hg.reachable_lt _ hr
    obtain ⟨slot, hslot⟩ : ∃ slot, s.slots[record.1]? = some slot := ⟨_, getElem?_eq_getElem hlt⟩
    obtain ⟨htally, hfits⟩ := ht _ hr slot hslot
    rw [htally, Tally.ofValues_perm hold] at hfits
    obtain ⟨hreplace, hfits'⟩ := Tally.replace_ofValues (ColdClass.min_mono_right record.2 hle) hfits
    rw [if_neg heq, hslot, Option.bind_eq_bind, Option.bind_some, htally, Tally.ofValues_perm hold, hreplace,
      Option.bind_eq_bind, Option.bind_some]
    generalize htallied : Tally.ofValues (min record.2 new :: rest) = tally at hfits'
    have hset : (s.slots.set record.1 (slot.setTally tally side))[record.1]? =
        some (slot.setTally tally side) := by
      rw [getElem?_set_self hlt]
    have hmark : slot.mark ≠ .unreached := (h.reached _ slot hslot).mpr hr
    obtain ⟨s', hs', hlength, hslots, hqueue⟩ :=
      push_spec (s := { s with slots := s.slots.set record.1 (slot.setTally tally side) }) hset
        (by rw [setTally_mark]; exact hmark)
        (fun hm => h.queued _ slot hslot (by rwa [setTally_mark] at hm))
    have hat : ∀ n, s'.slots[n]? =
        if n = record.1 then some { slot.setTally tally side with mark := .queued } else s.slots[n]? := by
      intro n
      rw [hslots]
      split
      · rfl
      · next hn => exact getElem?_set_ne (Ne.symm hn)
    have hlen : s'.slots.length = s.slots.length := hlength.trans length_set
    refine ⟨s', hs', ⟨hlen.trans h.length, ?_, ?_, ?_, ?_⟩, ?_, ?_, ?_, ?_⟩
    · intro n slot' hslot'
      rw [hat] at hslot'
      split at hslot'
      · next hn =>
        cases hslot'
        rw [hn]
        exact iff_of_true (by simp) hr
      · exact h.reached n slot' hslot'
    · intro n slot' hslot' hm
      rw [hqueue]
      rw [hat] at hslot'
      split at hslot'
      · next hn => exact Or.inr hn
      · exact Or.inl (h.queued n slot' hslot' hm)
    · intro n hn
      rcases (hqueue n).mp hn with hn | rfl
      · exact h.waiting n hn
      · exact hr
    · intro n hn slot' hslot'
      rw [hat] at hslot'
      split at hslot'
      · next heq =>
        cases hslot'
        simp only [setTally_hasRecords]
        rw [heq]
        exact h.hasRecords _ hr slot hslot
      · exact h.hasRecords n hn slot' hslot'
    · intro n hn slot' hslot'
      rw [hat] at hslot'
      split at hslot'
      · next heq =>
        cases hslot'
        rw [heq, tally_mark, tally_setTally, ← htallied]
        rw [← htallied] at hfits'
        exact ⟨(Tally.ofValues_perm hnew).symm, lt_of_le_of_lt hfits' hfits⟩
      · next hne =>
        rw [hsame n hne]
        exact ht n hn slot' hslot'
    · intro n
      rw [hat]
      split
      · next heq =>
        rw [heq, hslot]
        simp
      · rfl
    · intro side' hne n
      rw [hat]
      split
      · next heq =>
        rw [heq, hslot, Option.map_some, Option.map_some, tally_mark, tally_setTally_of_ne slot tally hne]
      · rfl
    · intro n slot' hslot' hm
      rw [hat] at hslot'
      split at hslot'
      · cases hslot'
        exact absurd rfl hm
      · exact hslot'

theorem capsTo_cons (n : Nat) (r : Nat × ColdClass) (l : List (Nat × ColdClass)) :
    capsTo n (r :: l) = if r.1 = n then r.2 :: capsTo n l else capsTo n l := by
  unfold capsTo
  rw [filter_cons]
  split <;> simp_all

/-- The values of all the records of a list are lowered, where the source skips the records that
name a node the entry does not reach. -/
theorem retallyAll_spec (hg : g.Lawful) (hle : new ≤ old)
    {step : Propagation → Nat × ColdClass → Option Propagation} {l : List (Nat × ColdClass)}
    (hstep : ∀ s, Shaped g s → ∀ r ∈ l, step s r =
      if r.1 ∈ g.reachable then Propagation.retally side old new s r else some s) :
    ∀ {s : Propagation} {others : Nat → List ColdClass}, Shaped g s →
      Tallied g side (fun n => (capsTo n l).map (min · old) ++ others n) s →
      ∃ s', l.foldlM step s = some s' ∧ Shaped g s' ∧
        Tallied g side (fun n => (capsTo n l).map (min · new) ++ others n) s' ∧ Kept side s s' := by
  induction l with
  | nil => exact fun {s others} h ht => ⟨s, rfl, h, ht, .refl side s⟩
  | cons r l ih =>
    intro s others h ht
    have ih := @ih fun s hs r' hr' => hstep s hs r' (mem_cons_of_mem r hr')
    rw [foldlM_cons, hstep s h r mem_cons_self]
    by_cases hr : r.1 ∈ g.reachable
    · -- the values that are lowered already join the others
      let others' := fun n => if r.1 = n then min r.2 new :: others n else others n
      have hold : ((capsTo r.1 (r :: l)).map (min · old) ++ others r.1).Perm
          (min r.2 old :: ((capsTo r.1 l).map (min · old) ++ others r.1)) := by
        rw [capsTo_cons, if_pos rfl]
        exact List.Perm.refl _
      have hnew : ((capsTo r.1 l).map (min · old) ++ others' r.1).Perm
          (min r.2 new :: ((capsTo r.1 l).map (min · old) ++ others r.1)) := by
        simp only [others', if_true]
        exact perm_middle
      have hsame : ∀ n, n ≠ r.1 → (capsTo n l).map (min · old) ++ others' n =
          (capsTo n (r :: l)).map (min · old) ++ others n := by
        intro n hn
        simp only [capsTo_cons, others', if_neg (Ne.symm hn)]
      obtain ⟨s₁, hs₁, h₁, ht₁, hkept₁⟩ := retally_spec h hg hle hr ht hold hnew hsame
      obtain ⟨s₂, hs₂, h₂, ht₂, hkept₂⟩ := ih h₁ ht₁
      refine ⟨s₂, ?_, h₂, ht₂.perm fun n _ => ?_, hkept₁.trans hkept₂⟩
      · rw [if_pos hr, hs₁]
        exact hs₂
      · by_cases hn : r.1 = n
        · simp only [capsTo_cons, others', hn, if_true, map_cons, cons_append]
          exact perm_middle
        · simp only [capsTo_cons, others', hn, if_false]
          exact List.Perm.refl _
    · have hcaps : ∀ n ∈ g.reachable, capsTo n (r :: l) = capsTo n l := by
        intro n hn
        rw [capsTo_cons, if_neg]
        intro he
        exact hr (he ▸ hn)
      obtain ⟨s₂, hs₂, h₂, ht₂, hkept₂⟩ := ih h (ht.perm fun n hn => by rw [hcaps n hn])
      refine ⟨s₂, ?_, h₂, ht₂.perm fun n hn => by rw [hcaps n hn], hkept₂⟩
      rw [if_neg hr]
      exact hs₂

/-! ## One visit -/

def classOf (s : Propagation) (n : Nat) : ColdClass := ((s.slots[n]?).map Slot.cls).getD .never

theorem classOf_eq (h : s.slots[n]? = some slot) : classOf s n = slot.cls := by
  rw [classOf, h]
  rfl

theorem Kept.classOf_eq (h : Kept side s s') : classOf s' = classOf s := by
  funext n
  rw [classOf, classOf, h.cls]

/-- Every counter holds the counts of the current values of its records. -/
def Accurate (g : ColdnessGraph) (s : Propagation) : Prop :=
  ∀ side : Side, Tallied g side (side.values g.links (classOf s)) s

structure Propagating (g : ColdnessGraph) (s : Propagation) : Prop where
  shaped : Shaped g s
  accurate : Accurate g s
  seed : ∀ n ∈ g.reachable, classOf s n ≤ g.seed n
  never : ∀ n, n ∉ g.reachable → classOf s n = .never
  settled : ∀ (n : Nat) slot, s.slots[n]? = some slot → slot.mark = .idle → slot.cls ≤ Propagation.bound g n slot
  above : AboveBounds g.bound (classOf s)

theorem bound_eq (h : Shaped g s) (ha : Accurate g s) (hn : n ∈ g.reachable)
    (hslot : s.slots[n]? = some slot) : Propagation.bound g n slot = g.recordBound (classOf s) n := by
  have hleaving : slot.leaving = .ofValues _ := (ha .leaving n hn slot hslot).1
  have hentering : slot.entering = .ofValues _ := (ha .entering n hn slot hslot).1
  have hrecords := h.hasRecords n hn slot hslot
  unfold Propagation.bound ColdnessGraph.recordBound ColdnessGraph.lift
  rw [hleaving, hentering, hottest_ofValues, hottest_ofValues, hrecords]
  generalize hottest (Side.leaving.values g.links (classOf s) n) = leaving
  have hB : (if decide (g.records n ≠ []) = true then if leaving = .never ∧ g.ends n then .rare else leaving
      else .normal) = if g.records n = [] then .normal else if leaving = .never ∧ g.ends n then .rare else leaving := by
    by_cases hr : g.records n = [] <;> simp [hr]
  simp only [hB]
  by_cases he : n = g.entry
  · rw [if_neg (not_not.mpr he), if_pos he, min_eq_left (ColdClass.le_normal _)]
  · rw [if_pos he, if_neg he]

theorem set_slots {slot' : Slot} (hslot : s.slots[n]? = some slot) (m : Nat) :
    (s.slots.set n slot')[m]? = if m = n then some slot' else s.slots[m]? := by
  have hlt := (List.getElem?_eq_some_iff.mp hslot).1
  rw [getElem?_set]
  by_cases hm : n = m
  · rw [if_pos hm, if_pos hlt, if_pos hm.symm]
  · rw [if_neg hm, if_neg (Ne.symm hm)]

theorem lower_spec (hg : g.Lawful) (h : Shaped g s) (ha : Accurate g s) (hn : node ∈ g.reachable)
    (hslot : s.slots[node]? = some slot) {cls : ColdClass} (hle : cls ≤ slot.cls) :
    ∃ s', Propagation.lower g s node cls = some s' ∧ Shaped g s' ∧ Accurate g s' ∧
      classOf s' = update (classOf s) node cls ∧
      ∀ (m : Nat) slot', s'.slots[m]? = some slot' → slot'.mark ≠ .queued →
        (s.slots.set node { slot with cls })[m]? = some slot' := by
  generalize hs₀ : ({ s with slots := s.slots.set node { slot with cls } } : Propagation) = s₀
  have hslots : ∀ m : Nat, s₀.slots[m]? = if m = node then some { slot with cls } else s.slots[m]? := by
    intro m
    rw [← hs₀]
    exact set_slots hslot m
  have hqueue : s₀.queue = s.queue := by
    rw [← hs₀]
  have hclass : classOf s₀ = update (classOf s) node cls := by
    funext m
    rw [classOf, hslots]
    by_cases hm : m = node
    · rw [if_pos hm, hm, update_self]
      rfl
    · rw [if_neg hm, update_of_ne hm]
      rfl
  -- the slot of the node differs in its class alone
  have hold : ∀ (m : Nat) slot', s₀.slots[m]? = some slot' → ∃ old, s.slots[m]? = some old ∧
      slot'.mark = old.mark ∧ slot'.hasRecords = old.hasRecords ∧ ∀ side, slot'.tally side = old.tally side := by
    intro m slot' hslot'
    rw [hslots] at hslot'
    split at hslot'
    · next hm =>
      cases hslot'
      rw [hm]
      exact ⟨slot, hslot, rfl, rfl, fun side => by cases side <;> rfl⟩
    · exact ⟨slot', hslot', rfl, rfl, fun _ => rfl⟩
  have hshaped : Shaped g s₀ := by
    refine ⟨?_, ?_, ?_, ?_, ?_⟩
    · rw [← hs₀]
      exact length_set.trans h.length
    · intro m slot' hslot'
      obtain ⟨old, hat, hmark, _⟩ := hold m slot' hslot'
      rw [hmark]
      exact h.reached m old hat
    · intro m slot' hslot' hm
      obtain ⟨old, hat, hmark, _⟩ := hold m slot' hslot'
      rw [hqueue]
      exact h.queued m old hat (hmark ▸ hm)
    · rw [hqueue]
      exact h.waiting
    · intro m hm slot' hslot'
      obtain ⟨old, hat, _, hrecords, _⟩ := hold m slot' hslot'
      rw [hrecords]
      exact h.hasRecords m hm old hat
  have htallied : ∀ side : Side, Tallied g side (side.values g.links (classOf s)) s₀ := by
    intro side m hm slot' hslot'
    obtain ⟨old, hat, _, _, htally⟩ := hold m slot' hslot'
    rw [htally]
    exact ha side m hm old hat
  have hnode : classOf s node = slot.cls := classOf_eq hslot
  have hentering : Tallied g .entering (fun n => (capsTo n (g.records node)).map (min · slot.cls) ++
      Side.entering.others g.links (classOf s) node n) s₀ := by
    refine (htallied .entering).perm fun n _ => ?_
    have hsplit := Side.entering.values_split g.links (classOf s) node n
    rwa [caps_entering hn, hnode] at hsplit
  obtain ⟨s₁, hs₁, hshaped₁, htallied₁, hkept₁⟩ := retallyAll_spec hg hle
    (fun s _ r hr => (if_pos (target_reachable hg hn hr)).symm) hshaped hentering
  have hleaving : Tallied g .leaving (fun n => (capsTo n (g.incoming node)).map (min · slot.cls) ++
      Side.leaving.others g.links (classOf s) node n) s₁ := by
    refine ((htallied .leaving).of_kept (by decide) hkept₁).perm fun n hm => ?_
    have hsplit := Side.leaving.values_split g.links (classOf s) node n
    rw [hnode] at hsplit
    exact hsplit.trans (((caps_leaving hg hn hm).map _).append_right _)
  have hskip : ∀ s, Shaped g s → ∀ r ∈ g.incoming node, Propagation.retallySource slot.cls cls s r =
      if r.1 ∈ g.reachable then Propagation.retally .leaving slot.cls cls s r else some s := by
    intro s hs r hr
    have hlt : r.1 < s.slots.length := hs.length.symm ▸ hg.incoming_lt node hn r hr
    have hat : s.slots[r.1]? = some s.slots[r.1] := getElem?_eq_getElem hlt
    have hreached := hs.reached r.1 _ hat
    unfold Propagation.retallySource
    rw [hat, Option.bind_eq_bind, Option.bind_some]
    by_cases hr : r.1 ∈ g.reachable
    · rw [if_pos hr, if_neg (hreached.mpr hr)]
    · rw [if_neg hr, if_pos (not_not.mp fun hm => hr (hreached.mp hm))]
  obtain ⟨s₂, hs₂, hshaped₂, htallied₂, hkept₂⟩ := retallyAll_spec hg hle hskip hshaped₁ hleaving
  have hclass₂ : classOf s₂ = update (classOf s) node cls := by
    rw [hkept₂.classOf_eq, hkept₁.classOf_eq, hclass]
  refine ⟨s₂, ?_, hshaped₂, ?_, hclass₂, ?_⟩
  · unfold Propagation.lower
    rw [hslot]
    simp only [Option.bind_eq_bind, Option.bind_some]
    rw [hs₀, hs₁]
    exact hs₂
  · intro side
    rw [hclass₂]
    cases side with
    | entering =>
      refine (htallied₁.of_kept (by decide) hkept₂).perm fun n _ => ?_
      rw [← caps_entering hn]
      exact (Side.entering.values_update g.links (classOf s) node cls n).symm
    | leaving =>
      refine htallied₂.perm fun n hm => ?_
      refine List.Perm.trans ?_ (Side.leaving.values_update g.links (classOf s) node cls n).symm
      exact ((caps_leaving hg hn hm).symm.map _).append_right _
  · intro m slot' hslot' hm
    have huntouched := hkept₁.untouched m slot' (hkept₂.untouched m slot' hslot' hm) hm
    rwa [← hs₀] at huntouched

/-- How far the classes can still fall, and how many nodes wait. -/
def remaining (g : ColdnessGraph) (s : Propagation) : Nat × Nat :=
  (total (fun n => (classOf s n).level) (List.range g.nodeBound), s.queue.length)

/-- A visit keeps what the propagation knows, and either lowers a class or shortens the queue. -/
theorem Propagating.visit (hg : g.Lawful) (h : Propagating g s) {queue : List Nat}
    (hqueue : s.queue = node :: queue) : ∃ s', Propagation.visit g { s with queue } node = some s' ∧
      Propagating g s' ∧ Prod.Lex (· < ·) (· < ·) (remaining g s') (remaining g s) := by
  have hn : node ∈ g.reachable := h.shaped.waiting node (by rw [hqueue]; exact mem_cons_self)
  have hlt : node < s.slots.length := h.shaped.length.symm ▸ hg.reachable_lt node hn
  obtain ⟨slot, hslot⟩ : ∃ slot, s.slots[node]? = some slot := ⟨_, getElem?_eq_getElem hlt⟩
  generalize hidle : ({ slot with mark := .idle } : Slot) = idle
  generalize hs₀ : (⟨s.slots.set node idle, queue⟩ : Propagation) = s₀
  have hslots : ∀ m : Nat, s₀.slots[m]? = if m = node then some idle else s.slots[m]? := by
    intro m
    rw [← hs₀]
    exact set_slots hslot m
  have hat : s₀.slots[node]? = some idle := by
    rw [hslots, if_pos rfl]
  have hclass : classOf s₀ = classOf s := by
    funext m
    rw [classOf, hslots]
    split
    · next hm =>
      rw [hm, classOf_eq hslot, ← hidle]
      rfl
    · rfl
  have hshaped : Shaped g s₀ := by
    refine ⟨?_, ?_, ?_, ?_, ?_⟩
    · rw [← hs₀]
      exact length_set.trans h.shaped.length
    · intro m slot' hslot'
      rw [hslots] at hslot'
      split at hslot'
      · next hm =>
        cases hslot'
        have hmark : idle.mark = .idle := hidle ▸ rfl
        rw [hm, hmark]
        exact iff_of_true (by decide) hn
      · exact h.shaped.reached m slot' hslot'
    · intro m slot' hslot' hmark
      rw [hslots] at hslot'
      split at hslot'
      · cases hslot'
        rw [← hidle] at hmark
        cases hmark
      · next hm =>
        have hwaits := h.shaped.queued m slot' hslot' hmark
        rw [hqueue, mem_cons] at hwaits
        rw [← hs₀]
        exact hwaits.resolve_left hm
    · intro m hm
      rw [← hs₀] at hm
      exact h.shaped.waiting m (by rw [hqueue]; exact mem_cons_of_mem node hm)
    · intro m hm slot' hslot'
      rw [hslots] at hslot'
      split at hslot'
      · next heq =>
        cases hslot'
        rw [heq, ← hidle]
        exact h.shaped.hasRecords node hn slot hslot
      · exact h.shaped.hasRecords m hm slot' hslot'
  have haccurate : Accurate g s₀ := by
    intro side m hm slot' hslot'
    rw [hclass]
    rw [hslots] at hslot'
    split at hslot'
    · next heq =>
      cases hslot'
      rw [heq, ← hidle, tally_mark]
      exact h.accurate side node hn slot hslot
    · exact h.accurate side m hm slot' hslot'
  have hbound : Propagation.bound g node idle = g.recordBound (classOf s) node := by
    rw [← hclass]
    exact bound_eq hshaped haccurate hn hat
  have hcls : idle.cls = classOf s node := by
    rw [← hclass, classOf_eq hat]
  have hvisit : Propagation.visit g { s with queue } node =
      if Propagation.bound g node idle < idle.cls then
        Propagation.lower g s₀ node (Propagation.bound g node idle) else some s₀ := by
    have hslotcls : slot.cls = idle.cls := hidle ▸ rfl
    unfold Propagation.visit
    simp only [hslot, Option.bind_eq_bind, Option.bind_some, hidle, hs₀]
    rw [hslotcls]
  rw [hvisit]
  have hothers : ∀ (m : Nat) slot', m ≠ node → s₀.slots[m]? = some slot' → slot'.mark = .idle →
      slot'.cls ≤ Propagation.bound g m slot' := by
    intro m slot' hm hslot' hmark
    rw [hslots, if_neg hm] at hslot'
    exact h.settled m slot' hslot' hmark
  by_cases hfall : Propagation.bound g node idle < idle.cls
  · obtain ⟨s', hlower, hshaped', haccurate', hclass', huntouched⟩ :=
      lower_spec hg hshaped haccurate hn hat hfall.le
    rw [hclass] at hclass'
    refine ⟨s', by rw [if_pos hfall]; exact hlower, ⟨hshaped', haccurate', ?_, ?_, ?_, ?_⟩, ?_⟩
    · intro m hm
      rw [hclass']
      by_cases heq : m = node
      · rw [heq, update_self]
        exact (hfall.le.trans_eq hcls).trans (h.seed node hn)
      · rw [update_of_ne heq]
        exact h.seed m hm
    · intro m hm
      have hne : m ≠ node := fun heq => hm (heq ▸ hn)
      rw [hclass', update_of_ne hne]
      exact h.never m hm
    · intro m slot' hslot' hmark
      have hbefore := huntouched m slot' hslot' (by rw [hmark]; decide)
      rw [set_slots hat] at hbefore
      split at hbefore
      · next heq =>
        cases hbefore
        rw [heq]
        exact le_refl _
      · next hne => exact hothers m slot' hne hbefore hmark
    · rw [hclass']
      refine h.above.lower bound_mono ?_
      rw [ColdnessGraph.bound, if_pos hn, hbound]
      exact min_le_right _ _
    · refine Prod.Lex.left _ _ ?_
      have hdrop : total (fun n => (classOf s' n).level) (List.range g.nodeBound) + 1 ≤
          total (fun n => (classOf s n).level) (List.range g.nodeBound) := by
        refine total_drop (fun m _ => ?_) (mem_range.mpr (hg.reachable_lt node hn)) ?_
        · rw [hclass']
          by_cases heq : m = node
          · rw [heq, update_self]
            exact ColdClass.le_iff_level.mp (hfall.le.trans_eq hcls)
          · rw [update_of_ne heq]
        · rw [hclass', update_self]
          exact ColdClass.lt_iff_level.mp (hfall.trans_eq hcls)
      exact hdrop
  · refine ⟨s₀, by rw [if_neg hfall], ⟨hshaped, haccurate, ?_, ?_, ?_, ?_⟩, ?_⟩
    · rw [hclass]
      exact h.seed
    · rw [hclass]
      exact h.never
    · intro m slot' hslot' hmark
      by_cases heq : m = node
      · rw [heq, hat] at hslot'
        cases hslot'
        rw [heq]
        exact not_lt.mp hfall
      · exact hothers m slot' heq hslot' hmark
    · rw [hclass]
      exact h.above
    · have hlength : s₀.queue.length < s.queue.length := by
        rw [hqueue, ← hs₀]
        exact Nat.lt_succ_self _
      unfold remaining
      rw [hclass]
      exact Prod.Lex.right _ hlength

inductive Passes (g : ColdnessGraph) (s : Propagation) : Propagation → Prop
  | start : Passes g s s
  | visit {s' s'' : Propagation} {node : Nat} {queue : List Nat} : Passes g s s' → s'.queue = node :: queue →
      Propagation.visit g { s' with queue } node = some s'' → Passes g s s''

theorem Passes.propagating (hg : g.Lawful) (h : Propagating g s) (hpass : Passes g s s') : Propagating g s' := by
  induction hpass with
  | start => exact h
  | visit _ hqueue hvisit ih =>
    obtain ⟨s₁, hs₁, h₁, _⟩ := ih.visit hg hqueue
    rw [hvisit] at hs₁
    cases hs₁
    exact h₁

theorem Propagating.run (hg : g.Lawful) (h : Propagating g s) :
    ∃ N s', (∀ fuel, N ≤ fuel → Propagation.run g fuel s = some s') ∧ Propagating g s' ∧ s'.queue = [] := by
  have hwf : WellFounded (Prod.Lex (· < ·) (· < ·) : Nat × Nat → Nat × Nat → Prop) :=
    WellFounded.prod_lex Nat.lt_wfRel.wf Nat.lt_wfRel.wf
  generalize hm : remaining g s = m
  induction m using hwf.induction generalizing s with
  | _ m ih =>
    subst hm
    cases hqueue : s.queue with
    | nil =>
      refine ⟨1, s, fun fuel hfuel => ?_, h, hqueue⟩
      obtain ⟨fuel, rfl⟩ : ∃ k, fuel = k + 1 := ⟨fuel - 1, by omega⟩
      rw [Propagation.run, hqueue]
    | cons node queue =>
      obtain ⟨s₁, hvisit, h₁, hless⟩ := h.visit hg hqueue
      obtain ⟨N, s', hrun, h', hdone⟩ := ih _ hless h₁ rfl
      refine ⟨N + 1, s', fun fuel hfuel => ?_, h', hdone⟩
      obtain ⟨fuel, rfl⟩ : ∃ k, fuel = k + 1 := ⟨fuel - 1, by omega⟩
      rw [Propagation.run, hqueue]
      simp only [hvisit, Option.bind_eq_bind, Option.bind_some]
      exact hrun fuel (by omega)

/-- With nothing left to visit the classes are the greatest assignment within the bounds. -/
theorem Propagating.isGreatest (hg : g.Lawful) (h : Propagating g s) (hdone : s.queue = []) :
    IsGreatest {x | MeetsBounds g.bound x} (classOf s) := by
  refine h.above.isGreatest fun n => ?_
  by_cases hn : n ∈ g.reachable
  · have hlt : n < s.slots.length := h.shaped.length.symm ▸ hg.reachable_lt n hn
    obtain ⟨slot, hslot⟩ : ∃ slot, s.slots[n]? = some slot := ⟨_, getElem?_eq_getElem hlt⟩
    have hmark : slot.mark = .idle := by
      cases hm : slot.mark with
      | unreached => exact absurd hm ((h.shaped.reached n slot hslot).mpr hn)
      | idle => rfl
      | queued =>
        have hwaits := h.shaped.queued n slot hslot hm
        rw [hdone] at hwaits
        cases hwaits
    have hsettled := h.settled n slot hslot hmark
    rw [bound_eq h.shaped h.accurate hn hslot, ← classOf_eq hslot] at hsettled
    rw [ColdnessGraph.bound, if_pos hn]
    exact le_min (h.seed n hn) hsettled
  · rw [h.never n hn]
    exact ColdClass.never_le _

end CfgLib.Coldness
