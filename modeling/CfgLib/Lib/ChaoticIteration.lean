import Mathlib.Order.BoundedOrder.Basic
import Mathlib.Data.DFinsupp.WellFounded
import Mathlib.Data.Finite.Defs
import CfgLib.Lib.Loop
import Mathlib.Data.Set.Card
import Mathlib.Order.Interval.Set.Basic

/-!
# Chaotic iteration

A system of equations whose unknowns are written by visits to nodes: a visit
evaluates its node's equations on the current unknowns and asks for a revisit of
every node that reads an unknown it changed.  Whatever the order of the visits,
the unknowns rise from bottom, stay below every solution, and solve the system
once nothing is left to visit.
-/

namespace CfgLib.Lib

structure System (κ α β : Type) where
  /-- The unknowns a visit to a node writes. -/
  slots : Nat → List κ
  /-- The nodes whose equations read an unknown. -/
  readers : κ → List Nat
  /-- What a visit records about its node. -/
  record : Nat → (κ → α) → β
  /-- What a visit writes. -/
  value : Nat → (κ → α) → κ → α

structure SystemState (κ α β : Type) where
  values : κ → α
  records : Nat → β
  queue : Nat → Prop

namespace System

variable {κ α β : Type} {S : System κ α β} {s s' : SystemState κ α β} {n : Nat}

/-- `s'` is `s` after a visit to the queued node `n`. -/
structure Visit (S : System κ α β) (n : Nat) (s s' : SystemState κ α β) : Prop where
  queued : s.queue n
  written : ∀ k ∈ S.slots n, s'.values k = S.value n s.values k
  kept : ∀ k, k ∉ S.slots n → s'.values k = s.values k
  recorded : s'.records n = S.record n s.values
  records_kept : ∀ m, m ≠ n → s'.records m = s.records m
  queue_iff : ∀ m, s'.queue m ↔ (s.queue m ∧ m ≠ n) ∨
    ∃ k ∈ S.slots n, s'.values k ≠ s.values k ∧ m ∈ S.readers k

variable [PartialOrder α] [OrderBot α]

/-- What the iteration relies on, over the nodes of `dom`. -/
structure Lawful (S : System κ α β) (dom : Nat → Prop) : Prop where
  owner : ∀ n m k, dom n → dom m → k ∈ S.slots n → k ∈ S.slots m → n = m
  readers_dom : ∀ n k m, dom n → k ∈ S.slots n → m ∈ S.readers k → dom m
  record_local : ∀ n x y, dom n →
    (∀ k, n ∈ S.readers k → x k = y k) → S.record n x = S.record n y
  value_local : ∀ n x y, dom n →
    (∀ k, n ∈ S.readers k → x k = y k) → S.value n x = S.value n y
  value_mono : ∀ n x y k, dom n → k ∈ S.slots n → (∀ j, x j ≤ y j) →
    S.value n x k ≤ S.value n y k

/-- The nodes that take part: those started, and those that read an unknown that
left bottom. -/
def Started (S : System κ α β) (start : Nat → Prop) (x : κ → α) (n : Nat) : Prop :=
  start n ∨ ∃ k, x k ≠ ⊥ ∧ n ∈ S.readers k

/-- The equations hold at the nodes that take part, and nothing else leaves bottom. -/
structure IsSolution (S : System κ α β) (start : Nat → Prop) (x : κ → α) : Prop where
  equation : ∀ n, S.Started start x n → ∀ k ∈ S.slots n, x k = S.value n x k
  rest : ∀ k, (∀ n, S.Started start x n → k ∉ S.slots n) → x k = ⊥

/-- At the nodes that take part the equations only lower `x`. -/
def IsBound (S : System κ α β) (start : Nat → Prop) (x : κ → α) : Prop :=
  ∀ n, S.Started start x n → ∀ k ∈ S.slots n, S.value n x k ≤ x k

structure IsLeastSolution (S : System κ α β) (dom start : Nat → Prop) (blank : β) (x : κ → α)
    (records : Nat → β) : Prop where
  started_dom : ∀ n, S.Started start x n → dom n
  solution : S.IsSolution start x
  least : ∀ y, S.IsSolution start y → ∀ k, x k ≤ y k
  record : ∀ n, S.Started start x n → records n = S.record n x
  record_rest : ∀ n, ¬ S.Started start x n → records n = blank

/-- The iteration so far, having visited `visited`. -/
structure Progress (S : System κ α β) (dom start : Nat → Prop) (blank : β) (visited : Nat → Prop)
    (s : SystemState κ α β) : Prop where
  dom_of_started : ∀ n, visited n ∨ s.queue n → dom n
  started : ∀ n, visited n ∨ s.queue n ↔ S.Started start s.values n
  settled : ∀ n, visited n → ¬ s.queue n →
    s.records n = S.record n s.values ∧ ∀ k ∈ S.slots n, s.values k = S.value n s.values k
  rising : ∀ n, visited n → ∀ k ∈ S.slots n, s.values k ≤ S.value n s.values k
  blank_record : ∀ n, ¬ visited n → s.records n = blank
  blank_value : ∀ k, (∀ n, visited n → k ∉ S.slots n) → s.values k = ⊥
  below : ∀ y, S.IsBound start y → ∀ k, s.values k ≤ y k

variable {dom start visited : Nat → Prop} {blank : β}

theorem Started.mono {x y : κ → α} (hxy : ∀ k, x k ≤ y k) (h : S.Started start x n) :
    S.Started start y n := by
  rcases h with h | ⟨k, hk, hn⟩
  · exact Or.inl h
  · exact Or.inr ⟨k, fun hy => hk (le_bot_iff.mp (hy ▸ hxy k)), hn⟩

theorem IsSolution.isBound {x : κ → α} (h : S.IsSolution start x) : S.IsBound start x :=
  fun n hn k hk => (h.equation n hn k hk).ge

theorem progress_init (hstart : ∀ n, start n → dom n) (hvalues : ∀ k, s.values k = ⊥)
    (hrecords : ∀ n, s.records n = blank) (hqueue : ∀ n, s.queue n ↔ start n) :
    S.Progress dom start blank (fun _ => False) s := by
  refine ⟨?_, ?_, fun n h => h.elim, fun n h => h.elim, fun n _ => hrecords n, fun k _ => hvalues k,
    ?_⟩
  · rintro n (h | h)
    · exact h.elim
    · exact hstart n ((hqueue n).mp h)
  · intro n
    constructor
    · rintro (h | h)
      · exact h.elim
      · exact Or.inl ((hqueue n).mp h)
    · rintro (h | ⟨k, hk, _⟩)
      · exact Or.inr ((hqueue n).mpr h)
      · exact absurd (hvalues k) hk
  · intro y _ k
    rw [hvalues k]
    exact bot_le

theorem Progress.values_le (hS : S.Lawful dom) (h : S.Progress dom start blank visited s)
    (hv : S.Visit n s s') (k : κ) : s.values k ≤ s'.values k := by
  by_cases hk : k ∈ S.slots n
  · rw [hv.written k hk]
    by_cases hn : visited n
    · exact h.rising n hn k hk
    · have hbot : s.values k = ⊥ := h.blank_value k fun m hm hkm => by
        rw [hS.owner m n k (h.dom_of_started m (Or.inl hm))
          (h.dom_of_started n (Or.inr hv.queued)) hkm hk] at hm
        exact hn hm
      rw [hbot]
      exact bot_le
  · exact (hv.kept k hk).symm.le

theorem Progress.visit (hS : S.Lawful dom) (h : S.Progress dom start blank visited s)
    (hv : S.Visit n s s') : S.Progress dom start blank (fun m => visited m ∨ m = n) s' := by
  have hle := h.values_le hS hv
  have hdom : dom n := h.dom_of_started n (Or.inr hv.queued)
  have hchanged : ∀ k, s'.values k ≠ s.values k → k ∈ S.slots n := fun k hne => by
    by_contra hk
    exact hne (hv.kept k hk)
  -- a node that the visit did not queue sees the unknowns it reads unchanged
  have hsame : ∀ m, ¬ s'.queue m → ∀ k, m ∈ S.readers k → s'.values k = s.values k := by
    intro m hm k hk
    by_contra hne
    exact hm ((hv.queue_iff m).mpr (Or.inr ⟨k, hchanged k hne, hne, hk⟩))
  refine ⟨?_, ?_, ?_, ?_, ?_, ?_, ?_⟩
  · rintro m ((hm | rfl) | hm)
    · exact h.dom_of_started m (Or.inl hm)
    · exact hdom
    · rcases (hv.queue_iff m).mp hm with ⟨hm, _⟩ | ⟨k, hk, _, hmk⟩
      · exact h.dom_of_started m (Or.inr hm)
      · exact hS.readers_dom n k m hdom hk hmk
  · intro m
    constructor
    · rintro ((hm | rfl) | hm)
      · exact ((h.started m).mp (Or.inl hm)).mono hle
      · exact ((h.started m).mp (Or.inr hv.queued)).mono hle
      · rcases (hv.queue_iff m).mp hm with ⟨hm, _⟩ | ⟨k, _, hne, hmk⟩
        · exact ((h.started m).mp (Or.inr hm)).mono hle
        · refine Or.inr ⟨k, fun hbot => hne ?_, hmk⟩
          have := hle k
          rw [hbot] at this
          rw [hbot, le_bot_iff.mp this]
    · intro hm
      by_cases hold : S.Started start s.values m
      · rcases (h.started m).mpr hold with hm | hm
        · exact Or.inl (Or.inl hm)
        · by_cases hmn : m = n
          · exact Or.inl (Or.inr hmn)
          · exact Or.inr ((hv.queue_iff m).mpr (Or.inl ⟨hm, hmn⟩))
      · rcases hm with hm | ⟨k, hk, hmk⟩
        · exact absurd (Or.inl hm) hold
        · have hne : s'.values k ≠ s.values k := fun he => hold (Or.inr ⟨k, he ▸ hk, hmk⟩)
          exact Or.inr ((hv.queue_iff m).mpr (Or.inr ⟨k, hchanged k hne, hne, hmk⟩))
  · intro m hm hq
    have hrecord := hS.record_local m s'.values s.values
    have hvalue := hS.value_local m s'.values s.values
    by_cases hmn : m = n
    · subst hmn
      rw [hrecord hdom (hsame m hq), hvalue hdom (hsame m hq)]
      exact ⟨hv.recorded, hv.written⟩
    · have hvis := hm.resolve_right hmn
      have hq' : ¬ s.queue m := fun hc => hq ((hv.queue_iff m).mpr (Or.inl ⟨hc, hmn⟩))
      have hmdom := h.dom_of_started m (Or.inl hvis)
      obtain ⟨h₁, h₂⟩ := h.settled m hvis hq'
      rw [hrecord hmdom (hsame m hq), hvalue hmdom (hsame m hq), hv.records_kept m hmn]
      refine ⟨h₁, fun k hk => ?_⟩
      rw [hv.kept k fun hkn => hmn (hS.owner m n k hmdom hdom hk hkn)]
      exact h₂ k hk
  · intro m hm k hk
    have hmdom : dom m := by
      rcases hm with hm | rfl
      · exact h.dom_of_started m (Or.inl hm)
      · exact hdom
    have hmono := hS.value_mono m _ _ k hmdom hk hle
    by_cases hmn : m = n
    · subst hmn
      rw [hv.written k hk]
      exact hmono
    · rw [hv.kept k fun hkn => hmn (hS.owner m n k hmdom hdom hk hkn)]
      exact (h.rising m (hm.resolve_right hmn) k hk).trans hmono
  · intro m hm
    simp only [not_or] at hm
    rw [hv.records_kept m hm.2]
    exact h.blank_record m hm.1
  · intro k hk
    rw [hv.kept k (hk n (Or.inr rfl))]
    exact h.blank_value k fun m hm => hk m (Or.inl hm)
  · intro y hy k
    have hbelow := h.below y hy
    by_cases hk : k ∈ S.slots n
    · rw [hv.written k hk]
      exact (hS.value_mono n _ _ k hdom hk hbelow).trans
        (hy n (((h.started n).mp (Or.inr hv.queued)).mono hbelow) k hk)
    · rw [hv.kept k hk]
      exact hbelow k

theorem Progress.isLeastSolution (h : S.Progress dom start blank visited s)
    (hdone : ∀ n, ¬ s.queue n) : S.IsLeastSolution dom start blank s.values s.records := by
  have hvis : ∀ n, S.Started start s.values n ↔ visited n := fun n => by
    rw [← h.started n]
    exact ⟨fun hn => hn.resolve_right (hdone n), Or.inl⟩
  refine ⟨?_, ⟨?_, ?_⟩, fun y hy => h.below y hy.isBound, ?_, ?_⟩
  · intro n hn
    exact h.dom_of_started n ((h.started n).mpr hn)
  · intro n hn
    exact (h.settled n ((hvis n).mp hn) (hdone n)).2
  · intro k hk
    exact h.blank_value k fun n hn => hk n ((hvis n).mpr hn)
  · intro n hn
    exact (h.settled n ((hvis n).mp hn) (hdone n)).1
  · intro n hn
    exact h.blank_record n fun hc => hn ((hvis n).mpr hc)

/-! ## Termination -/

/-- Values of the unknowns `ks` that rise and stay below every bound do so finitely
often: some measure of them descends. -/
def Ascending (S : System κ α β) (start : Nat → Prop) (ks : List κ) : Prop :=
  ∃ (τ : Type) (rel : τ → τ → Prop) (μ : (κ → α) → τ), WellFounded rel ∧ ∀ x x' : κ → α,
    (∀ k, x k ≤ x' k) → (∀ y, S.IsBound start y → ∀ k, x' k ≤ y k) → (∀ k, x' k ≠ x k → k ∈ ks) →
      x' ≠ x → rel (μ x') (μ x)

omit [OrderBot α] in
theorem wellFounded_rising [WellFoundedGT α] (ks : List κ) :
    WellFounded fun x y : { k // k ∈ ks } → α => x > y := by
  have : Finite { k // k ∈ ks } := List.finite_toSet ks
  -- rising in the product is falling in the product of the dual orders
  exact wellFounded_lt (α := { k // k ∈ ks } → αᵒᵈ)

theorem ascending_of_wellFoundedGT [WellFoundedGT α] (start : Nat → Prop) (ks : List κ) : S.Ascending start ks := by
  refine ⟨_, _, fun x k => x k.1, wellFounded_rising ks, fun x x' hle _ hks hne => ?_⟩
  refine lt_of_le_of_ne (fun k => hle k.1) fun he => hne (funext fun k => ?_)
  by_contra hk
  exact hk (congrFun he ⟨k, hks k hk⟩).symm

/-- Below a bound with finitely many values under each unknown they rise finitely
often in any order. -/
theorem ascending_of_bound {start : Nat → Prop} (ks : List κ) {y : κ → α} (hy : S.IsBound start y)
    (hfinite : ∀ k, (Set.Iic (y k)).Finite) : S.Ascending start ks := by
  refine ⟨Nat, (· < ·), fun x => total (fun k => (Set.Icc (x k) (y k)).ncard) ks, Nat.lt_wfRel.wf,
    fun x x' hle hbelow hks hne => ?_⟩
  obtain ⟨k, hk⟩ := Function.ne_iff.mp hne
  refine total_drop (d := 1) (fun j _ => ?_) (hks k hk) ?_
  · exact Set.ncard_le_ncard (Set.Icc_subset_Icc_left (hle j)) ((hfinite j).subset Set.Icc_subset_Iic_self)
  · refine Set.ncard_lt_ncard ?_ ((hfinite k).subset Set.Icc_subset_Iic_self)
    refine ⟨Set.Icc_subset_Icc_left (hle k), fun hsub => hk ?_⟩
    have hmem := hsub (⟨le_refl _, (hle k).trans (hbelow y hy k)⟩ : x k ∈ Set.Icc (x k) (y k))
    exact le_antisymm hmem.1 (hle k)

/-- A visit descends when every unknown it may change is listed, and when a visit
that changes none shrinks the queue. -/
theorem Progress.descends (hS : S.Lawful dom) (h : S.Progress dom start blank visited s)
    (hv : S.Visit n s s') {ks : List κ} (hks : ∀ k ∈ S.slots n, k ∈ ks) {τ : Type} {rel : τ → τ → Prop}
    {μ : (κ → α) → τ} (hrise : ∀ x x' : κ → α, (∀ k, x k ≤ x' k) → (∀ y, S.IsBound start y → ∀ k, x' k ≤ y k) →
      (∀ k, x' k ≠ x k → k ∈ ks) → x' ≠ x → rel (μ x') (μ x)) {size size' : Nat}
    (hsize : (∀ k, s'.values k = s.values k) → size' < size) :
    Prod.Lex rel (· < ·) (μ s'.values, size') (μ s.values, size) := by
  by_cases heq : s'.values = s.values
  · rw [heq]
    exact Prod.Lex.right _ (hsize (congrFun heq))
  · refine Prod.Lex.left _ _ (hrise _ _ (h.values_le hS hv) (h.visit hS hv).below (fun k hk => hks k ?_) heq)
    by_contra hc
    exact hk (hv.kept k hc)

/-! ## Renaming nodes and unknowns -/

/-- `S'` is `S` with its nodes and unknowns renamed. -/
structure Renames {κ' : Type} (S : System κ α β) (S' : System κ' α β) (dom dom' start start' : Nat → Prop)
    (ν : Nat ≃ Nat) (ρ : κ ≃ κ') : Prop where
  dom_iff : ∀ n, dom' (ν n) ↔ dom n
  start_iff : ∀ n, start' (ν n) ↔ start n
  slots_iff : ∀ n k, dom n → (ρ k ∈ S'.slots (ν n) ↔ k ∈ S.slots n)
  readers_iff : ∀ n k m, dom n → k ∈ S.slots n → (ν m ∈ S'.readers (ρ k) ↔ m ∈ S.readers k)
  value_eq : ∀ n k y, dom n → k ∈ S.slots n → S'.value (ν n) y (ρ k) = S.value n (y ∘ ρ) k
  record_eq : ∀ n y, dom n → S'.record (ν n) y = S.record n (y ∘ ρ)

section Renames

variable {κ' : Type} {S' : System κ' α β} {dom' start' : Nat → Prop} {ν : Nat ≃ Nat} {ρ : κ ≃ κ'}
  {x : κ → α} {x' : κ' → α} {records records' : Nat → β}

omit [PartialOrder α] [OrderBot α] in
theorem Renames.symm (h : Renames S S' dom dom' start start' ν ρ) :
    Renames S' S dom' dom start' start ν.symm ρ.symm := by
  have hdom : ∀ n, dom (ν.symm n) ↔ dom' n := fun n => by
    rw [← h.dom_iff, ν.apply_symm_apply]
  have hslots : ∀ n k, dom' n → (ρ.symm k ∈ S.slots (ν.symm n) ↔ k ∈ S'.slots n) := by
    intro n k hn
    rw [← h.slots_iff _ _ ((hdom n).mpr hn), ν.apply_symm_apply, ρ.apply_symm_apply]
  refine ⟨hdom, ?_, hslots, ?_, ?_, ?_⟩
  · intro n
    rw [← h.start_iff, ν.apply_symm_apply]
  · intro n k m hn hk
    rw [← h.readers_iff _ _ _ ((hdom n).mpr hn) ((hslots n k hn).mpr hk), ν.apply_symm_apply,
      ρ.apply_symm_apply]
  · intro n k y hn hk
    have := h.value_eq _ _ (y ∘ ρ.symm) ((hdom n).mpr hn) ((hslots n k hn).mpr hk)
    rw [ν.apply_symm_apply, ρ.apply_symm_apply] at this
    rw [this]
    congr 1
    funext j
    simp
  · intro n y hn
    have := h.record_eq _ (y ∘ ρ.symm) ((hdom n).mpr hn)
    rw [ν.apply_symm_apply] at this
    rw [this]
    congr 1
    funext j
    simp

theorem Renames.isSolution (h : Renames S S' dom dom' start start' ν ρ)
    (hx' : S'.IsLeastSolution dom' start' blank x' records') (hstart : ∀ n, start n → dom n)
    (hreaders : ∀ n k m, dom n → k ∈ S.slots n → m ∈ S.readers k → dom m) :
    S.IsSolution start (x' ∘ ρ) := by
  -- an unknown that left bottom is written by a node that takes part
  have howner : ∀ k, x' (ρ k) ≠ ⊥ → ∃ n, S'.Started start' x' (ν n) ∧ dom n ∧ k ∈ S.slots n := by
    intro k hk
    by_contra hno
    refine hk (hx'.solution.rest (ρ k) fun m hm hkm => hno ⟨ν.symm m, ?_⟩)
    have hdom : dom (ν.symm m) := by
      rw [← h.dom_iff, ν.apply_symm_apply]
      exact hx'.started_dom m hm
    refine ⟨by rwa [ν.apply_symm_apply], hdom, (h.slots_iff _ _ hdom).mp ?_⟩
    rwa [ν.apply_symm_apply]
  have hstarted : ∀ n, S.Started start (x' ∘ ρ) n → S'.Started start' x' (ν n) ∧ dom n := by
    rintro n (hn | ⟨k, hk, hnk⟩)
    · exact ⟨Or.inl ((h.start_iff n).mpr hn), hstart n hn⟩
    · obtain ⟨m, _, hm, hkm⟩ := howner k hk
      exact ⟨Or.inr ⟨ρ k, hk, (h.readers_iff m k n hm hkm).mpr hnk⟩, hreaders m k n hm hkm hnk⟩
  refine ⟨?_, ?_⟩
  · intro n hn k hk
    obtain ⟨hn', hdom⟩ := hstarted n hn
    rw [← h.value_eq n k x' hdom hk]
    exact hx'.solution.equation (ν n) hn' (ρ k) ((h.slots_iff n k hdom).mpr hk)
  · intro k hk
    by_contra hne
    obtain ⟨n, hn, hdom, hkn⟩ := howner k hne
    refine hk n ?_ hkn
    rcases hn with hn | ⟨k', hk', hnk'⟩
    · exact Or.inl ((h.start_iff n).mp hn)
    · refine Or.inr ⟨ρ.symm k', by simpa using hk', ?_⟩
      obtain ⟨m, _, hm, hkm⟩ := howner (ρ.symm k') (by simpa using hk')
      rw [← h.readers_iff m _ n hm hkm, ρ.apply_symm_apply]
      exact hnk'

theorem Renames.values_eq (h : Renames S S' dom dom' start start' ν ρ) (hS : S.Lawful dom)
    (hS' : S'.Lawful dom') (hstart : ∀ n, start n → dom n) (hstart' : ∀ n, start' n → dom' n)
    (hx : S.IsLeastSolution dom start blank x records)
    (hx' : S'.IsLeastSolution dom' start' blank x' records') (k : κ) : x' (ρ k) = x k := by
  have h₁ := hx.least _ (h.isSolution hx' hstart hS.readers_dom) k
  have h₂ := hx'.least _ (h.symm.isSolution hx hstart' hS'.readers_dom) (ρ k)
  simp only [Function.comp_apply, Equiv.symm_apply_apply] at h₁ h₂
  exact le_antisymm h₂ h₁

theorem Renames.records_eq (h : Renames S S' dom dom' start start' ν ρ) (hS : S.Lawful dom)
    (hS' : S'.Lawful dom') (hstart : ∀ n, start n → dom n) (hstart' : ∀ n, start' n → dom' n)
    (hx : S.IsLeastSolution dom start blank x records)
    (hx' : S'.IsLeastSolution dom' start' blank x' records') (n : Nat) :
    records' (ν n) = records n := by
  have hvalues : x' ∘ ρ = x := funext (h.values_eq hS hS' hstart hstart' hx hx')
  have hiff : S.Started start x n ↔ S'.Started start' x' (ν n) := by
    constructor
    · rintro (hn | ⟨k, hk, hnk⟩)
      · exact Or.inl ((h.start_iff n).mpr hn)
      · obtain ⟨m, hm, hkm⟩ : ∃ m, S.Started start x m ∧ k ∈ S.slots m := by
          by_contra hno
          exact hk (hx.solution.rest k fun m hm hkm => hno ⟨m, hm, hkm⟩)
        refine Or.inr ⟨ρ k, ?_, (h.readers_iff m k n (hx.started_dom m hm) hkm).mpr hnk⟩
        rwa [← hvalues] at hk
    · rintro (hn | ⟨k, hk, hnk⟩)
      · exact Or.inl ((h.start_iff n).mp hn)
      · obtain ⟨m, hm, hkm⟩ : ∃ m, S'.Started start' x' m ∧ k ∈ S'.slots m := by
          by_contra hno
          exact hk (hx'.solution.rest k fun m hm hkm => hno ⟨m, hm, hkm⟩)
        have hread := (h.symm.readers_iff m k (ν n) (hx'.started_dom m hm) hkm).mpr hnk
        rw [ν.symm_apply_apply] at hread
        refine Or.inr ⟨ρ.symm k, ?_, hread⟩
        rw [← hvalues]
        simpa using hk
  by_cases hn : S.Started start x n
  · rw [hx.record n hn, hx'.record (ν n) (hiff.mp hn), h.record_eq n x' (hx.started_dom n hn), hvalues]
  · rw [hx.record_rest n hn, hx'.record_rest (ν n) fun hc => hn (hiff.mpr hc)]

end Renames

end System

end CfgLib.Lib
