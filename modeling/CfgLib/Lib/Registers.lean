import CfgLib.Lib.Flow

/-!
# Sharing registers

Code whose variables are kept in registers, several in one.  A read finds the value of
its variable when no instruction writes the register of another variable that is live
after it.
-/

namespace CfgLib.Lib

open List Function

variable {ι ν ρ δ : Type}

structure Semantics (ι ν δ : Type) where
  reads : ι → List ν
  writes : ι → List ν
  /-- The value of the write at a position. -/
  results : ι → List δ → Nat → δ

/-- Performs an instruction on a store that keeps every variable under a name: all reads
come before the first write. -/
def Semantics.perform [DecidableEq ρ] (S : Semantics ι ν δ) (name : ν → ρ) (store : ρ → δ) (a : ι) : ρ → δ :=
  let values := (S.reads a).map fun v => store (name v)
  (S.writes a).zipIdx.foldl (fun store w => update store (name w.1) (S.results a values w.2)) store

section Writes

variable [DecidableEq ν] [DecidableEq ρ] {name : ν → ρ}

variable {v : ν}

theorem foldl_update_agree (values : Nat → δ) : ∀ (ws : List (ν × Nat)) {env : ν → δ} {regs : ρ → δ},
    (∀ w ∈ ws, w.1 ≠ v → name w.1 ≠ name v) → (∃ w ∈ ws, w.1 = v) ∨ regs (name v) = env v →
      ws.foldl (fun store w => update store (name w.1) (values w.2)) regs (name v) =
        ws.foldl (fun store w => update store w.1 (values w.2)) env v := by
  intro ws
  induction ws with
  | nil =>
    rintro env regs _ (⟨w, hw, _⟩ | h)
    · cases hw
    · exact h
  | cons w ws ih =>
    intro env regs hne h
    rw [foldl_cons, foldl_cons]
    apply ih fun w' hw' => hne w' (mem_cons_of_mem _ hw')
    by_cases hv : w.1 = v
    · right
      rw [hv, update_self, update_self]
    · rw [update_of_ne (Ne.symm (hne w mem_cons_self hv)), update_of_ne (Ne.symm hv)]
      refine h.imp_left ?_
      rintro ⟨w', hw', hv'⟩
      rcases mem_cons.mp hw' with rfl | hw'
      · exact absurd hv' hv
      · exact ⟨w', hw', hv'⟩

theorem Semantics.perform_agree (S : Semantics ι ν δ) {a : ι} {env : ν → δ} {regs : ρ → δ}
    (hreads : ∀ w ∈ S.reads a, regs (name w) = env w) (hne : ∀ w ∈ S.writes a, w ≠ v → name w ≠ name v)
    (h : v ∈ S.writes a ∨ regs (name v) = env v) : S.perform name regs a (name v) = S.perform id env a v := by
  unfold perform
  have hvalues : (S.reads a).map (fun w => regs (name w)) = (S.reads a).map fun w => env w :=
    map_congr_left hreads
  rw [hvalues]
  apply foldl_update_agree
  · exact fun w hw => hne w.1 (fst_mem_of_mem_zipIdx hw)
  · refine h.imp_left fun hv => ?_
    obtain ⟨i, hi⟩ := getElem?_of_mem hv
    exact ⟨(v, i), mk_mem_zipIdx_iff_getElem?.mpr hi, rfl⟩

end Writes

section Cells

variable [DecidableEq ν] {S : Semantics ι ν δ} {a : ι} {env env' : ν → δ} {v : ν}

theorem foldl_update_of_ne (values : Nat → δ) (ws : List (ν × Nat)) : ∀ {env : ν → δ}, (∀ w ∈ ws, w.1 ≠ v) →
    ws.foldl (fun store w => update store w.1 (values w.2)) env v = env v := by
  induction ws with
  | nil => exact fun _ => rfl
  | cons w ws ih =>
    intro env hne
    rw [foldl_cons, ih fun w' hw' => hne w' (mem_cons_of_mem _ hw')]
    exact update_of_ne (Ne.symm (hne w mem_cons_self)) _ _

theorem exists_foldl_update (values : Nat → δ) (ws : List (ν × Nat)) : ∀ {env : ν → δ}, (∃ w ∈ ws, w.1 = v) →
    ∃ k, ws.foldl (fun store w => update store w.1 (values w.2)) env v = values k := by
  induction ws with
  | nil =>
    rintro env ⟨w, hw, _⟩
    exact absurd hw not_mem_nil
  | cons w ws ih =>
    intro env h
    rw [foldl_cons]
    by_cases hlater : ∃ w' ∈ ws, w'.1 = v
    · exact ih hlater
    · -- the last write of the variable
      rw [foldl_update_of_ne values ws fun w' hw' hv => hlater ⟨w', hw', hv⟩]
      obtain ⟨w', hw', hv⟩ := h
      rcases mem_cons.mp hw' with rfl | hw'
      · exact ⟨w'.2, by rw [hv, update_self]⟩
      · exact absurd ⟨w', hw', hv⟩ hlater

theorem Semantics.perform_of_not_mem (hv : v ∉ S.writes a) : S.perform id env a v = env v := by
  refine foldl_update_of_ne _ _ ?_
  rintro w hw rfl
  exact hv (fst_mem_of_mem_zipIdx hw)

theorem Semantics.foldl_perform_of_not_mem {w : List ι} : ∀ {env : ν → δ}, (∀ a ∈ w, v ∉ S.writes a) →
    w.foldl (S.perform id) env v = env v := by
  induction w with
  | nil => exact fun _ => rfl
  | cons a w ih =>
    intro env h
    rw [foldl_cons, ih fun x hx => h x (mem_cons_of_mem _ hx)]
    exact perform_of_not_mem (h a mem_cons_self)

theorem Semantics.exists_perform (S : Semantics ι ν δ) (env : ν → δ) (hv : v ∈ S.writes a) :
    ∃ k, S.perform id env a v = S.results a ((S.reads a).map env) k := by
  obtain ⟨i, hi⟩ := getElem?_of_mem hv
  exact exists_foldl_update _ _ ⟨(v, i), mk_mem_zipIdx_iff_getElem?.mpr hi, rfl⟩

theorem Semantics.perform_congr (hreads : ∀ w ∈ S.reads a, env w = env' w) (hv : v ∈ S.writes a) :
    S.perform id env a v = S.perform id env' a v :=
  S.perform_agree hreads (fun _ _ hne => hne) (Or.inl hv)

end Cells

namespace Flow

variable {F : Flow ι} {throws : ι → Bool} {S : Semantics ι ν δ} {name : ν → ρ} {live : Nat × Nat → ν → Prop}

/-- What is live is read later, past instructions that do not write it, and no instruction
writes the register of another variable that is live after it or written with it. -/
structure Separates (F : Flow ι) (throws : ι → Bool) (S : Semantics ι ν δ) (live : Nat × Nat → ν → Prop)
    (name : ν → ρ) : Prop where
  read : ∀ b i l a v, F.code b = some l → l[i]? = some a → v ∈ S.reads a → live (b, i) v
  pass : ∀ b i l a v, F.code b = some l → l[i]? = some a → v ∉ S.writes a → live (b, i + 1) v → live (b, i) v
  leave : ∀ b l t v, F.code b = some l → F.normal b t → live (t, 0) v → live (b, l.length) v
  raise : ∀ b i l a t v, F.code b = some l → l[i]? = some a → throws a = true → F.unwind b t →
    live (t, 0) v → live (b, i) v
  apart : ∀ b i l a d v, F.code b = some l → l[i]? = some a → d ∈ S.writes a →
    v ∈ S.writes a ∨ live (b, i + 1) v → d ≠ v → name d ≠ name v

namespace Separates

variable [DecidableEq ν] [DecidableEq ρ]

variable {w : List ι} {p q : Nat × Nat} {env : ν → δ} {regs : ρ → δ}

theorem step (h : Separates F throws S live name) {o : Option ι} (hs : Step F throws p o q)
    (hagree : ∀ v, live p v → regs (name v) = env v) :
    ∀ v, live q v → o.toList.foldl (S.perform name) regs (name v) = o.toList.foldl (S.perform id) env v := by
  cases hs with
  | @exec b i l a hc ha =>
    intro v hv
    refine S.perform_agree (fun w hw => hagree w (h.read b i l a w hc ha hw))
      (fun d hd => h.apart b i l a d v hc ha hd (Or.inr hv)) ?_
    by_cases hw : v ∈ S.writes a
    · exact Or.inl hw
    · exact Or.inr (hagree v (h.pass b i l a v hc ha hw hv))
  | @leave b t l hc hn => exact fun v hv => hagree v (h.leave b l t v hc hn hv)
  | @raise b t i l a hc ha hthrow hu => exact fun v hv => hagree v (h.raise b i l a t v hc ha hthrow hu hv)

theorem run (h : Separates F throws S live name) (hrun : Run (Step F throws) p w q) :
    ∀ {env : ν → δ} {regs : ρ → δ}, (∀ v, live p v → regs (name v) = env v) →
      ∀ v, live q v → w.foldl (S.perform name) regs (name v) = w.foldl (S.perform id) env v := by
  induction hrun with
  | refl => exact fun hagree => hagree
  | step hs _ ih =>
    intro env regs hagree v hv
    rw [foldl_append, foldl_append]
    exact ih (h.step hs hagree) v hv

theorem reads_agree (h : Separates F throws S live name) {b i : Nat} {l : List ι} {a : ι}
    (hrun : Run (Step F throws) p w (b, i)) (hc : F.code b = some l) (ha : l[i]? = some a)
    (hagree : ∀ v, live p v → regs (name v) = env v) :
    ∀ v ∈ S.reads a, w.foldl (S.perform name) regs (name v) = w.foldl (S.perform id) env v :=
  fun v hv => h.run hrun hagree v (h.read b i l a v hc ha hv)

end Separates

end Flow

end CfgLib.Lib
